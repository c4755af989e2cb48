import Mathlib.Data.Set.Card
import Mathlib.Algebra.BigOperators.Group.Multiset.Basic
import Mathlib.Algebra.Order.Group.Multiset
import Mathlib.Tactic.Abel
import Ganc.Circom.AlgebraSpec
import Ganc.Lib.Fuel
import Ganc.Lib.UnionFind

/-!
# circom — clusters of constraints

`build_clusters` of `constraint_list/src/constraint_simplification.rs`: linear
constraints that share a signal are put into one cluster, by a union-find
structure over the constraints. The result is the finest partition in which
different clusters have no signal in common (`buildClusters_spec`).

An index out of range and a number of signals below zero are panics: `none`.
-/

set_option linter.unusedSectionVars false

namespace Ganc.Circom

open Fuel UnionFind

-- ---------------------------------------------------------------------------
-- Clusters
-- ---------------------------------------------------------------------------

structure Cluster where
  constraints : List (Constraint Nat)
  numSignals : Nat

namespace Cluster

def empty : Cluster := ⟨[], 0⟩

def new (constraint : Constraint Nat) (numSignals : Nat) : Cluster := ⟨[constraint], numSignals⟩

def merge (c₀ c₁ : Cluster) : Option Cluster :=
  if c₀.numSignals + c₁.numSignals = 0 then none
  else some ⟨c₀.constraints ++ c₁.constraints, c₀.numSignals + c₁.numSignals - 1⟩

def size (cluster : Cluster) : Nat := cluster.constraints.length

end Cluster

abbrev ClusterArena := List (Option Cluster)

abbrev ClusterPath := List Nat

/-- The first loop of `shrink_jumps_and_find`; the last jump is the first in the list. -/
def findLoop (cToC : ClusterPath) : Nat → Nat → List Nat → Option (Nat × List Nat)
  | 0, _, _ => none
  | fuel + 1, current, jumps => do
    let next ← cToC[current]?
    if current = next then return (current, jumps)
    else findLoop cToC fuel next (current :: jumps)

def shrinkJumpsAndFind (fuel : Nat) (cToC : ClusterPath) (org : Nat) :
    Option (ClusterPath × Nat) := do
  let (current, jumps) ← findLoop cToC fuel org []
  return (jumps.foldl (fun cToC redirect => cToC.set redirect current) cToC, current)

def arenaMerge (fuel : Nat) (arena : ClusterArena) (cToC : ClusterPath) (src dest : Nat) :
    Option (ClusterArena × ClusterPath) := do
  let (cToC, currentDest) ← shrinkJumpsAndFind fuel cToC dest
  let (cToC, currentSrc) ← shrinkJumpsAndFind fuel cToC src
  let c₀ := (← arena[currentDest]?).getD Cluster.empty
  let arena := arena.set currentDest none
  let c₁ := (← arena[currentSrc]?).getD Cluster.empty
  let arena := arena.set currentSrc none
  let merged ← Cluster.merge c₀ c₁
  return (arena.set currentDest (some merged), cToC.set currentSrc currentDest)

structure Clustering where
  arena : ClusterArena
  clusterToCurrent : ClusterPath
  signalToCluster : List Nat

def clusterSignal (fuel noLinear dest : Nat) (s : Clustering) (signal : Nat) :
    Option Clustering := do
  let prev ← s.signalToCluster[signal]?
  let signalToCluster := s.signalToCluster.set signal dest
  if prev < noLinear then
    let (arena, clusterToCurrent) ← arenaMerge fuel s.arena s.clusterToCurrent prev dest
    return { arena, clusterToCurrent, signalToCluster }
  else return { s with signalToCluster }

def clusterConstraint (hash : HashOrder) (noLinear fuel : Nat) (s : Clustering)
    (constraint : Constraint Nat) : Option Clustering :=
  if constraint.isEmpty then some s
  else
    let signals := hash.arrange constraint.takeClonedSignals.toList
    let dest := s.arena.length
    let arena := s.arena ++ [some (Cluster.new constraint signals.length)]
    let clusterToCurrent := s.clusterToCurrent ++ [dest]
    signals.foldlM (clusterSignal fuel noLinear dest) { s with arena, clusterToCurrent }

/-- A signal that has not been seen belongs to the cluster `noLinear`. -/
def buildClusters (hash : HashOrder) (fuel : Nat) (linear : List (Constraint Nat)) (noVars : Nat) :
    Option (List Cluster) := do
  let noLinear := linear.length
  let s ← linear.foldlM (clusterConstraint hash noLinear fuel)
    ⟨[], [], List.replicate noVars noLinear⟩
  return (s.arena.filterMap id).filter fun cluster => cluster.size ≠ 0

-- ---------------------------------------------------------------------------
-- Finding and merging
-- ---------------------------------------------------------------------------

/-- The loop ends at the root, and remembers items of its class only. -/
theorem findLoop_spec {cToC : ClusterPath} {org r : Nat} (h : Reaches cToC org r)
    {jumps : List Nat} (hJumps : ∀ j ∈ jumps, Reaches cToC j r) :
    ∃ jumps', Settles (fun fuel => findLoop cToC fuel org jumps) (r, jumps') ∧
      ∀ j ∈ jumps', Reaches cToC j r := by
  induction h generalizing jumps with
  | root hRoot =>
    refine ⟨jumps, settles_succ (g := fun _ => some (_, jumps)) ?_ (settles_of_eq fun _ => rfl),
      hJumps⟩
    intro fuel
    rw [findLoop, hRoot]
    exact if_pos rfl
  | step hParent hne hRest ih =>
    obtain ⟨jumps', hSettles, hAll⟩ :=
      ih (List.forall_mem_cons.mpr ⟨.step hParent hne hRest, hJumps⟩)
    refine ⟨jumps', settles_succ ?_ hSettles, hAll⟩
    intro fuel
    rw [findLoop, hParent]
    exact if_neg hne

/-- Redirecting items to their root changes no root. -/
theorem forest_redirect {cToC : ClusterPath} {root : Nat → Nat} (h : Forest cToC root) {r : Nat}
    {jumps : List Nat} (hJumps : ∀ j ∈ jumps, j < cToC.length ∧ root j = r) :
    Forest (jumps.foldl (fun cToC redirect => cToC.set redirect r) cToC) root ∧
      (jumps.foldl (fun cToC redirect => cToC.set redirect r) cToC).length = cToC.length := by
  induction jumps generalizing cToC with
  | nil => exact ⟨h, rfl⟩
  | cons j jumps ih =>
    rw [List.forall_mem_cons] at hJumps
    obtain ⟨⟨hj, rfl⟩, hRest⟩ := hJumps
    obtain ⟨hForest, hLength⟩ := ih (h.compress (h j hj)) (by rwa [List.length_set])
    exact ⟨hForest, hLength.trans List.length_set⟩

/-- The root is found, and only shortcuts are taken. -/
theorem shrinkJumpsAndFind_spec {cToC : ClusterPath} {root : Nat → Nat} (h : Forest cToC root)
    {org : Nat} (hOrg : org < cToC.length) :
    ∃ cToC', Settles (fun fuel => shrinkJumpsAndFind fuel cToC org) (cToC', root org) ∧
      Forest cToC' root ∧ cToC'.length = cToC.length := by
  obtain ⟨jumps, hSettles, hJumps⟩ := findLoop_spec (h org hOrg)
    fun j (hj : j ∈ []) => absurd hj List.not_mem_nil
  obtain ⟨hForest, hLength⟩ := forest_redirect h
    (fun j hj => ⟨(hJumps j hj).lt_length, h.root_eq (hJumps j hj)⟩)
  refine ⟨_, (hSettles.bind (k := fun _ found => some
    (found.2.foldl (fun cToC redirect => cToC.set redirect found.1) cToC, found.1))
    (settles_of_eq fun _ => rfl)).congr fun _ => rfl, hForest, hLength⟩

/-- The cluster at a position, if there is one. -/
def clusterAt (arena : ClusterArena) (i : Nat) : Cluster := (arena[i]?.join).getD Cluster.empty

/-- The arena after the cluster at `i` has been merged into the one at `j`. -/
def mergedArena (arena : ClusterArena) (i j : Nat) (merged : Cluster) : ClusterArena :=
  ((arena.set j none).set i none).set j (some merged)

theorem getElem?_mergedArena {arena : ClusterArena} {i j : Nat} (hi : i < arena.length)
    (hj : j < arena.length) (merged : Cluster) (k : Nat) :
    (mergedArena arena i j merged)[k]? =
      if k = j then some (some merged) else if k = i then some none else arena[k]? := by
  rw [mergedArena]
  by_cases hkj : k = j
  · subst hkj
    rw [if_pos rfl]
    exact List.getElem?_set_self (by simpa using hj)
  · rw [if_neg hkj, List.getElem?_set_ne (Ne.symm hkj)]
    by_cases hki : k = i
    · subst hki
      rw [if_pos rfl]
      exact List.getElem?_set_self (by simpa using hi)
    · rw [if_neg hki, List.getElem?_set_ne (Ne.symm hki), List.getElem?_set_ne (Ne.symm hkj)]

/-- The clusters of two roots are merged into that of the second. -/
theorem arenaMerge_spec {arena : ClusterArena} {cToC : ClusterPath} {root : Nat → Nat}
    (h : Forest cToC root) (hLength : arena.length = cToC.length) {src dest : Nat}
    (hSrc : src < cToC.length) (hDest : dest < cToC.length) {c₁ : Cluster}
    (hC₁ : c₁ = if root src = root dest then Cluster.empty else clusterAt arena (root src))
    (hSignals : (clusterAt arena (root dest)).numSignals + c₁.numSignals ≠ 0) :
    ∃ cToC', Settles (fun fuel => arenaMerge fuel arena cToC src dest)
        (mergedArena arena (root src) (root dest)
          ⟨(clusterAt arena (root dest)).constraints ++ c₁.constraints,
            (clusterAt arena (root dest)).numSignals + c₁.numSignals - 1⟩, cToC') ∧
      Forest cToC' (linkRoot root (root src) (root dest)) ∧
      cToC'.length = cToC.length := by
  obtain ⟨cToC₁, hFirst, hForest₁, hLength₁⟩ := shrinkJumpsAndFind_spec h hDest
  obtain ⟨cToC₂, hSecond, hForest₂, hLength₂⟩ :=
    shrinkJumpsAndFind_spec hForest₁ (hLength₁ ▸ hSrc)
  have hRoot : ∀ i < cToC.length, cToC₂[root i]? = some (root i) :=
    fun i hi => (hForest₂ i (by omega)).isRoot
  have hHere : ∀ i < cToC.length, ∃ c, arena[root i]? = some c := by
    intro i hi
    have hLess : root i < arena.length := hLength ▸ h.root_lt hi
    exact ⟨_, List.getElem?_eq_getElem hLess⟩
  obtain ⟨o₀, hO₀⟩ := hHere dest hDest
  obtain ⟨o₁, hO₁⟩ := hHere src hSrc
  have hC₀ : clusterAt arena (root dest) = o₀.getD Cluster.empty := by
    rw [clusterAt, hO₀]
    rfl
  obtain ⟨o₁', hO₁', hC₁'⟩ : ∃ o, (arena.set (root dest) none)[root src]? = some o ∧
      o.getD Cluster.empty = c₁ := by
    by_cases hSame : root src = root dest
    · rw [if_pos hSame] at hC₁
      refine ⟨none, ?_, hC₁.symm⟩
      rw [hSame]
      exact List.getElem?_set_self (List.getElem?_eq_some_iff.mp hO₀).1
    · rw [if_neg hSame, clusterAt, hO₁] at hC₁
      exact ⟨o₁, (List.getElem?_set_ne (Ne.symm hSame)).trans hO₁, hC₁.symm⟩
  rw [hC₀] at hSignals ⊢
  refine ⟨cToC₂.set (root src) (root dest), ?_, hForest₂.link (hRoot src hSrc) (hRoot dest hDest),
    List.length_set.trans (hLength₂.trans hLength₁)⟩
  refine (hFirst.bind (hSecond.bind (k := fun _ found => do
    let c₀ := (← arena[root dest]?).getD Cluster.empty
    let c₁ := (← (arena.set (root dest) none)[found.2]?).getD Cluster.empty
    let merged ← Cluster.merge c₀ c₁
    return (mergedArena arena found.2 (root dest) merged,
      found.1.set found.2 (root dest))) (settles_of_eq fun _ => ?_))).congr fun _ => rfl
  simp only [hO₀, hO₁', Option.bind_eq_bind, Option.bind_some, hC₁', Cluster.merge, if_neg hSignals]
  rfl

-- ---------------------------------------------------------------------------
-- The constraints in the arena
-- ---------------------------------------------------------------------------

def Cluster.members (o : Option Cluster) : Multiset (Constraint Nat) :=
  o.elim 0 fun cluster => (cluster.constraints : Multiset (Constraint Nat))

/-- All constraints in the arena, with their multiplicity. -/
def total (arena : ClusterArena) : Multiset (Constraint Nat) := (arena.map Cluster.members).sum

/-- Replacing a cluster replaces its constraints in the total. -/
theorem total_set {arena : ClusterArena} {i : Nat} {o : Option Cluster} (hAt : arena[i]? = some o)
    (o' : Option Cluster) :
    total (arena.set i o') + Cluster.members o = total arena + Cluster.members o' := by
  induction arena generalizing i with
  | nil => simp at hAt
  | cons first rest ih =>
    cases i with
    | zero =>
      obtain rfl := Option.some.inj hAt
      rw [List.set_cons_zero, total, total, List.map_cons, List.map_cons, List.sum_cons,
        List.sum_cons]
      abel
    | succ i =>
      have hRest := ih hAt
      rw [total, total] at hRest
      rw [List.set_cons_succ, total, total, List.map_cons, List.map_cons, List.sum_cons,
        List.sum_cons, add_assoc, hRest, add_assoc]

theorem members_eq (o : Option Cluster) :
    Cluster.members o = ((o.getD Cluster.empty).constraints : Multiset (Constraint Nat)) := by
  cases o <;> rfl

theorem clusterAt_eq {arena : ClusterArena} {i : Nat} {o : Option Cluster}
    (hAt : arena[i]? = some o) : clusterAt arena i = o.getD Cluster.empty := by
  rw [clusterAt, hAt]
  rfl

theorem total_mergedArena {arena : ClusterArena} {i j : Nat} (hi : i < arena.length)
    (hj : j < arena.length) {c₁ : Cluster}
    (hC₁ : c₁ = if i = j then Cluster.empty else clusterAt arena i) (n : Nat) :
    total (mergedArena arena i j ⟨(clusterAt arena j).constraints ++ c₁.constraints, n⟩) =
      total arena := by
  have hAtJ : arena[j]? = some arena[j] := List.getElem?_eq_getElem hj
  obtain ⟨o, hAtI, hC₁'⟩ : ∃ o, (arena.set j none)[i]? = some o ∧ o.getD Cluster.empty = c₁ := by
    by_cases hSame : i = j
    · subst hSame
      rw [if_pos rfl] at hC₁
      exact ⟨none, List.getElem?_set_self hj, hC₁.symm⟩
    · have hAt : arena[i]? = some arena[i] := List.getElem?_eq_getElem hi
      rw [if_neg hSame, clusterAt_eq hAt] at hC₁
      exact ⟨_, (List.getElem?_set_ne (Ne.symm hSame)).trans hAt, hC₁.symm⟩
  have hLast : ((arena.set j none).set i none)[j]? = some none := by
    by_cases hSame : i = j
    · subst hSame
      exact List.getElem?_set_self (by rwa [List.length_set])
    · rw [List.getElem?_set_ne hSame]
      exact List.getElem?_set_self hj
  have hOne := total_set hAtJ none
  have hTwo := total_set hAtI none
  have hThree := total_set hLast
    (some ⟨(clusterAt arena j).constraints ++ c₁.constraints, n⟩)
  have hNone : Cluster.members none = 0 := rfl
  have hMerged : Cluster.members (some ⟨(clusterAt arena j).constraints ++ c₁.constraints, n⟩) =
      ((clusterAt arena j).constraints : Multiset (Constraint Nat)) + c₁.constraints :=
    (Multiset.coe_add _ _).symm
  rw [members_eq, ← clusterAt_eq hAtJ, hNone, add_zero] at hOne
  rw [members_eq, hC₁', hNone, add_zero] at hTwo
  rw [hMerged, hNone, add_zero, add_comm (Multiset.ofList (clusterAt arena j).constraints),
    ← add_assoc, hTwo, hOne] at hThree
  exact hThree

-- ---------------------------------------------------------------------------
-- The invariant
-- ---------------------------------------------------------------------------

/-- Two constraints with a signal in common. -/
def Share (c c' : Constraint Nat) : Prop :=
  ∃ t, t ≠ constantCoefficient ∧ c.Occurs t ∧ c'.Occurs t

/-- Two of the constraints, with a signal in common. -/
def Linked (constraints : List (Constraint Nat)) (c c' : Constraint Nat) : Prop :=
  c ∈ constraints ∧ c' ∈ constraints ∧ Share c c'

open Classical in
/-- The signals whose last constraint is in the cluster of `i`. -/
noncomputable def owned (signalToCluster : List Nat) (root : Nat → Nat) (n i : Nat) : Finset Nat :=
  (Finset.range signalToCluster.length).filter fun t =>
    ∃ j, signalToCluster[t]? = some j ∧ j < n ∧ root j = i

/-- A signal is owned by the root of the cluster that it points at. -/
theorem mem_owned {signalToCluster : List Nat} {root : Nat → Nat} {n i t : Nat} :
    t ∈ owned signalToCluster root n i ↔
      ∃ j, signalToCluster[t]? = some j ∧ j < n ∧ root j = i := by
  rw [owned, Finset.mem_filter, Finset.mem_range, and_iff_right_iff_imp]
  rintro ⟨j, hAt, -⟩
  exact (List.getElem?_eq_some_iff.mp hAt).1

/-- The state after the constraints `done`, but for the signals `pending` of the last one. -/
structure Grouped (noVars noLinear : Nat) (done : List (Constraint Nat)) (root : Nat → Nat)
    (pending : List Nat) (s : Clustering) : Prop where
  arena : s.arena.length = done.length
  path : s.clusterToCurrent.length = done.length
  vars : s.signalToCluster.length = noVars
  few : done.length ≤ noLinear
  forest : Forest s.clusterToCurrent root
  total : total s.arena = done
  placed : ∀ (i : Nat) (cluster : Cluster), s.arena[i]? = some (some cluster) →
    root i = i ∧ ∀ c ∈ cluster.constraints, ∃ j : Nat, done[j]? = some c ∧ root j = i
  home : ∀ (j : Nat) (c : Constraint Nat), done[j]? = some c →
    ∃ cluster, s.arena[root j]? = some (some cluster) ∧ c ∈ cluster.constraints
  seen : ∀ t i : Nat, s.signalToCluster[t]? = some i →
    i = noLinear ∨ t ≠ constantCoefficient ∧ ∃ c, done[i]? = some c ∧ c.Occurs t
  joined : ∀ (t j : Nat) (c : Constraint Nat), done[j]? = some c → t ≠ constantCoefficient →
    c.Occurs t → (t ∈ pending → j + 1 < done.length) →
      ∃ i, s.signalToCluster[t]? = some i ∧ i < done.length ∧ root j = root i
  connected : ∀ (i j : Nat) (c c' : Constraint Nat), done[i]? = some c → done[j]? = some c' →
    root i = root j → Relation.EqvGen (Linked done) c c'
  counts : ∀ (i : Nat) (cluster : Cluster), s.arena[i]? = some (some cluster) →
    cluster.numSignals = (owned s.signalToCluster root done.length i).card +
      if root (done.length - 1) = i then pending.length else 0

section Steps

variable {noVars noLinear : Nat} {done : List (Constraint Nat)} {root : Nat → Nat}
  {pending : List Nat} {s : Clustering}

/-- Before the first constraint, nothing is grouped. -/
theorem grouped_init (noVars noLinear : Nat) :
    Grouped noVars noLinear [] id [] ⟨[], [], List.replicate noVars noLinear⟩ where
  arena := rfl
  path := rfl
  vars := List.length_replicate
  few := Nat.zero_le _
  forest := forest_nil id
  total := rfl
  placed _ _ h := by simp at h
  home _ _ h := by simp at h
  seen t i h := by
    rw [List.getElem?_replicate] at h
    split at h
    next => exact .inl (Option.some.inj h).symm
    next => cases h
  joined _ _ _ h := by simp at h
  connected _ _ _ _ h := by simp at h
  counts _ _ h := by simp at h

theorem Grouped.root_lt (h : Grouped noVars noLinear done root pending s) {j : Nat}
    (hj : j < done.length) : root j < done.length :=
  h.path ▸ h.forest.root_lt (h.path.symm ▸ hj)

theorem Grouped.root_root (h : Grouped noVars noLinear done root pending s) {j : Nat}
    (hj : j < done.length) : root (root j) = root j :=
  h.forest.root_root (h.path.symm ▸ hj)

-- ---------------------------------------------------------------------------
-- A new constraint
-- ---------------------------------------------------------------------------

/-- An item of a longer list is an old one or the last. -/
theorem getElem?_snoc_eq_some {α : Type} {l : List α} {a x : α} {j : Nat} :
    (l ++ [a])[j]? = some x ↔ l[j]? = some x ∨ (j = l.length ∧ x = a) := by
  rcases Nat.lt_trichotomy j l.length with hLess | rfl | hGreater
  · rw [List.getElem?_append_left hLess, or_iff_left]
    exact fun h => absurd h.1 (Nat.ne_of_lt hLess)
  · rw [List.getElem?_concat_length, Option.some.injEq, List.getElem?_eq_none (le_refl _), eq_comm]
    exact ⟨fun h => .inr ⟨rfl, h⟩, fun h => (h.resolve_left nofun).2⟩
  · rw [List.getElem?_eq_none (by simpa using hGreater), List.getElem?_eq_none hGreater.le]
    exact iff_of_false nofun fun h =>
      absurd (h.resolve_left nofun).1 (Nat.ne_of_gt hGreater)

section Push

variable {c : Constraint Nat} {signals : List Nat}

/-- The roots with one more constraint, in a class of its own. -/
def pushRoot (root : Nat → Nat) (n : Nat) : Nat → Nat := Function.update root n n

theorem pushRoot_self (root : Nat → Nat) (n : Nat) : pushRoot root n n = n :=
  Function.update_self ..

theorem pushRoot_of_lt {n j : Nat} (hj : j < n) : pushRoot root n j = root j :=
  Function.update_of_ne (Nat.ne_of_lt hj) _ _

theorem pushRoot_of_getElem? {j : Nat} {c' : Constraint Nat} (hj : done[j]? = some c') :
    pushRoot root done.length j = root j :=
  pushRoot_of_lt (List.getElem?_eq_some_iff.mp hj).1

/-- An old constraint is not in the class of the new one. -/
theorem Grouped.pushRoot_ne (h : Grouped noVars noLinear done root [] s) {j : Nat}
    (hj : j < done.length) : pushRoot root done.length j ≠ done.length := by
  rw [pushRoot_of_lt hj]
  exact Nat.ne_of_lt (h.root_lt hj)

/-- Every cluster lies at a root and holds constraints of its class, with the new one. -/
theorem Grouped.placed_push (h : Grouped noVars noLinear done root [] s) {i : Nat}
    {cluster : Cluster}
    (hi : (s.arena ++ [some (Cluster.new c signals.length)])[i]? = some (some cluster)) :
    pushRoot root done.length i = i ∧ ∀ c' ∈ cluster.constraints,
      ∃ j : Nat, (done ++ [c])[j]? = some c' ∧ pushRoot root done.length j = i := by
  rcases getElem?_snoc_eq_some.mp hi with hOld | ⟨rfl, hNew⟩
  · obtain ⟨hFix, hAll⟩ := h.placed i cluster hOld
    have hLess : i < done.length := h.arena ▸ (List.getElem?_eq_some_iff.mp hOld).1
    refine ⟨(pushRoot_of_lt hLess).trans hFix, ?_⟩
    intro c' hc'
    obtain ⟨j, hj, hjRoot⟩ := hAll c' hc'
    exact ⟨j, getElem?_snoc_eq_some.mpr (.inl hj), (pushRoot_of_getElem? hj).trans hjRoot⟩
  · obtain rfl := Option.some.inj hNew
    rw [h.arena]
    refine ⟨pushRoot_self .., ?_⟩
    intro c' hc'
    obtain rfl := List.mem_singleton.mp hc'
    exact ⟨done.length, List.getElem?_concat_length, pushRoot_self ..⟩

/-- Every constraint lies in the cluster of its root, the new one in its own. -/
theorem Grouped.home_push (h : Grouped noVars noLinear done root [] s) {j : Nat}
    {c' : Constraint Nat} (hj : (done ++ [c])[j]? = some c') :
    ∃ cluster, (s.arena ++ [some (Cluster.new c signals.length)])[pushRoot root done.length j]? =
      some (some cluster) ∧ c' ∈ cluster.constraints := by
  rcases getElem?_snoc_eq_some.mp hj with hOld | ⟨rfl, rfl⟩
  · obtain ⟨cluster, hStored, hIn⟩ := h.home j c' hOld
    rw [pushRoot_of_getElem? hOld]
    exact ⟨cluster, getElem?_snoc_eq_some.mpr (.inl hStored), hIn⟩
  · rw [pushRoot_self, ← h.arena]
    exact ⟨_, List.getElem?_concat_length, List.mem_singleton_self c'⟩

/-- Nothing has joined the class of the new constraint yet. -/
theorem Grouped.connected_push (h : Grouped noVars noLinear done root [] s) {i j : Nat}
    {a b : Constraint Nat} (hi : (done ++ [c])[i]? = some a) (hj : (done ++ [c])[j]? = some b)
    (hSame : pushRoot root done.length i = pushRoot root done.length j) :
    Relation.EqvGen (Linked (done ++ [c])) a b := by
  have hLinked : Linked done ≤ Linked (done ++ [c]) :=
    fun a b ⟨ha, hb, hShare⟩ => ⟨List.mem_append_left _ ha, List.mem_append_left _ hb, hShare⟩
  rcases getElem?_snoc_eq_some.mp hi with hi' | ⟨rfl, rfl⟩
  · rcases getElem?_snoc_eq_some.mp hj with hj' | ⟨rfl, rfl⟩
    · rw [pushRoot_of_getElem? hi', pushRoot_of_getElem? hj'] at hSame
      exact Relation.EqvGen.mono hLinked _ _ (h.connected i j a b hi' hj' hSame)
    · rw [pushRoot_self] at hSame
      exact absurd hSame (h.pushRoot_ne (List.getElem?_eq_some_iff.mp hi').1)
  · rcases getElem?_snoc_eq_some.mp hj with hj' | ⟨rfl, rfl⟩
    · rw [pushRoot_self] at hSame
      exact absurd hSame.symm (h.pushRoot_ne (List.getElem?_eq_some_iff.mp hj').1)
    · exact Relation.EqvGen.refl _

/-- The new constraint owns none of the signals yet, and the others own what they owned. -/
theorem Grouped.mem_owned_push (h : Grouped noVars noLinear done root [] s)
    (hFew : done.length < noLinear) {i t : Nat} :
    t ∈ owned s.signalToCluster (pushRoot root done.length) (done.length + 1) i ↔
      i ≠ done.length ∧ t ∈ owned s.signalToCluster root done.length i := by
  rw [mem_owned, mem_owned]
  constructor
  · rintro ⟨j, hj, hjLess, rfl⟩
    have hOld : j < done.length := by
      rcases h.seen t j hj with rfl | ⟨-, c', hStored, -⟩
      · omega
      · exact (List.getElem?_eq_some_iff.mp hStored).1
    exact ⟨h.pushRoot_ne hOld, j, hj, hOld, (pushRoot_of_lt hOld).symm⟩
  · rintro ⟨-, j, hj, hjLess, hjRoot⟩
    exact ⟨j, hj, by omega, (pushRoot_of_lt hjLess).trans hjRoot⟩

/-- Every cluster counts the signals it owns, and the new one those to be treated. -/
theorem Grouped.counts_push (h : Grouped noVars noLinear done root [] s)
    (hFew : done.length < noLinear) {i : Nat} {cluster : Cluster}
    (hi : (s.arena ++ [some (Cluster.new c signals.length)])[i]? = some (some cluster)) :
    cluster.numSignals =
      (owned s.signalToCluster (pushRoot root done.length) (done.length + 1) i).card +
        if done.length = i then signals.length else 0 := by
  rcases getElem?_snoc_eq_some.mp hi with hOld | ⟨rfl, hNew⟩
  · have hNe : i ≠ done.length :=
      Nat.ne_of_lt (h.arena ▸ (List.getElem?_eq_some_iff.mp hOld).1)
    have hSame : owned s.signalToCluster (pushRoot root done.length) (done.length + 1) i =
        owned s.signalToCluster root done.length i :=
      Finset.ext fun t => (h.mem_owned_push hFew).trans (and_iff_right hNe)
    have hCount := h.counts i cluster hOld
    rw [List.length_nil, ite_self] at hCount
    rw [hCount, hSame, if_neg (Ne.symm hNe)]
  · obtain rfl := Option.some.inj hNew
    have hNone : owned s.signalToCluster (pushRoot root done.length) (done.length + 1)
        s.arena.length = ∅ := by
      refine Finset.eq_empty_of_forall_notMem fun t ht => ?_
      exact ((h.mem_owned_push hFew).mp ht).1 h.arena
    rw [hNone, Finset.card_empty, Nat.zero_add, if_pos h.arena.symm]
    rfl

/-- A new constraint starts a cluster, with its signals to treat. -/
theorem Grouped.push (h : Grouped noVars noLinear done root [] s)
    (hFew : done.length < noLinear)
    (hSignals : ∀ t, t ≠ constantCoefficient → c.Occurs t → t ∈ signals) :
    Grouped noVars noLinear (done ++ [c]) (pushRoot root done.length) signals
      { s with
        arena := s.arena ++ [some (Cluster.new c signals.length)]
        clusterToCurrent := s.clusterToCurrent ++ [done.length] } where
  arena := by simp [h.arena]
  path := by simp [h.path]
  vars := h.vars
  few := by
    rw [List.length_append, List.length_singleton]
    omega
  forest := by
    have hPush := h.forest.push
    rwa [h.path] at hPush
  total := by
    rw [Circom.total, List.map_append, List.sum_append, ← Circom.total, h.total,
      ← Multiset.coe_add]
    simp [Cluster.members, Cluster.new]
  placed _ _ hi := h.placed_push hi
  home _ _ hj := h.home_push hj
  seen t i hi := (h.seen t i hi).imp_right fun ⟨hne, c', hStored, hOccurs⟩ =>
    ⟨hne, c', getElem?_snoc_eq_some.mpr (.inl hStored), hOccurs⟩
  joined t j c' hj hne hOccurs hPending := by
    rw [List.length_append, List.length_singleton] at hPending ⊢
    rcases getElem?_snoc_eq_some.mp hj with hOld | ⟨rfl, rfl⟩
    · obtain ⟨i, hi, hiLess, hSame⟩ := h.joined t j c' hOld hne hOccurs
        fun hIn => absurd hIn List.not_mem_nil
      exact ⟨i, hi, by omega, by rw [pushRoot_of_getElem? hOld, pushRoot_of_lt hiLess, hSame]⟩
    · exact absurd (hPending (hSignals t hne hOccurs)) (lt_irrefl _)
  connected _ _ _ _ hi hj hSame := h.connected_push hi hj hSame
  counts i cluster hi := by
    rw [List.length_append, List.length_singleton, Nat.add_sub_cancel, pushRoot_self]
    exact h.counts_push hFew hi

end Push

-- ---------------------------------------------------------------------------
-- A signal of the last constraint
-- ---------------------------------------------------------------------------

/-- The first of the pending signals, which is one of the last constraint. -/
structure Treating (noVars noLinear : Nat) (done : List (Constraint Nat)) (root : Nat → Nat)
    (t : Nat) (rest : List Nat) (s : Clustering) : Prop
    extends Grouped noVars noLinear done root (t :: rest) s where
  bound : t < noVars
  signal : t ≠ constantCoefficient
  last : ∃ c, done[done.length - 1]? = some c ∧ c.Occurs t

namespace Treating

variable {t : Nat} {rest : List Nat} {root' : Nat → Nat}

theorem last_lt (h : Treating noVars noLinear done root t rest s) :
    done.length - 1 < done.length := by
  obtain ⟨c, hc, -⟩ := h.last
  exact (List.getElem?_eq_some_iff.mp hc).1

/-- The signal is now in the cluster of the last constraint. -/
theorem here (h : Treating noVars noLinear done root t rest s) :
    (s.signalToCluster.set t (done.length - 1))[t]? = some (done.length - 1) :=
  List.getElem?_set_self (h.vars.symm ▸ h.bound)

/-- The other signals are where they were. -/
theorem elsewhere {last t' : Nat} (hNe : t' ≠ t) :
    (s.signalToCluster.set t last)[t']? = s.signalToCluster[t']? :=
  List.getElem?_set_ne (Ne.symm hNe)

theorem seen_set (h : Treating noVars noLinear done root t rest s) {t' i : Nat}
    (hi : (s.signalToCluster.set t (done.length - 1))[t']? = some i) :
    i = noLinear ∨ t' ≠ constantCoefficient ∧ ∃ c, done[i]? = some c ∧ c.Occurs t' := by
  by_cases hEq : t' = t
  · subst hEq
    obtain rfl := Option.some.inj (h.here.symm.trans hi)
    exact .inr ⟨h.signal, h.last⟩
  · exact h.seen t' i ((elsewhere hEq).symm.trans hi)

/-- The classes may become larger if the earlier constraints with the signal are in that of the
last one afterwards. -/
theorem joined_set (h : Treating noVars noLinear done root t rest s)
    (hLarger : ∀ {i j}, root i = root j → root' i = root' j)
    (hEarlier : ∀ {i}, s.signalToCluster[t]? = some i → i < done.length →
      root' i = root' (done.length - 1)) {t' j : Nat} {c : Constraint Nat}
    (hj : done[j]? = some c) (hne : t' ≠ constantCoefficient) (hOccurs : c.Occurs t')
    (hPending : t' ∈ rest → j + 1 < done.length) :
    ∃ i, (s.signalToCluster.set t (done.length - 1))[t']? = some i ∧ i < done.length ∧
      root' j = root' i := by
  by_cases hEq : t' = t
  · subst hEq
    refine ⟨done.length - 1, h.here, h.last_lt, ?_⟩
    by_cases hjLast : j + 1 < done.length
    · obtain ⟨i, hi, hiLess, hSame⟩ := h.joined t' j c hj hne hOccurs fun _ => hjLast
      exact (hLarger hSame).trans (hEarlier hi hiLess)
    · have hjLess := (List.getElem?_eq_some_iff.mp hj).1
      rw [show j = done.length - 1 by omega]
  · obtain ⟨i, hi, hiLess, hSame⟩ := h.joined t' j c hj hne hOccurs
      fun hIn => hPending ((List.mem_cons.mp hIn).resolve_left hEq)
    exact ⟨i, (elsewhere hEq).trans hi, hiLess, hLarger hSame⟩

/-- Who owns the signal, and that no other signal has another owner. -/
theorem mem_owned_set (h : Treating noVars noLinear done root t rest s) {i t' : Nat} :
    t' ∈ owned (s.signalToCluster.set t (done.length - 1)) root' done.length i ↔
      if t' = t then root' (done.length - 1) = i
      else t' ∈ owned s.signalToCluster root' done.length i := by
  by_cases hEq : t' = t
  · subst hEq
    rw [if_pos rfl, mem_owned]
    constructor
    · rintro ⟨j, hj, -, hjRoot⟩
      obtain rfl := Option.some.inj (h.here.symm.trans hj)
      exact hjRoot
    · exact fun hRoot => ⟨done.length - 1, h.here, h.last_lt, hRoot⟩
  · rw [if_neg hEq, mem_owned, mem_owned, elsewhere hEq]

end Treating

-- ---------------------------------------------------------------------------
-- A signal that has not been seen before
-- ---------------------------------------------------------------------------

section NewSignal

variable {t : Nat} {rest : List Nat}

/-- A signal without a cluster is owned by none. -/
theorem Treating.notMem_owned (h : Treating noVars noLinear done root t rest s)
    (hNew : s.signalToCluster[t]? = some noLinear) (i : Nat) :
    t ∉ owned s.signalToCluster root done.length i := by
  intro hIn
  obtain ⟨j, hj, hjLess, -⟩ := mem_owned.mp hIn
  obtain rfl := Option.some.inj (hNew.symm.trans hj)
  exact absurd h.few (Nat.not_le_of_lt hjLess)

/-- Every cluster counts the signals it owns, and the last one those to be treated, when a new
signal is its own. -/
theorem Treating.counts_new (h : Treating noVars noLinear done root t rest s)
    (hNew : s.signalToCluster[t]? = some noLinear) {i : Nat} {cluster : Cluster}
    (hi : s.arena[i]? = some (some cluster)) :
    cluster.numSignals =
      (owned (s.signalToCluster.set t (done.length - 1)) root done.length i).card +
        if root (done.length - 1) = i then rest.length else 0 := by
  have hCount := h.counts i cluster hi
  rw [List.length_cons] at hCount
  rw [hCount]
  by_cases hLastRoot : root (done.length - 1) = i
  · have hInsert : owned (s.signalToCluster.set t (done.length - 1)) root done.length i =
        insert t (owned s.signalToCluster root done.length i) := by
      ext t'
      rw [h.mem_owned_set, Finset.mem_insert]
      by_cases hEq : t' = t
      · rw [if_pos hEq]
        exact iff_of_true hLastRoot (.inl hEq)
      · rw [if_neg hEq, or_iff_right hEq]
    rw [if_pos hLastRoot, if_pos hLastRoot, hInsert,
      Finset.card_insert_of_notMem (h.notMem_owned hNew i)]
    omega
  · have hSame : owned (s.signalToCluster.set t (done.length - 1)) root done.length i =
        owned s.signalToCluster root done.length i := by
      ext t'
      rw [h.mem_owned_set]
      by_cases hEq : t' = t
      · rw [if_pos hEq, hEq]
        exact iff_of_false hLastRoot (h.notMem_owned hNew i)
      · rw [if_neg hEq]
    rw [if_neg hLastRoot, if_neg hLastRoot, hSame]

/-- A signal that has not been seen before: its constraint is the last one. -/
theorem Treating.newSignal (h : Treating noVars noLinear done root t rest s)
    (hNew : s.signalToCluster[t]? = some noLinear) :
    Grouped noVars noLinear done root rest
      { s with signalToCluster := s.signalToCluster.set t (done.length - 1) } :=
  { h.toGrouped with
    vars := List.length_set.trans h.vars
    seen := fun _ _ hi => h.seen_set hi
    joined := fun _ _ _ hj hne hOccurs hPending =>
      h.joined_set id (fun hi hiLess => by
        obtain rfl := Option.some.inj (hNew.symm.trans hi)
        exact absurd h.few (Nat.not_le_of_lt hiLess)) hj hne hOccurs hPending
    counts := fun _ _ hi => h.counts_new hNew hi }

end NewSignal

-- ---------------------------------------------------------------------------
-- A signal that has been seen before
-- ---------------------------------------------------------------------------

/-- The signal has been seen in the cluster `C₁` at `a`, which joins the cluster `C₀` of the last
constraint, at `b`; if they are the same, nothing is left at `a` to be joined. -/
structure Joining (noVars noLinear : Nat) (done : List (Constraint Nat)) (root : Nat → Nat)
    (t : Nat) (rest : List Nat) (s : Clustering) (a b : Nat) (C₀ C₁ : Cluster) : Prop
    extends Treating noVars noLinear done root t rest s where
  lastRoot : root (done.length - 1) = b
  dest : s.arena[b]? = some (some C₀)
  earlier : ∃ i c, s.signalToCluster[t]? = some i ∧ done[i]? = some c ∧ c.Occurs t ∧ root i = a
  src : if a = b then C₁ = Cluster.empty else s.arena[a]? = some (some C₁)

/-- The cluster that two clusters with a common signal become. -/
def Cluster.joined (C₀ C₁ : Cluster) : Cluster :=
  ⟨C₀.constraints ++ C₁.constraints, C₀.numSignals + C₁.numSignals - 1⟩

namespace Joining

variable {t a b : Nat} {rest : List Nat} {C₀ C₁ : Cluster}

theorem root_a (h : Joining noVars noLinear done root t rest s a b C₀ C₁) :
    a < done.length ∧ root a = a := by
  obtain ⟨i, c, -, hc, -, rfl⟩ := h.earlier
  have hi := (List.getElem?_eq_some_iff.mp hc).1
  exact ⟨h.root_lt hi, h.root_root hi⟩

theorem root_b (h : Joining noVars noLinear done root t rest s a b C₀ C₁) :
    b < done.length ∧ root b = b := by
  rw [← h.lastRoot]
  exact ⟨h.root_lt h.last_lt, h.root_root h.last_lt⟩

/-- The arena afterwards: one cluster at `b`, and none at `a` unless they are the same. -/
theorem getElem?_arena (h : Joining noVars noLinear done root t rest s a b C₀ C₁) (k : Nat) :
    (mergedArena s.arena a b (C₀.joined C₁))[k]? =
      if k = b then some (some (C₀.joined C₁)) else if k = a then some none else s.arena[k]? :=
  getElem?_mergedArena (h.arena.symm ▸ h.root_a.1) (h.arena.symm ▸ h.root_b.1) _ k

/-- The constraints of the joined cluster are those of the two classes. -/
theorem members (h : Joining noVars noLinear done root t rest s a b C₀ C₁) {c : Constraint Nat}
    (hc : c ∈ (C₀.joined C₁).constraints) :
    ∃ j : Nat, done[j]? = some c ∧ linkRoot root a b j = b := by
  have hSrc := h.src
  rcases List.mem_append.mp hc with hIn | hIn
  · obtain ⟨j, hj, hjRoot⟩ := (h.placed b C₀ h.dest).2 c hIn
    exact ⟨j, hj, linkRoot_eq_target.mpr (.inr hjRoot)⟩
  · split at hSrc
    next =>
      rw [hSrc] at hIn
      exact absurd hIn List.not_mem_nil
    next =>
      obtain ⟨j, hj, hjRoot⟩ := (h.placed a C₁ hSrc).2 c hIn
      exact ⟨j, hj, linkRoot_eq_target.mpr (.inl hjRoot)⟩

/-- Joining two clusters loses no constraint. -/
theorem total_joined (h : Joining noVars noLinear done root t rest s a b C₀ C₁) :
    total (mergedArena s.arena a b (C₀.joined C₁)) = done := by
  have hAtB : clusterAt s.arena b = C₀ := clusterAt_eq h.dest
  have hAtA : C₁ = if a = b then Cluster.empty else clusterAt s.arena a := by
    have hSrc := h.src
    split at hSrc
    next hEq => rw [if_pos hEq, hSrc]
    next hNe => rw [if_neg hNe, clusterAt_eq hSrc, Option.getD_some]
  have hTotal := total_mergedArena (h.arena.symm ▸ h.root_a.1) (h.arena.symm ▸ h.root_b.1) hAtA
    (C₀.numSignals + C₁.numSignals - 1)
  rw [hAtB] at hTotal
  exact hTotal.trans h.total

/-- Every cluster lies at a root, the joined one at the root of both. -/
theorem placed_joined (h : Joining noVars noLinear done root t rest s a b C₀ C₁) {i : Nat}
    {cluster : Cluster}
    (hi : (mergedArena s.arena a b (C₀.joined C₁))[i]? = some (some cluster)) :
    linkRoot root a b i = i ∧ ∀ c ∈ cluster.constraints,
      ∃ j : Nat, done[j]? = some c ∧ linkRoot root a b j = i := by
  rw [h.getElem?_arena i] at hi
  split at hi
  next hib =>
    obtain rfl := Option.some.inj (Option.some.inj hi)
    subst hib
    exact ⟨linkRoot_eq_target.mpr (.inr h.root_b.2), fun _ hc => h.members hc⟩
  next hib =>
    split at hi
    next => cases Option.some.inj hi
    next hia =>
      obtain ⟨hFix, hAll⟩ := h.placed i cluster hi
      refine ⟨(linkRoot_eq_other hib).mpr ⟨hFix, hia⟩, ?_⟩
      intro c hc
      obtain ⟨j, hj, hjRoot⟩ := hAll c hc
      exact ⟨j, hj, (linkRoot_eq_other hib).mpr ⟨hjRoot, hia⟩⟩

/-- Every constraint lies in the cluster of its root. -/
theorem home_joined (h : Joining noVars noLinear done root t rest s a b C₀ C₁) {j : Nat}
    {c : Constraint Nat} (hj : done[j]? = some c) :
    ∃ cluster, (mergedArena s.arena a b (C₀.joined C₁))[linkRoot root a b j]? =
      some (some cluster) ∧ c ∈ cluster.constraints := by
  obtain ⟨cluster, hStored, hIn⟩ := h.home j c hj
  rw [h.getElem?_arena]
  by_cases hjb : root j = b
  · rw [hjb] at hStored
    obtain rfl := Option.some.inj (Option.some.inj (hStored.symm.trans h.dest))
    exact ⟨_, if_pos (linkRoot_eq_target.mpr (.inr hjb)), List.mem_append_left _ hIn⟩
  · by_cases hja : root j = a
    · have hab : a ≠ b := fun hEq => hjb (hja.trans hEq)
      have hSrc := h.src
      rw [if_neg hab] at hSrc
      rw [hja] at hStored
      obtain rfl := Option.some.inj (Option.some.inj (hStored.symm.trans hSrc))
      exact ⟨_, if_pos (linkRoot_of_eq hja), List.mem_append_right _ hIn⟩
    · rw [linkRoot_of_ne hja, if_neg hjb, if_neg hja]
      exact ⟨cluster, hStored, hIn⟩

/-- The constraints of the two classes are connected through the signal. -/
theorem connected_joined (h : Joining noVars noLinear done root t rest s a b C₀ C₁) {i j : Nat}
    {ci cj : Constraint Nat} (hi : done[i]? = some ci) (hj : done[j]? = some cj)
    (hSame : linkRoot root a b i = linkRoot root a b j) :
    Relation.EqvGen (Linked done) ci cj := by
  obtain ⟨c, hc, hOccurs⟩ := h.last
  obtain ⟨prev, c₁, -, hc₁, hOccurs₁, hPrev⟩ := h.earlier
  have hLink : Relation.EqvGen (Linked done) c₁ c :=
    .rel _ _ ⟨List.mem_of_getElem? hc₁, List.mem_of_getElem? hc, t, h.signal, hOccurs₁, hOccurs⟩
  -- every constraint of the joined class is connected with the last constraint
  have hLast : ∀ {k ck}, done[k]? = some ck → linkRoot root a b k = b →
      Relation.EqvGen (Linked done) ck c := by
    intro k ck hk hkb
    rcases linkRoot_eq_target.mp hkb with hka | hkb
    · exact (h.connected k prev ck c₁ hk hc₁ (hka.trans hPrev.symm)).trans _ _ _ hLink
    · exact h.connected k _ ck c hk hc (hkb.trans h.lastRoot.symm)
  by_cases hib : linkRoot root a b i = b
  · exact (hLast hi hib).trans _ _ _ ((hLast hj (hSame.symm.trans hib)).symm _ _)
  · have hjb : linkRoot root a b j ≠ b := fun hEq => hib (hSame.trans hEq)
    refine h.connected i j ci cj hi hj ?_
    exact ((linkRoot_eq_other hib).mp rfl).1.trans
      (hSame.trans ((linkRoot_eq_other hjb).mp rfl).1.symm)

/-- The joined class owns the signals of both. -/
theorem owned_dest (h : Joining noVars noLinear done root t rest s a b C₀ C₁) :
    owned (s.signalToCluster.set t (done.length - 1)) (linkRoot root a b) done.length b =
      owned s.signalToCluster root done.length b ∪ owned s.signalToCluster root done.length a := by
  obtain ⟨prev, c₁, hPrev, hc₁, -, hPrevRoot⟩ := h.earlier
  have hOld : t ∈ owned s.signalToCluster root done.length a :=
    mem_owned.mpr ⟨prev, hPrev, (List.getElem?_eq_some_iff.mp hc₁).1, hPrevRoot⟩
  ext t'
  rw [h.mem_owned_set, Finset.mem_union]
  by_cases hEq : t' = t
  · rw [if_pos hEq, hEq]
    exact iff_of_true (linkRoot_eq_target.mpr (.inr h.lastRoot)) (.inr hOld)
  · rw [if_neg hEq, mem_owned, mem_owned, mem_owned]
    simp only [linkRoot_eq_target]
    constructor
    · rintro ⟨j, hj, hjLess, hja | hjb⟩
      · exact .inr ⟨j, hj, hjLess, hja⟩
      · exact .inl ⟨j, hj, hjLess, hjb⟩
    · rintro (⟨j, hj, hjLess, hjb⟩ | ⟨j, hj, hjLess, hja⟩)
      · exact ⟨j, hj, hjLess, .inr hjb⟩
      · exact ⟨j, hj, hjLess, .inl hja⟩

/-- The other classes own what they owned. -/
theorem owned_other (h : Joining noVars noLinear done root t rest s a b C₀ C₁) {i : Nat}
    (hib : i ≠ b) (hia : i ≠ a) :
    owned (s.signalToCluster.set t (done.length - 1)) (linkRoot root a b) done.length i =
      owned s.signalToCluster root done.length i := by
  obtain ⟨prev, c₁, hPrev, -, -, hPrevRoot⟩ := h.earlier
  ext t'
  rw [h.mem_owned_set]
  by_cases hEq : t' = t
  · rw [if_pos hEq, hEq]
    refine iff_of_false ?_ ?_
    · rw [linkRoot_eq_target.mpr (.inr h.lastRoot)]
      exact Ne.symm hib
    · intro hIn
      obtain ⟨j, hj, -, hjRoot⟩ := mem_owned.mp hIn
      obtain rfl := Option.some.inj (hPrev.symm.trans hj)
      exact hia (hjRoot.symm.trans hPrevRoot)
  · rw [if_neg hEq, mem_owned, mem_owned]
    simp only [linkRoot_eq_other hib, and_iff_left hia]

/-- No signal is owned by two classes. -/
theorem disjoint_owned (hab : a ≠ b) :
    Disjoint (owned s.signalToCluster root done.length b)
      (owned s.signalToCluster root done.length a) := by
  rw [Finset.disjoint_left]
  intro t' hInB hInA
  obtain ⟨j, hj, -, hjRoot⟩ := mem_owned.mp hInB
  obtain ⟨j', hj', -, hjRoot'⟩ := mem_owned.mp hInA
  obtain rfl := Option.some.inj (hj.symm.trans hj')
  exact hab (hjRoot'.symm.trans hjRoot)

/-- Every cluster counts the signals it owns, and the last one those to be treated, when two are
joined. -/
theorem counts_joined (h : Joining noVars noLinear done root t rest s a b C₀ C₁) {i : Nat}
    {cluster : Cluster}
    (hi : (mergedArena s.arena a b (C₀.joined C₁))[i]? = some (some cluster)) :
    cluster.numSignals =
      (owned (s.signalToCluster.set t (done.length - 1)) (linkRoot root a b) done.length i).card +
        if linkRoot root a b (done.length - 1) = i then rest.length else 0 := by
  have hLast : linkRoot root a b (done.length - 1) = b :=
    linkRoot_eq_target.mpr (.inr h.lastRoot)
  have hCount₀ := h.counts b C₀ h.dest
  rw [if_pos h.lastRoot, List.length_cons] at hCount₀
  rw [h.getElem?_arena i] at hi
  rw [hLast]
  split at hi
  next hib =>
    obtain rfl := Option.some.inj (Option.some.inj hi)
    subst hib
    have hSrc := h.src
    rw [if_pos rfl, h.owned_dest]
    show C₀.numSignals + C₁.numSignals - 1 = _
    by_cases hab : a = i
    · rw [if_pos hab] at hSrc
      have hZero : C₁.numSignals = 0 := by
        rw [hSrc]
        rfl
      rw [hab, Finset.union_idempotent, hZero, hCount₀]
      omega
    · rw [if_neg hab] at hSrc
      have hCount₁ := h.counts a C₁ hSrc
      rw [h.lastRoot, if_neg (Ne.symm hab)] at hCount₁
      rw [Finset.card_union_of_disjoint (disjoint_owned hab), hCount₀, hCount₁]
      omega
  next hib =>
    split at hi
    next => cases Option.some.inj hi
    next hia =>
      have hCount := h.counts i cluster hi
      rw [h.lastRoot, if_neg (Ne.symm hib)] at hCount
      rw [h.owned_other hib hia, if_neg (Ne.symm hib), hCount]

/-- A signal that has been seen before: its cluster joins that of the last constraint. -/
theorem oldSignal (h : Joining noVars noLinear done root t rest s a b C₀ C₁) {path : ClusterPath}
    (hPath : path.length = s.clusterToCurrent.length) (hForest : Forest path (linkRoot root a b)) :
    Grouped noVars noLinear done (linkRoot root a b) rest
      { arena := mergedArena s.arena a b (C₀.joined C₁)
        clusterToCurrent := path
        signalToCluster := s.signalToCluster.set t (done.length - 1) } where
  arena := by
    rw [mergedArena, List.length_set, List.length_set, List.length_set, h.arena]
  path := hPath.trans h.path
  vars := List.length_set.trans h.vars
  few := h.few
  forest := hForest
  total := h.total_joined
  placed _ _ hi := h.placed_joined hi
  home _ _ hj := h.home_joined hj
  seen _ _ hi := h.seen_set hi
  joined _ _ _ hj hne hOccurs hPending := by
    refine h.joined_set linkRoot_congr ?_ hj hne hOccurs hPending
    intro i hi _
    obtain ⟨prev, c₁, hPrev, -, -, hPrevRoot⟩ := h.earlier
    obtain rfl := Option.some.inj (hPrev.symm.trans hi)
    rw [linkRoot_of_eq hPrevRoot, linkRoot_eq_target.mpr (.inr h.lastRoot)]
  connected _ _ _ _ hi hj hSame := h.connected_joined hi hj hSame
  counts _ _ hi := h.counts_joined hi

end Joining

/-- Treating a signal ends, and leaves one signal less to treat. -/
theorem clusterSignal_spec {t : Nat} {rest : List Nat}
    (h : Treating noVars noLinear done root t rest s) :
    ∃ s' root', Settles (fun fuel => clusterSignal fuel noLinear (done.length - 1) s t) s' ∧
      Grouped noVars noLinear done root' rest s' := by
  obtain ⟨prev, hPrev⟩ : ∃ prev, s.signalToCluster[t]? = some prev :=
    ⟨_, List.getElem?_eq_getElem (h.vars.symm ▸ h.bound)⟩
  rcases h.seen t prev hPrev with rfl | ⟨-, c₁, hc₁, hOccurs₁⟩
  · refine ⟨_, root, settles_of_eq fun fuel => ?_, h.newSignal hPrev⟩
    rw [clusterSignal, hPrev]
    exact if_neg (lt_irrefl _)
  · have hPrevLess : prev < done.length := (List.getElem?_eq_some_iff.mp hc₁).1
    obtain ⟨c, hc, -⟩ := h.last
    obtain ⟨C₀, hC₀, -⟩ := h.home _ c hc
    obtain ⟨Ca, hCa, -⟩ := h.home prev c₁ hc₁
    have hAtB : clusterAt s.arena (root (done.length - 1)) = C₀ := clusterAt_eq hC₀
    obtain ⟨C₁, hC₁, hSrc⟩ : ∃ C₁, C₁ = (if root prev = root (done.length - 1) then Cluster.empty
        else clusterAt s.arena (root prev)) ∧
        if root prev = root (done.length - 1) then C₁ = Cluster.empty
        else s.arena[root prev]? = some (some C₁) := by
      by_cases hSame : root prev = root (done.length - 1)
      · exact ⟨Cluster.empty, (if_pos hSame).symm, by rw [if_pos hSame]⟩
      · refine ⟨Ca, ?_, by rwa [if_neg hSame]⟩
        rw [if_neg hSame, clusterAt_eq hCa, Option.getD_some]
    have hJoining : Joining noVars noLinear done root t rest s (root prev)
        (root (done.length - 1)) C₀ C₁ :=
      { h with
        lastRoot := rfl
        dest := hC₀
        earlier := ⟨prev, c₁, hPrev, hc₁, hOccurs₁, rfl⟩
        src := hSrc }
    have hCount := h.counts _ C₀ hC₀
    rw [if_pos rfl, List.length_cons] at hCount
    have hPrevLess' : prev < s.clusterToCurrent.length := by rwa [h.path]
    have hLast' : done.length - 1 < s.clusterToCurrent.length := by
      rw [h.path]
      exact h.last_lt
    obtain ⟨path, hSettles, hForest, hPath⟩ := arenaMerge_spec h.forest
      (h.arena.trans h.path.symm) hPrevLess' hLast' hC₁ (by rw [hAtB, hCount]; omega)
    rw [hAtB] at hSettles
    refine ⟨_, _, (hSettles.bind (k := fun _ merged => some
      { arena := merged.1, clusterToCurrent := merged.2
        signalToCluster := s.signalToCluster.set t (done.length - 1) })
      (settles_of_eq fun _ => rfl)).congr fun fuel => ?_, hJoining.oldSignal hPath hForest⟩
    rw [clusterSignal, hPrev]
    exact if_pos (hPrevLess.trans_le h.few)

/-- Treating a constraint ends, with the constraint grouped. -/
theorem clusterConstraint_spec (hash : HashOrder) (h : Grouped noVars noLinear done root [] s)
    {c : Constraint Nat} (hFew : done.length < noLinear)
    (hVars : ∀ t, c.Occurs t → t < noVars) (hNonempty : ¬ c.isEmpty = true) :
    ∃ s' root', Settles (fun fuel => clusterConstraint hash noLinear fuel s c) s' ∧
      Grouped noVars noLinear (done ++ [c]) root' [] s' := by
  let signals := hash.arrange c.takeClonedSignals.toList
  have hMem : ∀ t, t ∈ signals ↔ t ≠ constantCoefficient ∧ c.Occurs t := by
    intro t
    rw [(hash.perm c.takeClonedSignals.toList).mem_iff, Std.ExtTreeSet.mem_toList]
    exact Constraint.mem_takeClonedSignals
  have hLast : (done ++ [c]).length - 1 = done.length := by simp
  have hc : (done ++ [c])[(done ++ [c]).length - 1]? = some c := by
    rw [hLast]
    exact List.getElem?_concat_length
  have hAll : ∀ t, t ≠ constantCoefficient → c.Occurs t → t ∈ signals :=
    fun t hne hOccurs => (hMem t).mpr ⟨hne, hOccurs⟩
  have hPush := h.push hFew hAll
  obtain ⟨s', hSettles, ⟨root', hGrouped⟩, -⟩ := exists_settles_foldlM
    (fun fuel => clusterSignal fuel noLinear done.length)
    (fun s' rest => (∃ root', Grouped noVars noLinear (done ++ [c]) root' rest s') ∧
      ∀ t ∈ rest, t ≠ constantCoefficient ∧ c.Occurs t) _ signals
    (by
      rintro s₁ t rest ⟨⟨root₁, hGrouped⟩, hRest⟩
      rw [List.forall_mem_cons] at hRest
      obtain ⟨s₂, root₂, hSettles, hGrouped₂⟩ := clusterSignal_spec
        { hGrouped with
          bound := hVars t hRest.1.2
          signal := hRest.1.1
          last := ⟨c, hc, hRest.1.2⟩ }
      rw [hLast] at hSettles
      exact ⟨s₂, hSettles, ⟨root₂, hGrouped₂⟩, hRest.2⟩)
    ⟨⟨_, hPush⟩, fun t ht => (hMem t).mp ht⟩
  refine ⟨s', root', hSettles.congr fun fuel => ?_, hGrouped⟩
  rw [clusterConstraint, if_neg hNonempty, h.arena]

end Steps

-- ---------------------------------------------------------------------------
-- The clusters
-- ---------------------------------------------------------------------------

/-- The constraints, but for empty ones, in groups without a common signal that cannot be
divided further. -/
structure Classes (linear : List (Constraint Nat)) (clusters : List Cluster) : Prop where
  perm : (clusters.flatMap Cluster.constraints).Perm (linear.filter fun c => !c.isEmpty)
  nonempty : ∀ cluster ∈ clusters, cluster.constraints ≠ []
  disjoint : clusters.Pairwise fun C C' =>
    ∀ c ∈ C.constraints, ∀ c' ∈ C'.constraints, ¬ Share c c'
  connected : ∀ cluster ∈ clusters, ∀ c ∈ cluster.constraints, ∀ c' ∈ cluster.constraints,
    Relation.EqvGen (Linked linear) c c'

/-- The classes, with their numbers of signals. -/
structure Partitions (linear : List (Constraint Nat)) (clusters : List Cluster) : Prop
    extends Classes linear clusters where
  numSignals : ∀ cluster ∈ clusters, cluster.numSignals =
    Set.ncard {t | t ≠ constantCoefficient ∧ ∃ c ∈ cluster.constraints, c.Occurs t}

theorem coe_flatMap_constraints (arena : ClusterArena) :
    (((arena.filterMap id).flatMap Cluster.constraints : List (Constraint Nat)) :
      Multiset (Constraint Nat)) = total arena := by
  induction arena with
  | nil => rfl
  | cons o arena ih =>
    rw [total, List.map_cons, List.sum_cons, ← total, ← ih]
    cases o with
    | none =>
      rw [List.filterMap_cons_none (rfl : id (none : Option Cluster) = none)]
      exact (zero_add _).symm
    | some cluster =>
      rw [List.filterMap_cons_some (rfl : id (some cluster) = some cluster), List.flatMap_cons,
        ← Multiset.coe_add]
      rfl

/-- At the end the clusters partition the constraints. -/
theorem Grouped.partitions {noVars noLinear : Nat} {done : List (Constraint Nat)}
    {root : Nat → Nat} {s : Clustering} (h : Grouped noVars noLinear done root [] s) :
    ((s.arena.filterMap id).flatMap Cluster.constraints).Perm done ∧
    (∀ cluster ∈ s.arena.filterMap id, cluster.constraints ≠ []) ∧
    ((s.arena.filterMap id).Pairwise fun C C' =>
      ∀ c ∈ C.constraints, ∀ c' ∈ C'.constraints, ¬ Share c c') ∧
    (∀ cluster ∈ s.arena.filterMap id, ∀ c ∈ cluster.constraints, ∀ c' ∈ cluster.constraints,
      Relation.EqvGen (Linked done) c c') ∧
    ∀ cluster ∈ s.arena.filterMap id, cluster.numSignals =
      Set.ncard {t | t ≠ constantCoefficient ∧ ∃ c ∈ cluster.constraints, c.Occurs t} := by
  have hAt : ∀ cluster ∈ s.arena.filterMap id, ∃ i : Nat, s.arena[i]? = some (some cluster) := by
    intro cluster hIn
    obtain ⟨o, ho, rfl⟩ := List.mem_filterMap.mp hIn
    exact List.mem_iff_getElem?.mp ho
  have hJoined : ∀ {t j c}, done[j]? = some c → t ≠ constantCoefficient → c.Occurs t →
      ∃ i, s.signalToCluster[t]? = some i ∧ i < done.length ∧ root j = root i :=
    fun hj hne hOccurs => h.joined _ _ _ hj hne hOccurs fun hIn => absurd hIn List.not_mem_nil
  refine ⟨?_, ?_, ?_, ?_, ?_⟩
  · rw [← Multiset.coe_eq_coe, coe_flatMap_constraints, h.total]
  · intro cluster hIn hNil
    obtain ⟨i, hi⟩ := hAt cluster hIn
    have hLess : i < done.length := h.arena ▸ (List.getElem?_eq_some_iff.mp hi).1
    obtain ⟨cluster', hStored, hHome⟩ := h.home i done[i] (List.getElem?_eq_getElem hLess)
    rw [(h.placed i cluster hi).1] at hStored
    obtain rfl := Option.some.inj (Option.some.inj (hi.symm.trans hStored))
    rw [hNil] at hHome
    exact absurd hHome List.not_mem_nil
  · rw [List.pairwise_filterMap, List.pairwise_iff_getElem]
    rintro i j hi hj hij C hC C' hC' c hc c' hc' ⟨t, hne, hOccurs, hOccurs'⟩
    have hCi : s.arena[i]? = some (some C) := (List.getElem?_eq_getElem hi).trans (congrArg some hC)
    have hCj : s.arena[j]? = some (some C') :=
      (List.getElem?_eq_getElem hj).trans (congrArg some hC')
    obtain ⟨k, hk, hkRoot⟩ := (h.placed i C hCi).2 c hc
    obtain ⟨k', hk', hkRoot'⟩ := (h.placed j C' hCj).2 c' hc'
    obtain ⟨l, hl, -, hlRoot⟩ := hJoined hk hne hOccurs
    obtain ⟨l', hl', -, hlRoot'⟩ := hJoined hk' hne hOccurs'
    obtain rfl := Option.some.inj (hl.symm.trans hl')
    omega
  · intro cluster hIn c hc c' hc'
    obtain ⟨i, hi⟩ := hAt cluster hIn
    obtain ⟨k, hk, hkRoot⟩ := (h.placed i cluster hi).2 c hc
    obtain ⟨k', hk', hkRoot'⟩ := (h.placed i cluster hi).2 c' hc'
    exact h.connected k k' c c' hk hk' (hkRoot.trans hkRoot'.symm)
  · intro cluster hIn
    obtain ⟨i, hi⟩ := hAt cluster hIn
    have hCount := h.counts i cluster hi
    rw [List.length_nil, ite_self, Nat.add_zero] at hCount
    rw [hCount, ← Set.ncard_coe_finset]
    congr 1
    ext t
    show t ∈ owned s.signalToCluster root done.length i ↔
      t ≠ constantCoefficient ∧ ∃ c ∈ cluster.constraints, c.Occurs t
    rw [mem_owned]
    constructor
    · rintro ⟨j, hj, hjLess, hjRoot⟩
      rcases h.seen t j hj with rfl | ⟨hne, c, hc, hOccurs⟩
      · have hFew := h.few
        omega
      · obtain ⟨cluster', hStored, hHome⟩ := h.home j c hc
        rw [hjRoot] at hStored
        obtain rfl := Option.some.inj (Option.some.inj (hi.symm.trans hStored))
        exact ⟨hne, c, hHome, hOccurs⟩
    · rintro ⟨hne, c, hc, hOccurs⟩
      obtain ⟨k, hk, hkRoot⟩ := (h.placed i cluster hi).2 c hc
      obtain ⟨l, hl, hlLess, hlRoot⟩ := hJoined hk hne hOccurs
      exact ⟨l, hl, hlLess, hlRoot.symm.trans hkRoot⟩

/-- The run of the loop over the constraints. -/
theorem exists_grouped (hash : HashOrder) {linear : List (Constraint Nat)} {noVars : Nat}
    (hVars : ∀ c ∈ linear, ∀ t, c.Occurs t → t < noVars) :
    ∃ s root, Grouped noVars linear.length (linear.filter fun c => !c.isEmpty) root [] s ∧
      Settles (fun fuel => buildClusters hash fuel linear noVars) (s.arena.filterMap id) := by
  obtain ⟨s, hSettles, done, root, hGrouped, hDone⟩ := exists_settles_foldlM
    (fun fuel => clusterConstraint hash linear.length fuel)
    (fun s rest => ∃ done root, Grouped noVars linear.length done root [] s ∧
      ∃ treated, linear = treated ++ rest ∧ done = treated.filter fun c => !c.isEmpty) _ linear
    (by
      rintro s c rest ⟨done, root, hGrouped, treated, hLinear, rfl⟩
      have hNext : linear = (treated ++ [c]) ++ rest := by
        rw [hLinear, List.append_assoc, List.singleton_append]
      by_cases hEmpty : c.isEmpty = true
      · refine ⟨s, settles_of_eq fun fuel => by rw [clusterConstraint, if_pos hEmpty], _, root,
          hGrouped, treated ++ [c], hNext, ?_⟩
        rw [List.filter_append]
        simp [hEmpty]
      · have hFew : (treated.filter fun c => !c.isEmpty).length < linear.length := by
          refine lt_of_le_of_lt (List.length_filter_le _ _) ?_
          rw [hLinear, List.length_append, List.length_cons]
          omega
        have hIn : c ∈ linear := by
          rw [hLinear]
          exact List.mem_append_right _ List.mem_cons_self
        obtain ⟨s', root', hSettles, hGrouped'⟩ :=
          clusterConstraint_spec hash hGrouped hFew (hVars c hIn) hEmpty
        refine ⟨s', hSettles, _, root', hGrouped', treated ++ [c], hNext, ?_⟩
        rw [List.filter_append]
        simp [hEmpty])
    ⟨[], id, grouped_init noVars linear.length, [], rfl, rfl⟩
  obtain ⟨treated, hLinear, rfl⟩ := hDone
  rw [List.append_nil] at hLinear
  subst hLinear
  obtain ⟨-, hNonempty, -⟩ := hGrouped.partitions
  have hFilter : ((s.arena.filterMap id).filter fun cluster => cluster.size ≠ 0) =
      s.arena.filterMap id := by
    refine List.filter_eq_self.mpr ?_
    intro cluster hIn
    rw [decide_eq_true_eq, Cluster.size, ne_eq, List.length_eq_zero_iff]
    exact hNonempty cluster hIn
  refine ⟨s, root, hGrouped, ?_⟩
  exact (hSettles.bind (k := fun _ s => some
    ((s.arena.filterMap id).filter fun cluster => cluster.size ≠ 0))
    (settles_of_eq fun _ => congrArg some hFilter)).congr fun _ => rfl

/-- At the end the clusters are the classes of linked constraints. -/
theorem Grouped.classes {linear : List (Constraint Nat)} {noVars noLinear : Nat}
    {root : Nat → Nat} {s : Clustering}
    (h : Grouped noVars noLinear (linear.filter fun c => !c.isEmpty) root [] s) :
    Classes linear (s.arena.filterMap id) := by
  obtain ⟨hPerm, hNonempty, hDisjoint, hConnected, -⟩ := h.partitions
  have hLinked : Linked (linear.filter fun c => !c.isEmpty) ≤ Linked linear :=
    fun _ _ ⟨hc, hc', hShare⟩ => ⟨List.mem_of_mem_filter hc, List.mem_of_mem_filter hc', hShare⟩
  exact ⟨hPerm, hNonempty, hDisjoint, fun cluster hIn c hc c' hc' =>
    Relation.EqvGen.mono hLinked _ _ (hConnected cluster hIn c hc c' hc')⟩

/-- The clustering ends with the classes of linked constraints. -/
theorem exists_classes (hash : HashOrder) {linear : List (Constraint Nat)} {noVars : Nat}
    (hVars : ∀ c ∈ linear, ∀ t, c.Occurs t → t < noVars) :
    ∃ clusters, Settles (fun fuel => buildClusters hash fuel linear noVars) clusters ∧
      Classes linear clusters := by
  obtain ⟨s, root, hGrouped, hSettles⟩ := exists_grouped hash hVars
  exact ⟨_, hSettles, hGrouped.classes⟩

/-- **Clusters.** If every signal is a variable, `build_clusters` ends, whatever order a hash set
is gone through, and partitions the constraints into the classes of the relation that sharing
a signal generates: nothing is lost or duplicated, no two clusters have a signal in common,
and the number of signals of every cluster is exact. -/
theorem buildClusters_spec (hash : HashOrder) {linear : List (Constraint Nat)} {noVars : Nat}
    (hVars : ∀ c ∈ linear, ∀ t, c.Occurs t → t < noVars) :
    ∃ clusters, Settles (fun fuel => buildClusters hash fuel linear noVars) clusters ∧
      Partitions linear clusters := by
  obtain ⟨s, root, hGrouped, hSettles⟩ := exists_grouped hash hVars
  obtain ⟨-, -, -, -, hSignals⟩ := hGrouped.partitions
  exact ⟨_, hSettles, hGrouped.classes, hSignals⟩

section Sample

/-- Five signals in three constraints. -/
theorem buildClusters_spec_sample :
    ∃ clusters, Settles (fun fuel => buildClusters ⟨List.reverse, List.reverse_perm⟩ fuel
        Sample.linear 5) clusters ∧ Partitions Sample.linear clusters :=
  buildClusters_spec ⟨List.reverse, List.reverse_perm⟩ Sample.linear_occurs

end Sample

end Ganc.Circom
