import Ganc.Circom.SimplificationUtilsSpec

/-!
# circom — what the simplification of linear constraints keeps

The coefficients of the substitutions are divided out with one inversion, and
the substitutions are applied to each other in the order in which they were
made or the reverse, so that none of them mentions a signal that is removed.
The result has the solutions of the constraints (`fullSimplification_exact`):
what is left of them is their projection to the signals that are not removed,
and each of its solutions extends in exactly one way.
-/

set_option linter.unusedSectionVars false

namespace Ganc.Circom

open Fuel Elimination

variable {p : Nat} [Fact p.Prime] {forbidden : SignalSet Nat} {U : Nat → Prop}
variable {n : BigNumbers}

-- ---------------------------------------------------------------------------
-- Dividing out the coefficients
-- ---------------------------------------------------------------------------

/-- What a normalised substitution keeps of the one it comes from. -/
structure Normalizes (p : Nat) (signal : Nat) (entry : Int × Substitution Nat)
    (s : Substitution Nat) : Prop where
  from_ : s.from_ = signal
  signals : ∀ t ∈ s.to_, t = constantCoefficient ∨ t ∈ entry.2.to_
  notMem : signal ∉ s.to_
  holds : ∀ w : Nat → ZMod p, w constantCoefficient = 1 → (s.Holds w ↔ SolvesAt w entry.1 entry.2)

/-- With the inverse of its coefficient, a substitution is normalized. -/
theorem normalizeSubstitution_spec (hZero : constantCoefficient ∈ forbidden) {signal : Nat}
    {entry : Int × Substitution Nat} (h : Eliminated p forbidden U signal entry) {inv : Int}
    (hInv : (inv : ZMod p) * entry.1 = 1) :
    ∃ s, Substitution.new signal (ArithmeticExpression.mul
        (ArithmeticExpression.hashmapIntoArith entry.2.to_) (.number inv) p) = some s ∧
      Normalizes p signal entry s := by
  have hDenotes := (ArithmeticExpression.denotes_hashmapIntoArith (R := ZMod p)
    entry.2.to_).mul_number_right ModularArithmetic.cast_field inv
  have hSelf : signal ∉ entry.2.to_ := h.from_ ▸ h.solves.notMem
  have hne : signal ≠ constantCoefficient := by
    rintro rfl
    exact h.free hZero
  obtain ⟨s, hNew, hFrom, hKeys, hEval⟩ := Substitution.new_eq_some (R := ZMod p) hDenotes.affine
    fun hOccurs => (hDenotes.occurs signal hOccurs).elim hne hSelf
  have hSignals : ∀ t ∈ s.to_, t = constantCoefficient ∨ t ∈ entry.2.to_ :=
    fun t ht => (hKeys t ht).elim .inl (hDenotes.occurs t)
  refine ⟨s, hNew, hFrom, hSignals, fun hMem => (hSignals signal hMem).elim hne hSelf, ?_⟩
  intro w hOne
  have hValue : s.to_.eval w = inv * entry.2.to_.eval w :=
    (hEval w hOne).trans (hDenotes.value w hOne)
  rw [Substitution.Holds, SolvesAt, hFrom, h.from_, hValue]
  constructor
  · intro hHolds
    rw [hHolds, ← mul_assoc, mul_comm (entry.1 : ZMod p), hInv, one_mul]
  · intro hSolves
    rw [← hSolves, ← mul_assoc, hInv, one_mul]

/-- All substitutions are normalized with one inversion. -/
theorem normalizeSubstitutions_spec (hLaw : n.Lawful) (hZero : constantCoefficient ∈ forbidden)
    {substitutions : SHNotNormalized} (h : ∀ (signal : Nat) (entry : Int × Substitution Nat),
      substitutions[signal]? = some entry → Eliminated p forbidden U signal entry) :
    ∃ tree, normalizeSubstitutions n substitutions p = some tree ∧
      (∀ signal, signal ∈ tree ↔ signal ∈ substitutions) ∧
      ∀ (signal : Nat) (s : Substitution Nat), tree[signal]? = some s →
        ∃ entry, substitutions[signal]? = some entry ∧ Normalizes p signal entry s := by
  let coeffs := substitutions.toList.map fun entry => entry.2.1
  have hEntry : ∀ entry ∈ substitutions.toList, Eliminated p forbidden U entry.1 entry.2 :=
    fun entry hIn => h entry.1 entry.2 (Store.mem_toList.mp hIn)
  have hUnits : ∀ v ∈ coeffs, (v : ZMod p) ≠ 0 := by
    intro v hv
    obtain ⟨entry, hIn, rfl⟩ := List.mem_map.mp hv
    exact (hEntry entry hIn).solves.coefficient
  obtain ⟨inverses, hInverses, hLength, hInverse⟩ := ModularArithmetic.multiInv_ok hLaw hUnits
  have hAt : ∀ entry ∈ substitutions.toList.zipIdx, ∃ inv, inverses[entry.2]? = some inv ∧
      (inv : ZMod p) * entry.1.2.1 = 1 := by
    rintro ⟨entry, i⟩ hIn
    have hStored := List.mem_zipIdx_iff_getElem?.mp hIn
    have hLess : i < coeffs.length := by
      rw [List.length_map]
      exact (List.getElem?_eq_some_iff.mp hStored).1
    have hOne := hInverse i hLess
    have hCoeff : coeffs.getD i 0 = entry.2.1 := by
      rw [List.getD_eq_getElem?_getD, List.getElem?_map, hStored]
      rfl
    have hFound : inverses[i]? = some (inverses.getD i 0) := by
      rw [List.getD_eq_getElem?_getD, List.getElem?_eq_getElem (by omega), Option.getD_some]
    exact ⟨_, hFound, hCoeff ▸ hOne⟩
  obtain ⟨tree, hOk, -, hBack, hAll⟩ := exists_foldlM
    (normalizeSubstitution inverses p)
    (fun tree rest => (∀ entry ∈ rest, entry ∈ substitutions.toList.zipIdx) ∧
      (∀ (signal : Nat) (s : Substitution Nat), tree[signal]? = some s →
        ∃ entry, substitutions[signal]? = some entry ∧ Normalizes p signal entry s) ∧
      ∀ signal ∈ substitutions, signal ∈ tree ∨ ∃ entry ∈ rest, entry.1.1 = signal)
    ∅ substitutions.toList.zipIdx
    (by
      rintro tree ⟨⟨signal, entry⟩, i⟩ rest ⟨hRest, hBack, hAll⟩
      rw [List.forall_mem_cons] at hRest
      obtain ⟨inv, hFound, hOne⟩ := hAt _ hRest.1
      have hStored : substitutions[signal]? = some entry :=
        Store.mem_toList.mp (List.mem_of_getElem? (List.mem_zipIdx_iff_getElem?.mp hRest.1))
      obtain ⟨s, hNew, hNorm⟩ := normalizeSubstitution_spec hZero (h signal entry hStored) hOne
      refine ⟨tree.insert signal s, ?_, hRest.2, ?_, ?_⟩
      · simp only [normalizeSubstitution, hFound, Option.bind_eq_bind, Option.bind_some, hNew]
        rfl
      · intro signal' s' hStored'
        rw [Store.get?_insert] at hStored'
        split at hStored'
        next hEq =>
          obtain rfl := Option.some.inj hStored'
          exact hEq ▸ ⟨entry, hStored, hNorm⟩
        next => exact hBack signal' s' hStored'
      · intro signal' hMem
        rcases hAll signal' hMem with hIn | ⟨entry', hIn, hEq⟩
        · exact .inl (Store.mem_insert.mpr (.inr hIn))
        · rcases List.mem_cons.mp hIn with rfl | hIn
          · exact .inl (Store.mem_insert.mpr (.inl hEq.symm))
          · exact .inr ⟨entry', hIn, hEq⟩)
    ⟨fun _ hIn => hIn, fun signal s hStored => by simp at hStored, (by
      intro signal hMem
      obtain ⟨entry, hStored⟩ := Store.mem_iff.mp hMem
      obtain ⟨i, hi⟩ := List.mem_iff_getElem?.mp (Store.mem_toList.mpr hStored :
        (signal, entry) ∈ substitutions.toList)
      exact .inr ⟨((signal, entry), i), List.mem_zipIdx_iff_getElem?.mpr hi, rfl⟩)⟩
  refine ⟨tree, ?_, ?_, hBack⟩
  · rw [normalizeSubstitutions]
    exact (congrArg (Option.bind · _) hInverses).trans hOk
  · intro signal
    constructor
    · intro hMem
      obtain ⟨s, hStored⟩ := Store.mem_iff.mp hMem
      obtain ⟨entry, hFound, -⟩ := hBack signal s hStored
      exact Store.mem_iff.mpr ⟨entry, hFound⟩
    · intro hMem
      refine (hAll signal hMem).resolve_right ?_
      rintro ⟨entry, hIn, -⟩
      exact absurd hIn List.not_mem_nil

-- ---------------------------------------------------------------------------
-- Removing the overlap
-- ---------------------------------------------------------------------------

/-- Substitutions in an order in which none mentions what comes after it. -/
structure Triangular (forbidden : SignalSet Nat) (U : Nat → Prop) (order : List Nat)
    (substitutions : SH) : Prop where
  keys : ∀ k, k ∈ substitutions ↔ k ∈ order
  nodup : order.Nodup
  free : ∀ k ∈ order, k ∉ forbidden ∧ U k
  from_ : ∀ (k : Nat) (s : Substitution Nat), substitutions[k]? = some s → s.from_ = k
  signals : ∀ (k : Nat) (s : Substitution Nat), substitutions[k]? = some s →
    ∀ t ∈ s.to_, t ≠ k ∧ (t = constantCoefficient ∨ U t)
  ordered : order.Pairwise fun earlier later =>
    ∀ s : Substitution Nat, substitutions[earlier]? = some s → later ∉ s.to_

/-- The substitutions treated so far mention no signal that is removed. -/
structure Apart (p : Nat) (U : Nat → Prop) (order : List Nat) (substitutions : SH)
    (done : List Nat) (noOverlap : SH) : Prop where
  keys : ∀ k, k ∈ noOverlap ↔ k ∈ done
  from_ : ∀ (k : Nat) (s : Substitution Nat), noOverlap[k]? = some s → s.from_ = k
  signals : ∀ (k : Nat) (s : Substitution Nat), noOverlap[k]? = some s →
    ∀ t ∈ s.to_, t ∉ order ∧ (t = constantCoefficient ∨ U t)
  holds : ∀ w : Nat → ZMod p, (∀ k ∈ done, ∀ s : Substitution Nat,
    substitutions[k]? = some s → s.Holds w) ↔
      ∀ (k : Nat) (s : Substitution Nat), noOverlap[k]? = some s → s.Holds w

theorem apart_empty (order : List Nat) (substitutions : SH) :
    Apart p U order substitutions [] ∅ :=
  ⟨fun _ => iff_of_false Std.ExtTreeMap.not_mem_empty List.not_mem_nil,
    fun _ _ hStored => by simp at hStored, fun _ _ hStored => by simp at hStored,
    fun _ => iff_of_true (fun _ hk => absurd hk List.not_mem_nil)
      fun _ _ hStored => by simp at hStored⟩

section ApplyAll

variable {applied : List (Substitution Nat)} {s : Substitution Nat} {field : Int}

theorem from_applyAll : (applied.foldl (fun s sub => s.applySubstitution sub field) s).from_ =
    s.from_ := by
  induction applied generalizing s with
  | nil => rfl
  | cons sub applied ih => exact ih

/-- The signals of the substitutions are gone, unless another brings one back. -/
theorem mem_applyAll {t : Nat}
    (h : t ∈ (applied.foldl (fun s sub => s.applySubstitution sub field) s).to_) :
    t = constantCoefficient ∨ (t ∈ s.to_ ∧ ∀ sub ∈ applied, t ≠ sub.from_) ∨
      ∃ sub ∈ applied, t ∈ sub.to_ := by
  induction applied generalizing s with
  | nil => exact .inr (.inl ⟨h, fun _ hIn => absurd hIn List.not_mem_nil⟩)
  | cons sub applied ih =>
    rcases ih h with hConstant | ⟨hOld, hOthers⟩ | ⟨sub', hIn, hTo⟩
    · exact .inl hConstant
    · rcases mem_rawSubstitution hOld with hConstant | ⟨hOld, hne⟩ | hTo
      · exact .inl hConstant
      · exact .inr (.inl ⟨hOld, List.forall_mem_cons.mpr ⟨hne, hOthers⟩⟩)
      · exact .inr (.inr ⟨sub, List.mem_cons_self, hTo⟩)
    · exact .inr (.inr ⟨sub', List.mem_cons_of_mem sub hIn, hTo⟩)

/-- Where the substitutions hold, applying them changes nothing. -/
theorem holds_applyAll {w : Nat → ZMod p} (h : ∀ sub ∈ applied, sub.Holds w) :
    (applied.foldl (fun s sub => s.applySubstitution sub p) s).Holds w ↔ s.Holds w := by
  induction applied generalizing s with
  | nil => exact Iff.rfl
  | cons sub applied ih =>
    rw [List.forall_mem_cons] at h
    refine (ih h.2).trans ?_
    show w s.from_ = (rawSubstitution s.to_ sub p).eval w ↔ w s.from_ = s.to_.eval w
    rw [h.1.eval_rawSubstitution ModularArithmetic.cast_field]

end ApplyAll

/-- One more substitution is freed of the signals of the others. -/
theorem Apart.removeOverlap (hash : HashOrder) {order done rest : List Nat}
    {substitutions noOverlap : SH} {k : Nat} {s : Substitution Nat}
    (hZero : constantCoefficient ∈ forbidden)
    (hTri : Triangular forbidden U order substitutions) (hOrder : order = done ++ k :: rest)
    (h : Apart p U order substitutions done noOverlap) (hStored : substitutions[k]? = some s) :
    Apart p U order substitutions (done ++ [k]) (Circom.removeOverlap hash noOverlap k s p) := by
  let applied := takeSubstitutionsToBeApplied hash noOverlap s
  have hApplied : ∀ sub, sub ∈ applied ↔ ∃ t ∈ s.to_, noOverlap[t]? = some sub := by
    intro sub
    show sub ∈ (hash.arrange s.to_.keys).filterMap (fun t => noOverlap[t]?) ↔ _
    rw [List.mem_filterMap]
    simp only [(hash.perm s.to_.keys).mem_iff, Std.ExtTreeMap.mem_keys]
  have hNotLater : ∀ t ∈ s.to_, t ∉ rest := by
    have hPairs := hTri.ordered
    rw [hOrder, List.pairwise_append, List.pairwise_cons] at hPairs
    exact fun t ht hIn => hPairs.2.1.1 t hIn s hStored ht
  have hFresh : noOverlap[k]? = none := by
    rw [← Store.notMem_iff, h.keys]
    have hNodup := hTri.nodup
    rw [hOrder, List.nodup_append] at hNodup
    exact fun hIn => hNodup.2.2 k hIn k List.mem_cons_self rfl
  have hNew : ∀ (k' : Nat) (s' : Substitution Nat),
      (Circom.removeOverlap hash noOverlap k s p)[k']? = some s' →
        (k' = k ∧ s' = applied.foldl (fun s sub => s.applySubstitution sub p) s) ∨
          noOverlap[k']? = some s' := by
    intro k' s' hFound
    rw [Circom.removeOverlap, Store.get?_insert] at hFound
    split at hFound
    next hEq => exact .inl ⟨hEq, (Option.some.inj hFound).symm⟩
    next => exact .inr hFound
  refine ⟨?_, ?_, ?_, ?_⟩
  · intro k'
    rw [Circom.removeOverlap, Store.mem_insert, h.keys, List.mem_append, List.mem_singleton,
      or_comm]
  · intro k' s' hFound
    rcases hNew k' s' hFound with ⟨rfl, rfl⟩ | hOld
    · rw [from_applyAll]
      exact hTri.from_ k' s hStored
    · exact h.from_ k' s' hOld
  · intro k' s' hFound t ht
    rcases hNew k' s' hFound with ⟨rfl, rfl⟩ | hOld
    · rcases mem_applyAll ht with rfl | ⟨hTo, hOthers⟩ | ⟨sub, hIn, hTo⟩
      · exact ⟨fun hIn => (hTri.free _ hIn).1 hZero, .inl rfl⟩
      · obtain ⟨hne, hSignal⟩ := hTri.signals k' s hStored t hTo
        refine ⟨?_, hSignal⟩
        rw [hOrder, List.mem_append, List.mem_cons]
        rintro (hDone | hSelf | hRest)
        · obtain ⟨sub, hSub⟩ := Store.mem_iff.mp ((h.keys t).mpr hDone)
          exact hOthers sub ((hApplied sub).mpr ⟨t, hTo, hSub⟩) (h.from_ t sub hSub).symm
        · exact hne hSelf
        · exact hNotLater t hTo hRest
      · obtain ⟨t', -, hSub⟩ := (hApplied sub).mp hIn
        exact h.signals t' sub hSub t hTo
    · exact h.signals k' s' hOld t ht
  · intro w
    -- what is applied holds, so nothing changes
    have hSame : (∀ (k' : Nat) (s' : Substitution Nat), noOverlap[k']? = some s' → s'.Holds w) →
        ((applied.foldl (fun s sub => s.applySubstitution sub p) s).Holds w ↔ s.Holds w) := by
      intro hAll
      refine holds_applyAll ?_
      intro sub hIn
      obtain ⟨t, -, hSub⟩ := (hApplied sub).mp hIn
      exact hAll t sub hSub
    simp only [List.mem_append, List.mem_singleton]
    constructor
    · intro hDone k' s' hFound
      have hOthers := (h.holds w).mp fun k'' hIn => hDone k'' (.inl hIn)
      rcases hNew k' s' hFound with ⟨rfl, rfl⟩ | hOld
      · exact (hSame hOthers).mpr (hDone k' (.inr rfl) s hStored)
      · exact hOthers k' s' hOld
    · intro hAll
      have hOthers : ∀ (k' : Nat) (s' : Substitution Nat), noOverlap[k']? = some s' →
          s'.Holds w := by
        intro k' s' hOld
        refine hAll k' s' ?_
        rw [Circom.removeOverlap, Store.get?_insert_ne, hOld]
        rintro rfl
        rw [hFresh] at hOld
        cases hOld
      rintro k' (hIn | rfl) s' hFound
      · exact (h.holds w).mpr hOthers k' hIn s' hFound
      · obtain rfl := Option.some.inj (hStored.symm.trans hFound)
        exact (hSame hOthers).mp (hAll k' _ Std.ExtTreeMap.getElem?_insert_self)

/-- The first heuristic removes the overlap in the order of the signals. -/
theorem createNonoverlappingSubstitutions_spec (p : Nat) [Fact p.Prime] (hash : HashOrder)
    (hZero : constantCoefficient ∈ forbidden)
    {substitutions : SH} (hTri : Triangular forbidden U substitutions.keys substitutions) :
    Apart p U substitutions.keys substitutions substitutions.keys
      (createNonoverlappingSubstitutions hash substitutions p) := by
  have hKeys : substitutions.toList.map Prod.fst = substitutions.keys :=
    Std.ExtTreeMap.map_fst_toList_eq_keys
  have hLoop : ∀ (items : List (Nat × Substitution Nat)) (done : List Nat) (noOverlap : SH),
      substitutions.keys = done ++ items.map Prod.fst →
      (∀ item ∈ items, substitutions[item.1]? = some item.2) →
      Apart p U substitutions.keys substitutions done noOverlap →
      Apart p U substitutions.keys substitutions substitutions.keys
        (items.foldl (fun noOverlap entry => removeOverlap hash noOverlap entry.1 entry.2 p)
          noOverlap) := by
    intro items
    induction items with
    | nil =>
      intro done noOverlap hOrder _ hApart
      rw [List.map_nil, List.append_nil] at hOrder
      rw [List.foldl_nil]
      exact hOrder ▸ hApart
    | cons item items ih =>
      intro done noOverlap hOrder hItems hApart
      rw [List.forall_mem_cons] at hItems
      refine ih (done ++ [item.1]) _ ?_ hItems.2
        (hApart.removeOverlap hash hZero hTri hOrder hItems.1)
      rw [hOrder, List.map_cons, List.append_assoc, List.singleton_append]
  exact hLoop substitutions.toList [] ∅ (by rw [hKeys, List.nil_append])
    (fun item hIn => Store.mem_toList.mp hIn) (apart_empty _ _)

/-- The second heuristic removes it from the last eliminated signal to the first. -/
theorem createNonoverlappingSubstitutions4_spec (p : Nat) [Fact p.Prime] (hash : HashOrder)
    (hZero : constantCoefficient ∈ forbidden)
    {signals : SignalDefinition4} {substitutions : SH}
    (hTri : Triangular forbidden U signals.orderSignals substitutions) :
    ∃ noOverlap, createNonoverlappingSubstitutions4 hash substitutions signals p =
        some noOverlap ∧
      Apart p U signals.orderSignals substitutions signals.orderSignals noOverlap := by
  obtain ⟨⟨possible, noOverlap⟩, hOk, done, hOrder, hApart, -⟩ := exists_foldlM
    (removeOverlap4 hash p)
    (fun maps rest => ∃ done, signals.orderSignals = done ++ rest ∧
      Apart p U signals.orderSignals substitutions done maps.2 ∧
      ∀ k ∈ rest, maps.1[k]? = substitutions[k]?)
    (substitutions, ∅) signals.orderSignals
    (by
      rintro ⟨possible, noOverlap⟩ k rest ⟨done, hOrder, hApart, hSame⟩
      rw [List.forall_mem_cons] at hSame
      have hIn : k ∈ signals.orderSignals := by
        rw [hOrder]
        exact List.mem_append_right _ List.mem_cons_self
      have hNotLater : k ∉ rest := by
        have hNodup := hTri.nodup
        rw [hOrder, List.nodup_append, List.nodup_cons] at hNodup
        exact hNodup.2.1.1
      obtain ⟨s, hStored⟩ := Store.mem_iff.mp ((hTri.keys k).mpr hIn)
      refine ⟨(possible.erase k, removeOverlap hash noOverlap k s p), ?_, done ++ [k], ?_,
        hApart.removeOverlap hash hZero hTri hOrder hStored, ?_⟩
      · simp only [removeOverlap4, hSame.1, hStored, Option.bind_eq_bind, Option.bind_some]
        rfl
      · rw [hOrder, List.append_assoc, List.singleton_append]
      · intro t ht
        refine (Store.get?_erase_ne ?_).trans (hSame.2 t ht)
        rintro rfl
        exact hNotLater ht)
    ⟨[], rfl, apart_empty _ _, fun _ _ => rfl⟩
  refine ⟨noOverlap, ?_, ?_⟩
  · rw [createNonoverlappingSubstitutions4]
    exact congrArg (Option.bind · _) hOk
  · rw [List.append_nil] at hOrder
    exact hOrder ▸ hApart

-- ---------------------------------------------------------------------------
-- The result
-- ---------------------------------------------------------------------------

/-- The assignments that solve the constraints. -/
def solutions (p : Nat) (constraints : List (Constraint Nat)) : Set (Nat → ZMod p) :=
  {w | w constantCoefficient = 1 ∧ ∀ c ∈ constraints, c.Holds w}

/-- The signals the substitutions are for. -/
def replaced (substitutions : List (Substitution Nat)) : Set Nat :=
  {k | ∃ s ∈ substitutions, s.from_ = k}

/-- Substitutions for different signals that mention none of these. -/
structure Separate (substitutions : List (Substitution Nat)) : Prop where
  nodup : (substitutions.map Substitution.from_).Nodup
  apart : ∀ s ∈ substitutions, ∀ t ∈ s.to_, t ∉ replaced substitutions

/-- Substitutions apart from each other eliminate their signals. -/
theorem Separate.eliminates {S S' : Set (Nat → ZMod p)} {substitutions : List (Substitution Nat)}
    (h : Separate substitutions)
    (hS : ∀ w, w ∈ S ↔ w ∈ S' ∧ ∀ s ∈ substitutions, s.Holds w)
    (hFree : ∀ ⦃v w : Nat → ZMod p⦄, Set.EqOn v w (replaced substitutions)ᶜ → v ∈ S' → w ∈ S') :
    Eliminates S S' (replaced substitutions) := by
  -- the substitution for a signal, and its value
  let definition (k : Nat) := substitutions.find? fun s => s.from_ = k
  have hFound : ∀ s ∈ substitutions, definition s.from_ = some s := by
    intro s hs
    cases hFind : definition s.from_ with
    | none => exact absurd (decide_eq_true rfl) (List.find?_eq_none.mp hFind s hs)
    | some s' =>
      have hSame : s'.from_ = s.from_ := by simpa using List.find?_some hFind
      rw [List.inj_on_of_nodup_map h.nodup (List.mem_of_find?_eq_some hFind) hs hSame]
  refine eliminates_of_definitions
    (g := fun k w => (definition k).elim 0 fun s => s.to_.eval w) ?_ hFree ?_
  · intro w
    rw [hS w]
    refine and_congr_right fun _ => ⟨?_, ?_⟩
    · rintro hAll k ⟨s, hs, rfl⟩
      rw [hFound s hs]
      exact hAll s hs
    · intro hAll s hs
      have hValue := hAll s.from_ ⟨s, hs, rfl⟩
      rw [hFound s hs] at hValue
      exact hValue
  · rintro k ⟨s, hs, rfl⟩ v w hOff
    rw [hFound s hs]
    exact Coefficients.eval_congr fun t ht => hOff (h.apart s hs t ht)

/-- What the simplification makes of linear constraints. -/
structure Simplifies (p : Nat) (forbidden : SignalSet Nat) (constraints : List (Constraint Nat))
    (result : Simplified) : Prop where
  removed : result.removed = result.substitutions.map Substitution.from_
  separate : Separate result.substitutions
  /-- Only signals of the constraints are removed, and no forbidden ones. -/
  free : ∀ k ∈ result.removed, k ∉ forbidden ∧ ∃ c ∈ constraints, k ∈ c.c
  signals : ∀ s ∈ result.substitutions, ∀ t ∈ s.to_,
    t = constantCoefficient ∨ ∃ c ∈ constraints, t ∈ c.c
  /-- Only forbidden signals are left. -/
  left : ∀ c ∈ result.constraints, SetAside p forbidden (fun t => ∃ c ∈ constraints, t ∈ c.c) c
  holds : ∀ w : Nat → ZMod p, w constantCoefficient = 1 →
    ((∀ c ∈ constraints, c.Holds w) ↔
      (∀ c ∈ result.constraints, c.Holds w) ∧ ∀ s ∈ result.substitutions, s.Holds w)

/-- A simplification eliminates the signals that it substitutes. -/
theorem Simplifies.eliminates {constraints : List (Constraint Nat)} {result : Simplified}
    (h : Simplifies p forbidden constraints result) (hZero : constantCoefficient ∈ forbidden) :
    Eliminates (solutions p constraints) (solutions p result.constraints)
      {k | k ∈ result.removed} := by
  have hRemoved : replaced result.substitutions = {k | k ∈ result.removed} := by
    ext k
    rw [h.removed]
    simp [replaced]
  have hKept : ∀ t ∈ forbidden, t ∉ replaced result.substitutions := by
    intro t ht hIn
    rw [hRemoved] at hIn
    exact (h.free t hIn).1 ht
  rw [← hRemoved]
  refine h.separate.eliminates ?_ ?_
  · intro w
    show w constantCoefficient = 1 ∧ _ ↔ (w constantCoefficient = 1 ∧ _) ∧ _
    rw [and_assoc]
    exact and_congr_right fun hOne => h.holds w hOne
  · rintro v w hOff ⟨hOne, hAll⟩
    refine ⟨(hOff (hKept _ hZero)).symm.trans hOne, ?_⟩
    intro c hc
    have hSame : ∀ t, c.Occurs t → v t = w t := by
      intro t ht
      have hAside := h.left c hc
      exact hOff (hKept t (hAside.fixed t (hAside.linear.occurs.mp ht)))
    exact (Constraint.holds_congr hSame).mp (hAll c hc)

/-- The entries of a map of substitutions that do not overlap, in any order. -/
theorem simplifies_of_apart {constraints lconst : List (Constraint Nat)} {order : List Nat}
    {substitutions : SHNotNormalized} {tree noOverlap : SH}
    {entries : List (Nat × Substitution Nat)}
    (hU : ∀ t, U t → ∃ c ∈ constraints, t ∈ c.c)
    (hLeft : ∀ c ∈ lconst, SetAside p forbidden U c)
    (hSays : ∀ w : Nat → ZMod p, w constantCoefficient = 1 →
      (Says w substitutions lconst ↔ ∀ c ∈ constraints, c.Holds w))
    (hKeys : ∀ k, k ∈ tree ↔ k ∈ substitutions)
    (hNormal : ∀ (k : Nat) (s : Substitution Nat), tree[k]? = some s →
      ∃ entry, substitutions[k]? = some entry ∧ Normalizes p k entry s)
    (hTri : Triangular forbidden U order tree) (hApart : Apart p U order tree order noOverlap)
    (hPerm : entries.Perm noOverlap.toList) :
    Simplifies p forbidden constraints
      ⟨lconst, entries.map Prod.snd, entries.map Prod.fst⟩ := by
  have hMem : ∀ (k : Nat) (s : Substitution Nat), (k, s) ∈ entries ↔ noOverlap[k]? = some s :=
    fun k s => hPerm.mem_iff.trans Store.mem_toList
  have hFrom : ∀ entry ∈ entries, entry.2.from_ = entry.1 :=
    fun entry hIn => hApart.from_ entry.1 entry.2 ((hMem entry.1 entry.2).mp hIn)
  have hOrder : ∀ entry ∈ entries, entry.1 ∈ order :=
    fun entry hIn => (hApart.keys entry.1).mp
      (Store.mem_iff.mpr ⟨entry.2, (hMem entry.1 entry.2).mp hIn⟩)
  have hRemoved : entries.map Prod.fst = (entries.map Prod.snd).map Substitution.from_ := by
    rw [List.map_map]
    exact List.map_congr_left fun entry hIn => (hFrom entry hIn).symm
  have hReplaced : ∀ k ∈ replaced (entries.map Prod.snd), k ∈ order := by
    rintro k ⟨s, hs, rfl⟩
    obtain ⟨entry, hIn, rfl⟩ := List.mem_map.mp hs
    rw [hFrom entry hIn]
    exact hOrder entry hIn
  have hApartSignals : ∀ s ∈ entries.map Prod.snd, ∀ t ∈ s.to_,
      t ∉ order ∧ (t = constantCoefficient ∨ U t) := by
    intro s hs
    obtain ⟨entry, hIn, rfl⟩ := List.mem_map.mp hs
    exact hApart.signals entry.1 entry.2 ((hMem entry.1 entry.2).mp hIn)
  refine ⟨hRemoved, ⟨?_, ?_⟩, ?_, ?_, ?_, ?_⟩
  · rw [← hRemoved, (hPerm.map Prod.fst).nodup_iff]
    exact Store.nodup_keys_toList noOverlap
  · intro s hs t ht hIn
    exact (hApartSignals s hs t ht).1 (hReplaced t hIn)
  · intro k hk
    obtain ⟨entry, hIn, rfl⟩ := List.mem_map.mp hk
    obtain ⟨hFree, hKnown⟩ := hTri.free entry.1 (hOrder entry hIn)
    exact ⟨hFree, hU entry.1 hKnown⟩
  · intro s hs t ht
    exact (hApartSignals s hs t ht).2.imp_right (hU t)
  · intro c hc
    have hAside := hLeft c hc
    exact ⟨⟨hAside.linear, fun t ht => (hAside.signals t ht).imp_right (hU t)⟩, hAside.fixed⟩
  · intro w hOne
    have hTree : (∀ (k : Nat) (entry : Int × Substitution Nat),
        substitutions[k]? = some entry → SolvesAt w entry.1 entry.2) ↔
          ∀ s ∈ entries.map Prod.snd, s.Holds w := by
      have hHolds : (∀ s ∈ entries.map Prod.snd, s.Holds w) ↔
          ∀ k ∈ order, ∀ s : Substitution Nat, tree[k]? = some s → s.Holds w := by
        rw [hApart.holds w]
        constructor
        · exact fun hAll k s hStored => hAll s (List.mem_map.mpr ⟨_, (hMem k s).mpr hStored, rfl⟩)
        · intro hAll s hs
          obtain ⟨entry, hIn, rfl⟩ := List.mem_map.mp hs
          exact hAll entry.1 entry.2 ((hMem entry.1 entry.2).mp hIn)
      rw [hHolds]
      constructor
      · intro hAll k _ s hStored
        obtain ⟨entry, hEntry, hNorm⟩ := hNormal k s hStored
        exact (hNorm.holds w hOne).mpr (hAll k entry hEntry)
      · intro hAll k entry hEntry
        have hIn := (hKeys k).mpr (Store.mem_iff.mpr ⟨entry, hEntry⟩)
        obtain ⟨s, hStored⟩ := Store.mem_iff.mp hIn
        obtain ⟨entry', hEntry', hNorm⟩ := hNormal k s hStored
        obtain rfl := Option.some.inj (hEntry.symm.trans hEntry')
        exact (hNorm.holds w hOne).mp (hAll k ((hTri.keys k).mp hIn) s hStored)
    rw [← hSays w hOne, Says, hTree, and_comm]

/-- The normalized substitutions are still in the order of elimination. -/
theorem Normalizes.from_eliminated {tree : SH} {substitutions : SHNotNormalized}
    (hEntries : ∀ (signal : Nat) (entry : Int × Substitution Nat),
      substitutions[signal]? = some entry → Eliminated p forbidden U signal entry)
    (hNormal : ∀ (k : Nat) (s : Substitution Nat), tree[k]? = some s →
      ∃ entry, substitutions[k]? = some entry ∧ Normalizes p k entry s)
    {order : List Nat} (hKeys : ∀ k, k ∈ tree ↔ k ∈ order) (hNodup : order.Nodup)
    (hOrdered : order.Pairwise fun earlier later =>
      ∀ s : Substitution Nat, tree[earlier]? = some s → later ∉ s.to_) :
    Triangular forbidden U order tree := by
  refine ⟨hKeys, hNodup, ?_, ?_, ?_, hOrdered⟩
  · intro k hk
    obtain ⟨s, hStored⟩ := Store.mem_iff.mp ((hKeys k).mpr hk)
    obtain ⟨entry, hEntry, -⟩ := hNormal k s hStored
    exact ⟨(hEntries k entry hEntry).free, (hEntries k entry hEntry).known⟩
  · intro k s hStored
    obtain ⟨entry, -, hNorm⟩ := hNormal k s hStored
    exact hNorm.from_
  · intro k s hStored t ht
    obtain ⟨entry, hEntry, hNorm⟩ := hNormal k s hStored
    refine ⟨?_, ?_⟩
    · rintro rfl
      exact hNorm.notMem ht
    · exact (hNorm.signals t ht).elim .inl ((hEntries k entry hEntry).signals t)

/-- It ends, with constraints and substitutions that say together what the constraints said. -/
theorem exists_simplifies (hLaw : n.Lawful) (hash : HashOrder) (config : Config)
    (hField : config.field = p) (hZero : constantCoefficient ∈ config.forbidden)
    (hLinear : ∀ c ∈ config.constraints, c.Linear p) :
    ∃ result, Settles (fun fuel => fullSimplification n hash fuel config) result ∧
      Simplifies p config.forbidden config.constraints result := by
  let U : Nat → Prop := fun t => ∃ c ∈ config.constraints, t ∈ c.c
  by_cases hHeuristic : applyLessOcurrences config = true
  · obtain ⟨s, hSettles, hKeeps, hSays⟩ := substitutionProcess4_spec hash hZero hLinear
    obtain ⟨tree, hTree, hKeys, hNormal⟩ := normalizeSubstitutions_spec hLaw hZero hKeeps.entries
    have hTri : Triangular config.forbidden U s.signals.orderSignals tree := by
      refine Normalizes.from_eliminated hKeeps.entries hNormal
        (fun k => (hKeys k).trans (hKeeps.stored k)) hKeeps.nodup ?_
      refine hKeeps.ordered.imp_of_mem ?_
      intro newer older _ hOlder hOrdered r hStored hMem
      obtain ⟨entry, hEntry, hNorm⟩ := hNormal newer r hStored
      rcases hNorm.signals older hMem with rfl | hTo
      · exact hKeeps.free hOlder hZero
      · exact hOrdered entry hEntry hTo
    obtain ⟨noOverlap, hNoOverlap, hApart⟩ :=
      createNonoverlappingSubstitutions4_spec p hash hZero hTri
    refine ⟨_, hSettles.bind (k := fun _ s => (normalizeSubstitutions n s.substitutions p).bind
      fun tree => (createNonoverlappingSubstitutions4 hash tree s.signals p).bind fun noOverlap =>
        some (Simplified.mk s.lconst ((hash.arrange noOverlap.toList).map Prod.snd)
          ((hash.arrange noOverlap.toList).map Prod.fst))) (c := ⟨s.lconst, _, _⟩)
      (settles_of_eq fun _ => by rw [hTree, Option.bind_some, hNoOverlap, Option.bind_some])
      |>.congr ?_, simplifies_of_apart (fun _ hU => hU) hKeeps.lconst hSays hKeys
        hNormal hTri hApart (hash.perm _)⟩
    intro fuel
    rw [fullSimplification, hField, if_pos hHeuristic]
    simp only [Option.bind_eq_bind, Option.bind_some]
    rfl
  · have hInit : Keeps3 p config.forbidden U ⟨⟨∅, config.forbidden⟩, ∅, []⟩ :=
      ⟨rfl, fun _ _ hStored => by simp at hStored, fun _ _ hStored => by simp at hStored,
        fun _ hc => absurd hc List.not_mem_nil⟩
    have hGiven : ∀ c ∈ config.constraints, Given p U c :=
      fun c hc => ⟨hLinear c hc, fun t ht => .inr ⟨c, hc, ht⟩⟩
    obtain ⟨s, hSettles, hKeeps, hSays⟩ := substitutionProcess3_spec hZero hGiven hInit
    have hSays' : ∀ w : Nat → ZMod p, w constantCoefficient = 1 →
        (Says w s.substitutions s.lconst ↔ ∀ c ∈ config.constraints, c.Holds w) := by
      intro w hOne
      rw [hSays w hOne]
      simp [Says]
    obtain ⟨tree, hTree, hKeys, hNormal⟩ := normalizeSubstitutions_spec hLaw hZero hKeeps.entries
    have hTri : Triangular config.forbidden U tree.keys tree := by
      refine Normalizes.from_eliminated hKeeps.entries hNormal
        (fun k => Std.ExtTreeMap.mem_keys.symm) Std.ExtTreeMap.nodup_keys ?_
      refine (Std.ExtTreeMap.ordered_keys (t := tree)).imp_of_mem ?_
      intro earlier later _ hLater hLess r hStored hMem
      have hLess' : earlier < later := Nat.compare_eq_lt.mp hLess
      obtain ⟨entry, hEntry, hNorm⟩ := hNormal earlier r hStored
      obtain ⟨entry', hEntry'⟩ :=
        Store.mem_iff.mp ((hKeys later).mp (Std.ExtTreeMap.mem_keys.mp hLater))
      have hFree := (hKeeps.entries later entry' hEntry').free
      rcases hNorm.signals later hMem with rfl | hTo
      · exact hFree hZero
      · exact absurd (hKeeps.descending earlier entry hEntry later hTo hFree) (by omega)
    have hApart := createNonoverlappingSubstitutions_spec p hash hZero hTri
    refine ⟨_, hSettles.bind (k := fun _ s => (normalizeSubstitutions n s.substitutions p).bind
      fun tree => some (Simplified.mk s.lconst
        ((hash.arrange (createNonoverlappingSubstitutions hash tree p).toList).map Prod.snd)
        ((hash.arrange (createNonoverlappingSubstitutions hash tree p).toList).map Prod.fst)))
      (c := ⟨s.lconst, _, _⟩) (settles_of_eq fun _ => by rw [hTree, Option.bind_some])
      |>.congr ?_, simplifies_of_apart (fun _ hU => hU) hKeeps.lconst hSays' hKeys
        hNormal hTri hApart (hash.perm _)⟩
    intro fuel
    rw [fullSimplification, hField, if_neg hHeuristic]
    simp only [Option.bind_eq_bind, Option.bind_some]
    rfl

/-- **The simplification is exact.** Over a prime field, with the constant among the forbidden
signals, it ends for every list of linear constraints, under both heuristics and whatever order
a hash map is gone through. No forbidden signal is removed; no substitution mentions a removed
signal; what is left mentions forbidden signals only; and it is the projection of the
constraints: each of its solutions extends to the removed signals in exactly one way. -/
theorem fullSimplification_exact (hLaw : n.Lawful) (hash : HashOrder) (config : Config)
    (hField : config.field = p) (hZero : constantCoefficient ∈ config.forbidden)
    (hLinear : ∀ c ∈ config.constraints, c.Linear p) :
    ∃ result, Settles (fun fuel => fullSimplification n hash fuel config) result ∧
      Simplifies p config.forbidden config.constraints result ∧
      Eliminates (solutions p config.constraints) (solutions p result.constraints)
        {k | k ∈ result.removed} := by
  obtain ⟨result, hSettles, hSimplifies⟩ := exists_simplifies hLaw hash config hField hZero hLinear
  exact ⟨result, hSettles, hSimplifies, hSimplifies.eliminates hZero⟩

section Sample

open Sample

theorem fullSimplification_exact_sample :
    let config : Config := ⟨(13 : Nat), Sample.linear, .ofList [0, 1] compare, false⟩
    ∃ result, Settles (fun fuel =>
        fullSimplification bigNumbers ⟨List.reverse, List.reverse_perm⟩ fuel config) result ∧
      Simplifies 13 config.forbidden config.constraints result ∧
      Eliminates (solutions 13 config.constraints) (solutions 13 result.constraints)
        {k | k ∈ result.removed} :=
  fullSimplification_exact lawful ⟨List.reverse, List.reverse_perm⟩
    ⟨(13 : Nat), Sample.linear, .ofList [0, 1] compare, false⟩ rfl (by decide +kernel)
    Sample.linear_linear

end Sample

end Ganc.Circom
