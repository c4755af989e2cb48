import Mathlib.Data.List.Forall2

/-!
# Trees that are gone through from the root

A tree is given by what is below a node: the edges, and where an edge leads.
`preorder` visits a node and then, edge by edge, what is below it; it takes
fuel, since nothing says that the tree ends. `subtrees` lists the nodes in that
order.

* `preorder_eq` — the walk is a fold over the list;
* `exists_subtrees` — if every edge leads to a lower rank the walk ends, and a
  property of all subtrees follows from one level.
-/

namespace Preorder

variable {T E σ : Type} (edges : T → Option (List E)) (descend : T → E → Option T)

/-- Visits the root, and then what is below it. -/
def preorder (visit : σ → T → Option σ) : Nat → σ → T → Option σ
  | 0, _, _ => none
  | fuel + 1, s, t => do
    let s ← visit s t
    (← edges t).foldlM (fun s e => do preorder visit fuel s (← descend t e)) s

/-- All nodes of a tree, the root first. -/
def subtrees : Nat → T → Option (List T)
  | 0, _ => none
  | fuel + 1, t => do
    let below ← (← edges t).mapM fun e => do subtrees fuel (← descend t e)
    return t :: below.flatten

variable {edges descend}

/-- A walk with an action runs the action over the list of the subtrees. -/
theorem preorder_eq (visit : σ → T → Option σ) (fuel : Nat) (s : σ) (t : T) :
    preorder edges descend visit fuel s t =
      (subtrees edges descend fuel t).bind fun ts => ts.foldlM visit s := by
  induction fuel generalizing s t with
  | zero => rfl
  | succ fuel ih =>
    have hBelow : ∀ (es : List E) (s : σ),
        es.foldlM (fun s e => (descend t e).bind (preorder edges descend visit fuel s)) s =
          (es.mapM fun e => (descend t e).bind (subtrees edges descend fuel)).bind
            fun below => below.flatten.foldlM visit s := by
      intro es
      induction es with
      | nil => exact fun _ => rfl
      | cons e es ihEdges =>
        intro s
        rw [List.foldlM_cons, List.mapM_cons]
        cases hDescend : descend t e with
        | none => rfl
        | some t' =>
          simp only [Option.bind_some, Option.bind_eq_bind, Option.bind_assoc]
          rw [ih, Option.bind_assoc]
          refine Option.bind_congr ?_
          intro ts _
          simp only [ihEdges]
          rw [Option.bind_comm]
          refine Option.bind_congr ?_
          intro below _
          rw [Option.pure_def, Option.bind_some, List.flatten_cons, List.foldlM_append]
          rfl
    rw [preorder, subtrees]
    simp only [Option.bind_eq_bind, Option.bind_assoc, hBelow]
    rw [Option.bind_comm]
    refine Option.bind_congr ?_
    intro es _
    rw [Option.bind_comm]
    refine Option.bind_congr ?_
    intro below _
    rw [Option.pure_def, Option.bind_some, List.foldlM_cons]
    rfl

/-- The walk ends if the rank goes down along every edge, and what the nodes below have in
common with their subtrees carries over to the root. -/
theorem exists_subtrees (P : T → Prop) (rank : T → Nat) (Q : T → List T → Prop)
    (hStep : ∀ t, P t → ∃ es, edges t = some es ∧
      (∀ e ∈ es, ∃ t', descend t e = some t' ∧ P t' ∧ rank t' < rank t) ∧
      ∀ below, List.Forall₂ (fun e ts => ∃ t', descend t e = some t' ∧ Q t' ts) es below →
        Q t (t :: below.flatten))
    (fuel : Nat) (t : T) (hP : P t) (hFuel : rank t < fuel) :
    ∃ ts, subtrees edges descend fuel t = some ts ∧ Q t ts := by
  induction fuel generalizing t with
  | zero => exact absurd hFuel (Nat.not_lt_zero _)
  | succ fuel ih =>
    obtain ⟨es, hEdges, hDown, hQ⟩ := hStep t hP
    have hBelow : ∀ es' : List E, (∀ e ∈ es', e ∈ es) → ∃ below,
        (es'.mapM fun e => (descend t e).bind (subtrees edges descend fuel)) = some below ∧
          List.Forall₂ (fun e ts => ∃ t', descend t e = some t' ∧ Q t' ts) es' below := by
      intro es'
      induction es' with
      | nil => exact fun _ => ⟨[], rfl, .nil⟩
      | cons e es' ihEdges =>
        intro hMem
        rw [List.forall_mem_cons] at hMem
        obtain ⟨t', hDescend, hP', hRank⟩ := hDown e hMem.1
        obtain ⟨ts, hTrees, hQ'⟩ := ih t' hP' (by omega)
        obtain ⟨below, hRest, hForall⟩ := ihEdges hMem.2
        refine ⟨ts :: below, ?_, .cons ⟨t', hDescend, hQ'⟩ hForall⟩
        rw [List.mapM_cons, hDescend, hRest, Option.bind_some, hTrees]
        rfl
    obtain ⟨below, hOk, hForall⟩ := hBelow es fun _ hIn => hIn
    refine ⟨t :: below.flatten, ?_, hQ below hForall⟩
    rw [subtrees]
    simp only [Option.bind_eq_bind, hEdges, Option.bind_some, hOk]
    rfl

/-- A tree that looks like another one unfolds like it. -/
theorem subtrees_map {T' E' : Type} {edges' : T' → Option (List E')}
    {descend' : T' → E' → Option T'} (g : T → T') (label : E → E')
    (hEdges : ∀ t, edges' (g t) = (edges t).map (List.map label))
    (hDescend : ∀ t e, descend' (g t) (label e) = (descend t e).map g) (fuel : Nat) (t : T) :
    subtrees edges' descend' fuel (g t) = (subtrees edges descend fuel t).map (List.map g) := by
  induction fuel generalizing t with
  | zero => rfl
  | succ fuel ih =>
    have hBelow : ∀ es : List E,
        ((es.map label).mapM fun e => (descend' (g t) e).bind (subtrees edges' descend' fuel)) =
          (es.mapM fun e => (descend t e).bind (subtrees edges descend fuel)).map
            (List.map (List.map g)) := by
      intro es
      induction es with
      | nil => rfl
      | cons e es ihEdges =>
        rw [List.map_cons, List.mapM_cons, List.mapM_cons, ihEdges, hDescend]
        cases hDown : descend t e with
        | none => rfl
        | some t' =>
          rw [Option.map_some, Option.bind_some, Option.bind_some, ih]
          cases subtrees edges descend fuel t' with
          | none => rfl
          | some ts =>
            cases es.mapM fun e => (descend t e).bind (subtrees edges descend fuel) with
            | none => rfl
            | some below => rfl
    rw [subtrees, subtrees]
    simp only [Option.bind_eq_bind, hEdges]
    cases edges t with
    | none => rfl
    | some es =>
      simp only [Option.map_some, Option.bind_some, hBelow]
      cases es.mapM fun e => (descend t e).bind (subtrees edges descend fuel) with
      | none => rfl
      | some below => simp [List.map_flatten]

end Preorder
