import Ganc.Circom.Numbering

/-!
# circom — cleaning a graph

`clean_constraints` drops the zeros, and then the constraints without any
coefficient, in the nodes of a graph, which are shared. Cleaning and shifting
commute, so the tree of the graph is the same, with its constraints cleaned
(`all_cleanConstraints`), and they say what they said before (`holds_cleaned`).
-/

namespace Ganc.Circom

-- ---------------------------------------------------------------------------
-- Cleaning and shifting
-- ---------------------------------------------------------------------------

namespace Constraint

/-- Zeros may go before or after an offset. -/
theorem removeZeroValueCoefficients_applyOffset (c : Constraint Nat) (offset : Nat) :
    (c.applyOffset offset).removeZeroValueCoefficients =
      c.removeZeroValueCoefficients.applyOffset offset :=
  removeZeroValueCoefficients_rename (Coefficients.shift_injective offset).injOn

theorem isEmpty_applyOffset (c : Constraint Nat) (offset : Nat) :
    (c.applyOffset offset).isEmpty = c.isEmpty := by
  rw [Bool.eq_iff_iff, isEmpty_iff, isEmpty_iff, applyOffset, applyRawOffset_eq_empty_iff,
    applyRawOffset_eq_empty_iff, applyRawOffset_eq_empty_iff]

theorem isEmpty_removeZeroValueCoefficients {c : Constraint Nat} (h : c.isEmpty = true) :
    c.removeZeroValueCoefficients.isEmpty = true := by
  obtain ⟨ha, hb, hc⟩ := isEmpty_iff.mp h
  rw [isEmpty_iff, removeZeroValueCoefficients, ha, hb, hc]
  exact ⟨rfl, rfl, rfl⟩

end Constraint

/-- The constraints without zeros, except for those that are empty. -/
def cleaned (cs : List (Constraint Nat)) : List (Constraint Nat) :=
  (cs.map Constraint.removeZeroValueCoefficients).filter fun c => !c.isEmpty

/-- A constraint stays, without zeros, unless it is empty then. -/
theorem cleaned_cons (c : Constraint Nat) (cs : List (Constraint Nat)) :
    cleaned (c :: cs) = if c.removeZeroValueCoefficients.isEmpty then cleaned cs
      else c.removeZeroValueCoefficients :: cleaned cs := by
  rw [cleaned, List.map_cons, List.filter_cons]
  cases c.removeZeroValueCoefficients.isEmpty with
  | true => rfl
  | false => rfl

/-- Nothing is left to be cleaned in what is shifted afterwards. -/
theorem filter_cleaned (cs : List (Constraint Nat)) :
    (cleaned cs).filter (fun c => !c.isEmpty) = cleaned cs :=
  List.filter_eq_self.mpr fun _ hc => (List.mem_filter.mp hc).2

/-- Cleaning may come before or after an offset. -/
theorem cleaned_shifted (cs : List (Constraint Nat)) (offset : Nat) :
    cleaned ((cs.filter fun c => !c.isEmpty).map fun c => c.applyOffset offset) =
      (cleaned cs).map fun c => c.applyOffset offset := by
  induction cs with
  | nil => rfl
  | cons c cs ih =>
    rw [cleaned_cons, List.filter_cons]
    by_cases hGone : c.removeZeroValueCoefficients.isEmpty = true
    · rw [if_pos hGone, ← ih]
      by_cases hEmpty : c.isEmpty = true
      · rw [if_neg (by simp [hEmpty])]
      · rw [if_pos (by simp [hEmpty]), List.map_cons, cleaned_cons,
          Constraint.removeZeroValueCoefficients_applyOffset, Constraint.isEmpty_applyOffset,
          if_pos hGone]
    · have hEmpty : ¬ c.isEmpty = true :=
        fun h => hGone (Constraint.isEmpty_removeZeroValueCoefficients h)
      rw [if_neg hGone, if_pos (by simp [hEmpty]), List.map_cons, cleaned_cons,
        Constraint.removeZeroValueCoefficients_applyOffset, Constraint.isEmpty_applyOffset,
        if_neg hGone, List.map_cons, ih]

/-- The cleaned constraints say the same. -/
theorem holds_cleaned {R : Type} [CommRing R] (w : Nat → R) (cs : List (Constraint Nat)) :
    (∀ c ∈ cleaned cs, c.Holds w) ↔ ∀ c ∈ cs, c.Holds w := by
  constructor
  · intro hAll c hc
    rw [← Constraint.holds_removeZeroValueCoefficients]
    by_cases hEmpty : c.removeZeroValueCoefficients.isEmpty = true
    · exact Constraint.holds_of_isEmpty hEmpty
    · exact hAll _ (List.mem_filter.mpr ⟨List.mem_map_of_mem hc, by simpa using hEmpty⟩)
  · intro hAll c hc
    obtain ⟨k, hk, rfl⟩ := List.mem_map.mp (List.mem_of_mem_filter hc)
    exact Constraint.holds_removeZeroValueCoefficients.mpr (hAll k hk)

-- ---------------------------------------------------------------------------
-- The graph
-- ---------------------------------------------------------------------------

variable {dag : DAG}

theorem getElem?_cleanConstraints (id : Nat) :
    dag.cleanConstraints.nodes[id]? = (dag.nodes[id]?).map Node.cleanConstraints :=
  List.getElem?_map

/-- A sound graph stays sound. -/
theorem DAG.Sound.cleanConstraints (h : dag.Sound) : dag.cleanConstraints.Sound where
  length := by
    show dag.adjacency.length = (dag.nodes.map Node.cleanConstraints).length
    rw [List.length_map, h.length]
  nodes := by
    intro id node edges hNode hEdges
    rw [getElem?_cleanConstraints] at hNode
    obtain ⟨node₀, hNode₀, rfl⟩ := Option.map_eq_some_iff.mp hNode
    have hSound := h.nodes id node₀ edges hNode₀ hEdges
    refine ⟨hSound.inNumber, hSound.named, hSound.apart, hSound.locals, ?_, hSound.within,
      hSound.numbers, hSound.forbidden, ?_⟩
    · intro e he
      obtain ⟨hDown, child, hChild, hOut⟩ := hSound.edges e he
      refine ⟨hDown, child.cleanConstraints, ?_, hOut⟩
      rw [getElem?_cleanConstraints, hChild]
      rfl
    · intro c hc
      obtain ⟨c', hc', rfl⟩ := List.mem_map.mp (List.mem_of_mem_filter hc)
      obtain ⟨k, hOk⟩ := hSound.written c' hc'
      obtain ⟨hKnown, rfl⟩ := Constraint.applyCorrespondence_eq_some.mp hOk
      refine ⟨k.removeZeroValueCoefficients, Constraint.applyCorrespondence_eq_some.mpr ⟨?_,
        Constraint.removeZeroValueCoefficients_rename (hSound.numbered_injOn.mono hKnown)⟩⟩
      exact fun name hName => hKnown name (Constraint.occurs_of_removeZeroValueCoefficients hName)

namespace Tree

def clean (t : Tree) : Tree := { t with constraints := cleaned t.constraints }

/-- The subtrees of the cleaned graph are the cleaned subtrees. -/
theorem goToSubtree_cleanConstraints (t : Tree) (e : Edge) :
    goToSubtree dag.cleanConstraints t.clean e = (goToSubtree dag t e).map clean := by
  rw [goToSubtree, goToSubtree, getElem?_cleanConstraints]
  cases dag.nodes[e.goesTo]? with
  | none => rfl
  | some node =>
    let offset := t.offset + e.inNumber
    show some (Tree.mk offset e.goesTo (localSignals node offset)
        (((cleaned node.constraints).filter fun c => !c.isEmpty).map fun c =>
          c.applyOffset offset)) =
      some (Tree.mk offset e.goesTo (localSignals node offset)
        (cleaned ((node.constraints.filter fun c => !c.isEmpty).map fun c =>
          c.applyOffset offset)))
    rw [filter_cleaned, cleaned_shifted]

/-- The root of the cleaned graph is the cleaned root. -/
theorem new_cleanConstraints : Tree.new dag.cleanConstraints = (Tree.new dag).map clean := by
  have hLast : dag.cleanConstraints.getMain = dag.getMain.map Node.cleanConstraints :=
    List.getLast?_map
  have hId : dag.cleanConstraints.mainId = dag.mainId := by
    rw [DAG.mainId, DAG.mainId, DAG.cleanConstraints, List.length_map]
  rw [Tree.new, Tree.new, hLast, hId]
  cases dag.getMain with
  | none => rfl
  | some main =>
    cases dag.mainId with
    | none => rfl
    | some id => rfl

/-- The tree is the same, with its constraints cleaned. -/
theorem all_cleanConstraints (root : Tree) :
    Tree.all dag.cleanConstraints root.clean = (Tree.all dag root).map (List.map clean) := by
  have hLength : dag.cleanConstraints.nodes.length = dag.nodes.length := List.length_map ..
  rw [Tree.all, hLength]
  refine Preorder.subtrees_map clean id (fun t => ?_) goToSubtree_cleanConstraints _ root
  rw [List.map_id_fun, Option.map_id]
  rfl

end Tree

end Ganc.Circom
