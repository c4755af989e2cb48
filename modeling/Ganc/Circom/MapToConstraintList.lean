import Ganc.Circom.Cleaning
import Ganc.Circom.Simplification

/-!
# circom — from the graph of templates to the constraint list

`map` goes through the tree of a circuit once: it collects the signals, sorts
the linear constraints by their kinds and leaves the others in the nodes, which
are shared, to be shifted when they are needed. Nothing is lost on the way
(`map_spec`), so that the constraint list of a graph is exact for all
constraints of its tree (`mapToList_exact`).
-/

set_option linter.unusedSectionVars false

namespace Ganc.Circom

open Elimination Fuel ConstraintStorage

-- ---------------------------------------------------------------------------
-- The code
-- ---------------------------------------------------------------------------

structure CHolder where
  linear : List (Constraint Nat)
  equalities : List (Constraint Nat)
  constantEqualities : List (Constraint Nat)

/-- What `map_tree` changes; the constraints that are not linear are only counted there. -/
structure Mapped where
  witness : List Nat
  cHolder : CHolder
  forbidden : SignalSet Nat

def holdConstraint (order : HashOrder) (field : Int) (s : CHolder) (c : Constraint Nat) :
    CHolder :=
  if c.isConstantEquality then { s with constantEqualities := s.constantEqualities ++ [c] }
  else if c.isEquality order field then { s with equalities := s.equalities ++ [c] }
  else if c.isLinear then { s with linear := s.linear ++ [c] }
  else s

/-- One node of the tree. -/
def mapTree (order : HashOrder) (field : Int) (dag : DAG) (s : Mapped) (tree : Tree) :
    Option Mapped := do
  let node ← dag.nodes[tree.nodeId]?
  return {
    witness := s.witness ++ tree.signals
    cHolder := tree.constraints.foldl (holdConstraint order field) s.cHolder
    forbidden := if node.isCustomGate then s.forbidden.insertMany tree.signals else s.forbidden }

def mapNodeToEncoding (node : Node) : EncodingNode :=
  ⟨node.constraints.filter fun c => !c.isLinear⟩

def mapEdgeToEncoding (edge : Edge) : EncodingEdge := ⟨edge.goesTo, edge.inNumber⟩

def produceEncoding (init : Nat) (dag : DAG) : DAGEncoding :=
  ⟨init, dag.nodes.map mapNodeToEncoding, dag.adjacency.map (List.map mapEdgeToEncoding)⟩

structure SimplificationFlags where
  noRounds : Nat
  flagS : Bool
  flagOldHeuristics : Bool

/-- What `map` has simplified. -/
def DAG.map (order : HashOrder) (field : Int) (flags : SimplificationFlags) (dag : DAG) :
    Option Simplifier := do
  let main ← dag.getMain
  let initId ← dag.mainId
  let s ← Preorder.preorder (Tree.getEdges dag) (Tree.goToSubtree dag) (mapTree order field dag)
    dag.nodes.length ⟨[0], ⟨[], [], []⟩, main.forbiddenIfMain⟩ (← Tree.new dag)
  return {
    field
    dagEncoding := produceEncoding initId dag
    noPublicInputs := dag.publicInputs
    noPublicOutputs := dag.publicOutputs
    noPrivateInputs := dag.privateInputs
    forbidden := s.forbidden
    consEqualities := s.cHolder.constantEqualities
    equalities := s.cHolder.equalities
    linear := s.cHolder.linear
    maxSignal := s.witness.length
    noRounds := flags.noRounds
    flagS := flags.flagS
    flagOldHeuristics := flags.flagOldHeuristics }

def DAG.mapToList (n : BigNumbers) (bytes : SignedBytes) (order : HashOrder) (field : Int)
    (flags : SimplificationFlags) (dag : DAG) (fuel : Nat) :
    Option (ConstraintStorage × SignalMap × Nat) := do
  simplification n bytes order fuel (← dag.map order field flags)

-- ---------------------------------------------------------------------------
-- The encoding unfolds like the graph
-- ---------------------------------------------------------------------------

variable {p : Nat} [Fact p.Prime] {order : HashOrder} {dag : DAG} {root t : Tree}
variable {trees : List Tree} {field : Int}

/-- The constraints of a tree. -/
def constraintsOf (trees : List Tree) : List (Constraint Nat) := trees.flatMap Tree.constraints

def Tree.iterator (t : Tree) : EncodingIterator :=
  ⟨t.nodeId, t.offset, t.constraints.filter fun c => !c.isLinear⟩

/-- The iterators hold the constraints that are not linear. -/
theorem nonLinears_iterator (trees : List Tree) :
    nonLinears (trees.map Tree.iterator) =
      (constraintsOf trees).filter fun c => !c.isLinear := by
  rw [nonLinears, constraintsOf, List.flatMap_map, List.filter_flatMap]
  rfl

theorem filter_map_applyOffset (cs : List (Constraint Nat)) (offset : Nat) :
    (cs.map fun c => c.applyOffset offset).filter (fun c => !c.isLinear) =
      (cs.filter fun c => !c.isLinear).map fun c => c.applyOffset offset := by
  rw [List.filter_map]
  refine congrArg _ (List.filter_congr fun c _ => ?_)
  show (!(c.applyOffset offset).isLinear) = !c.isLinear
  rw [Constraint.isLinear_applyOffset]

/-- A constraint that is not linear is not empty. -/
theorem filter_isEmpty (cs : List (Constraint Nat)) :
    ((cs.filter fun c => !c.isEmpty).filter fun c => !c.isLinear) =
      cs.filter fun c => !c.isLinear := by
  rw [List.filter_filter]
  refine List.filter_congr fun c _ => ?_
  cases hEmpty : c.isEmpty with
  | false => rw [Bool.not_false, Bool.and_true]
  | true =>
    obtain ⟨ha, hb, -⟩ := Constraint.isEmpty_iff.mp hEmpty
    rw [Constraint.isLinear_iff.mpr ⟨ha, hb⟩]
    rfl

/-- An edge leads the iterator to the subtree. -/
theorem next_iterator (init : Nat) (dag : DAG) (t : Tree) (e : Edge) :
    EncodingIterator.next (produceEncoding init dag) t.iterator (mapEdgeToEncoding e) =
      (Tree.goToSubtree dag t e).map Tree.iterator := by
  rw [EncodingIterator.next, EncodingIterator.buildEncodingIterator, produceEncoding,
    Tree.goToSubtree, List.getElem?_map]
  show ((dag.nodes[e.goesTo]?).map mapNodeToEncoding).bind _ = _
  cases dag.nodes[e.goesTo]? with
  | none => rfl
  | some node =>
    let offset := t.offset + e.inNumber
    show some (EncodingIterator.mk e.goesTo offset
        ((node.constraints.filter fun c => !c.isLinear).map fun c => c.applyOffset offset)) =
      some (EncodingIterator.mk e.goesTo offset
        (((node.constraints.filter fun c => !c.isEmpty).map fun c => c.applyOffset offset).filter
          fun c => !c.isLinear))
    rw [filter_map_applyOffset, filter_isEmpty]

theorem constraints_new {main : Node} (hMain : dag.getMain = some main)
    (hRoot : Tree.new dag = some root) : root.constraints = main.constraints := by
  rw [Tree.new, hMain, Option.bind_eq_bind, Option.bind_some, Option.bind_eq_bind,
    Option.bind_eq_some_iff] at hRoot
  obtain ⟨id, -, hEq⟩ := hRoot
  rw [← Option.some.inj hEq]

/-- The encoding unfolds to the iterators of the tree. -/
theorem unfolds_iterator (h : dag.Sound) (hRoot : Tree.new dag = some root)
    (hAll : Tree.all dag root = some trees) :
    Unfolds (produceEncoding root.nodeId dag) (trees.map Tree.iterator) := by
  obtain ⟨main, hMain, hAt, hZero, -⟩ := Tree.at_new h hRoot
  refine ⟨root.iterator, ?_, ?_⟩
  · have hUnshifted : ∀ cs : List (Constraint Nat), (cs.map fun c => c.applyOffset 0) = cs :=
      fun cs => List.map_id'' (fun _ => Constraint.applyOffset_zero) cs
    rw [EncodingIterator.new, EncodingIterator.buildEncodingIterator, produceEncoding,
      List.getElem?_map, hAt.found, Option.map_some, Option.bind_eq_bind, Option.bind_some,
      hUnshifted, Tree.iterator, hZero, constraints_new hMain hRoot]
    rfl
  · rw [produceEncoding, List.length_map]
    refine (Preorder.subtrees_map Tree.iterator mapEdgeToEncoding ?_ (next_iterator _ dag)
      dag.nodes.length root).trans (congrArg (Option.map _) hAll)
    intro t
    rw [EncodingIterator.edges, Tree.getEdges, List.getElem?_map]
    rfl

-- ---------------------------------------------------------------------------
-- The kinds of constraints
-- ---------------------------------------------------------------------------

/-- The linear constraints that are no equality of either kind. -/
def isOther (order : HashOrder) (field : Int) (c : Constraint Nat) : Bool :=
  !c.isConstantEquality && (!c.isEquality order field && c.isLinear)

def isEqual (order : HashOrder) (field : Int) (c : Constraint Nat) : Bool :=
  !c.isConstantEquality && c.isEquality order field

/-- The holder sorts the constraints into three lists. -/
theorem foldl_holdConstraint (cs : List (Constraint Nat)) (s : CHolder) :
    cs.foldl (holdConstraint order field) s =
      ⟨s.linear ++ cs.filter (isOther order field), s.equalities ++ cs.filter (isEqual order field),
        s.constantEqualities ++ cs.filter Constraint.isConstantEquality⟩ := by
  induction cs generalizing s with
  | nil => simp
  | cons c cs ih =>
    rw [List.foldl_cons, ih, holdConstraint]
    by_cases hConstant : c.isConstantEquality = true
    · simp [isOther, isEqual, hConstant]
    · by_cases hEquality : c.isEquality order field = true
      · simp [isOther, isEqual, hConstant, hEquality]
      · by_cases hLinear : c.isLinear = true
        · simp [isOther, isEqual, hConstant, hEquality, hLinear]
        · simp [isOther, isEqual, hConstant, hEquality, hLinear]

/-- A constant equality is linear. -/
theorem isLinear_of_isConstantEquality {c : Constraint Nat} (h : c.isConstantEquality = true) :
    c.isLinear = true := by
  rw [Constraint.isConstantEquality, Bool.and_eq_true] at h
  exact h.1

/-- An equality is linear. -/
theorem isLinear_of_isEquality {c : Constraint Nat} (h : c.isEquality order field = true) :
    c.isLinear = true := by
  cases hA : c.a.isEmpty with
  | false => simp [Constraint.isEquality, hA] at h
  | true =>
    cases hB : c.b.isEmpty with
    | false => simp [Constraint.isEquality, hA, hB] at h
    | true => rw [Constraint.isLinear, hA, hB, Bool.and_self]

/-- The constraints, sorted. -/
theorem sorted_perm (cs : List (Constraint Nat)) :
    (cs.filter (isEqual order field) ++ (cs.filter Constraint.isConstantEquality ++
      (cs.filter (isOther order field) ++ cs.filter fun c => !c.isLinear))).Perm cs := by
  induction cs with
  | nil => exact .nil
  | cons c cs ih =>
    have hMove : ∀ before after : List (Constraint Nat), (before ++ after).Perm cs →
        (before ++ c :: after).Perm (c :: cs) :=
      fun _ _ h => List.perm_middle.trans (h.cons c)
    by_cases hLinear : c.isLinear = true
    · by_cases hConstant : c.isConstantEquality = true
      · simpa [isOther, isEqual, hLinear, hConstant] using hMove _ _ ih
      · by_cases hEquality : c.isEquality order field = true
        · simpa [isOther, isEqual, hLinear, hConstant, hEquality] using ih.cons c
        · rw [← List.append_assoc] at ih
          simpa [isOther, isEqual, hLinear, hConstant, hEquality] using hMove _ _ ih
    · have hConstant : ¬ c.isConstantEquality = true :=
        fun h => hLinear (isLinear_of_isConstantEquality h)
      have hEquality : ¬ c.isEquality order field = true :=
        fun h => hLinear (isLinear_of_isEquality h)
      rw [← List.append_assoc, ← List.append_assoc] at ih
      simpa [isOther, isEqual, hLinear, hConstant, hEquality] using hMove _ _ ih

/-- The coefficients are in the field, and not zero. -/
def Constraint.Normal (p : Nat) (c : Constraint Nat) : Prop :=
  ∀ (s : Nat) (value : Int), c.c[s]? = some value → 0 < value ∧ value < p

theorem Constraint.Normal.applyOffset {c : Constraint Nat} (h : c.Normal p) (offset : Nat) :
    (c.applyOffset offset).Normal p := by
  intro s value hStored
  obtain ⟨s', -, hOld⟩ :=
    (Coefficients.get?_rename (Coefficients.shift_injective offset).injOn).mp hStored
  exact h s' value hOld

theorem Constraint.Normal.linear {c : Constraint Nat} (h : c.Normal p)
    (hLinear : c.isLinear = true) : c.Linear p :=
  ⟨(Constraint.isLinear_iff.mp hLinear).1, (Constraint.isLinear_iff.mp hLinear).2, h⟩

theorem Constraint.Normal.reduced {c : Constraint Nat} (h : c.Normal p) : c.c.Reduced p :=
  fun s value hStored => (h s value hStored).imp_left le_of_lt

/-- Without zeros, a reduced constraint is normal. -/
theorem normal_removeZeroValue {c : Constraint Nat} (h : c.c.Reduced p) :
    c.removeZeroValueCoefficients.Normal p := by
  intro s value hStored
  obtain ⟨hOld, hne⟩ := Coefficients.get?_removeZeroValue.mp hStored
  obtain ⟨hLow, hHigh⟩ := h s value hOld
  exact ⟨by omega, hHigh⟩

-- ---------------------------------------------------------------------------
-- Inputs and outputs are signals
-- ---------------------------------------------------------------------------

structure Node.Counted (node : Node) : Prop where
  publics : node.publicInputsLength ≤ node.inputsLength
  signals : node.outputsLength + node.inputsLength ≤ node.numberOfSignals

theorem DAG.counted_modifyMain {f : Node → Node}
    (hf : ∀ node : Node, node.Counted → (f node).Counted)
    (h : ∀ node ∈ dag.nodes, node.Counted) : ∀ node ∈ (dag.modifyMain f).nodes, node.Counted := by
  intro node hIn
  obtain ⟨i, hAt⟩ := List.getElem?_of_mem hIn
  rw [DAG.modifyMain, List.getElem?_modify, Option.map_eq_map, Option.map_eq_some_iff] at hAt
  obtain ⟨node₀, hAt₀, rfl⟩ := hAt
  have hOld := h node₀ (List.mem_of_getElem? hAt₀)
  split
  · exact hf node₀ hOld
  · exact hOld

/-- In a graph that has been built the counts of the nodes are right. -/
theorem DAG.counted_of_built (h : Built dag) : ∀ node ∈ dag.nodes, node.Counted := by
  induction h with
  | new => exact fun node hIn => absurd hIn List.not_mem_nil
  | @step dag dag' s _ _ hStep ih =>
    cases s with
    | node isCustomGate =>
      obtain rfl := Option.some.inj hStep
      intro node hIn
      rcases List.mem_append.mp hIn with hOld | hNew
      · exact ih node hOld
      · rw [List.mem_singleton.mp hNew]
        exact ⟨le_refl _, le_refl _⟩
    | input name isPublic =>
      obtain rfl := Option.some.inj hStep
      refine DAG.counted_modifyMain (fun node hNode => ?_) ih
      obtain ⟨hPublics, hSignals⟩ := hNode
      cases isPublic with
      | false =>
        exact ⟨Nat.le_succ_of_le hPublics, Nat.succ_le_succ hSignals⟩
      | true =>
        exact ⟨Nat.succ_le_succ hPublics, Nat.succ_le_succ hSignals⟩
    | output name =>
      obtain rfl := Option.some.inj hStep
      refine DAG.counted_modifyMain (fun node hNode => ⟨hNode.publics, ?_⟩) ih
      have hSignals := hNode.signals
      show node.outputsLength + 1 + node.inputsLength ≤ node.numberOfSignals + 1
      omega
    | intermediate name =>
      obtain rfl := Option.some.inj hStep
      exact DAG.counted_modifyMain
        (fun node hNode => ⟨hNode.publics, Nat.le_succ_of_le hNode.signals⟩) ih
    | constraint k =>
      obtain ⟨_, _, -, -, rfl⟩ := DAG.buildConstraint_eq_some.mp hStep
      exact DAG.counted_modifyMain (fun node hNode => ⟨hNode.publics, hNode.signals⟩) ih
    | edge to_ label =>
      obtain ⟨⟨added, edge⟩, hAdd, rfl⟩ := Option.map_eq_some_iff.mp hStep
      simp only [DAG.addEdge, Option.bind_eq_bind, Option.bind_eq_some_iff] at hAdd
      obtain ⟨from_, -, hAdd⟩ := hAdd
      split at hAdd
      next =>
        simp only [Option.bind_eq_some_iff] at hAdd
        obtain ⟨node, hNode, child, -, hEq⟩ := hAdd
        obtain ⟨rfl, -⟩ := Prod.mk.inj (Option.some.inj hEq)
        intro node' hIn
        rcases List.mem_or_eq_of_mem_set hIn with hOld | rfl
        · exact ih node' hOld
        · obtain ⟨hPublics, hSignals⟩ := ih node (List.mem_of_getElem? hNode)
          exact ⟨hPublics, Nat.le_add_right_of_le hSignals⟩
      next =>
        obtain ⟨rfl, -⟩ := Prod.mk.inj (Option.some.inj hAdd)
        exact ih

-- ---------------------------------------------------------------------------
-- The constraint list of a graph
-- ---------------------------------------------------------------------------

/-- Mapping a list of subtrees collects their signals and constraints. -/
theorem foldlM_mapTree (order : HashOrder) (field : Int)
    (hNodes : ∀ t ∈ trees, ∃ node, Tree.At dag t node) (s : Mapped) :
    ∃ s', trees.foldlM (mapTree order field dag) s = some s' ∧
      s'.witness = s.witness ++ trees.flatMap Tree.signals ∧
      s'.cHolder = (constraintsOf trees).foldl (holdConstraint order field) s.cHolder ∧
      ∀ t ∈ s.forbidden, t ∈ s'.forbidden := by
  induction trees generalizing s with
  | nil => exact ⟨s, rfl, (List.append_nil _).symm, rfl, fun _ ht => ht⟩
  | cons t trees ih =>
    rw [List.forall_mem_cons] at hNodes
    obtain ⟨⟨node, hAt⟩, hRest⟩ := hNodes
    obtain ⟨s', hOk, hWitness, hHolder, hForbidden⟩ := ih hRest
      ⟨s.witness ++ t.signals, t.constraints.foldl (holdConstraint order field) s.cHolder,
        if node.isCustomGate then s.forbidden.insertMany t.signals else s.forbidden⟩
    refine ⟨s', ?_, ?_, ?_, ?_⟩
    · rw [List.foldlM_cons, mapTree, hAt.found]
      exact hOk
    · rw [hWitness, List.flatMap_cons, List.append_assoc]
    · have hCons : constraintsOf (t :: trees) = t.constraints ++ constraintsOf trees :=
        List.flatMap_cons
      rw [hHolder, hCons, List.foldl_append]
    · intro u hu
      refine hForbidden u ?_
      show u ∈ if node.isCustomGate then s.forbidden.insertMany t.signals else s.forbidden
      split
      · exact mem_insertMany_set.mpr (.inl hu)
      · exact hu

/-- The outputs of the main template are declared first, and then its public inputs. -/
def DAG.Declared (dag : DAG) : Prop :=
  ∀ main ∈ dag.getMain, ∀ t ≤ main.outputsLength + main.publicInputsLength,
    t ∈ main.forbiddenIfMain

/-- The private inputs come after the outputs and the public inputs. -/
def Node.privateInputs (main : Node) : List Nat :=
  List.range' (main.outputsLength + main.publicInputsLength + 1) main.numberOfPrivateInputs

/-- The simplifier is given all constraints of the tree, sorted by their kinds. -/
theorem map_spec (h : dag.Sound) {main : Node} (hMain : dag.getMain = some main)
    (hNormal : ∀ node ∈ dag.nodes, ∀ c ∈ node.constraints, c.Normal p) (hCounted : main.Counted)
    (hDeclared : dag.Declared) (order : HashOrder) (flags : SimplificationFlags) :
    ∃ root trees smp, Tree.new dag = some root ∧ Tree.all dag root = some trees ∧
      dag.map order p flags = some smp ∧ smp.Formed p order (trees.map Tree.iterator) ∧
      (smp.circuit (trees.map Tree.iterator)).Perm (constraintsOf trees) ∧
      smp.maxSignal = dag.numberOfSignals + 1 ∧ smp.privateInputs = main.privateInputs ∧
      ∀ t ∈ main.forbiddenIfMain, t ∈ smp.forbidden := by
  have hSome : dag.nodes ≠ [] := by
    intro hNone
    simp [DAG.getMain, hNone] at hMain
  obtain ⟨root, trees, hRoot, hAll, hPerm, hBound⟩ := h.unfolds hSome
  obtain ⟨main', hMain', hAt, -, -⟩ := Tree.at_new h hRoot
  obtain rfl := Option.some.inj (hMain.symm.trans hMain')
  have hNodes := Tree.at_of_all h hAt hAll
  obtain ⟨s, hOk, hWitness, hHolder, hForbidden⟩ := foldlM_mapTree order p
    hNodes ⟨[0], ⟨[], [], []⟩, main.forbiddenIfMain⟩
  rw [foldl_holdConstraint] at hHolder
  simp only [List.nil_append] at hHolder
  have hEach : ∀ c ∈ constraintsOf trees, c.Normal p := by
    intro c hc
    obtain ⟨t, ht, hc⟩ := List.mem_flatMap.mp hc
    obtain ⟨node, hAtNode⟩ := hNodes t ht
    obtain ⟨k, hk, rfl⟩ := hAtNode.constraints c hc
    exact (hNormal node (List.mem_of_getElem? hAtNode.found) k hk).applyOffset t.offset
  have hId : dag.mainId = some root.nodeId := by
    rw [Tree.new, hMain, Option.bind_eq_bind, Option.bind_some, Option.bind_eq_bind,
      Option.bind_eq_some_iff] at hRoot
    obtain ⟨id, hId, hEq⟩ := hRoot
    rw [hId, ← Option.some.inj hEq]
  have hLength : s.witness.length = dag.numberOfSignals + 1 := by
    rw [hWitness, List.length_append, hPerm.length_eq, List.length_range', List.length_singleton,
      Nat.add_comm]
  have hNumber : dag.numberOfSignals = main.numberOfSignals := by
    rw [DAG.numberOfSignals, hMain]
    rfl
  let smp : Simplifier := ⟨(p : Int), produceEncoding root.nodeId dag, main.publicInputsLength,
    main.outputsLength, main.inputsLength - main.publicInputsLength, s.forbidden,
    s.cHolder.constantEqualities, s.cHolder.equalities, s.cHolder.linear, s.witness.length,
    flags.noRounds, flags.flagS, flags.flagOldHeuristics⟩
  have hCircuit : (smp.circuit (trees.map Tree.iterator)).Perm (constraintsOf trees) := by
    show (s.cHolder.equalities ++ (s.cHolder.constantEqualities ++ (s.cHolder.linear ++
      nonLinears (trees.map Tree.iterator)))).Perm (constraintsOf trees)
    rw [hHolder, nonLinears_iterator]
    exact sorted_perm (constraintsOf trees)
  refine ⟨root, trees, smp, hRoot, hAll, ?_, ?_, hCircuit, hLength, rfl, hForbidden⟩
  · have hWalk : Preorder.preorder (Tree.getEdges dag) (Tree.goToSubtree dag)
        (mapTree order p dag) dag.nodes.length ⟨[0], ⟨[], [], []⟩, main.forbiddenIfMain⟩ root =
        some s := by
      rw [Preorder.preorder_eq]
      exact (congrArg (Option.bind · _) hAll).trans hOk
    rw [DAG.map, hMain, hId, hRoot]
    simp only [Option.bind_eq_bind, Option.bind_some, hWalk, DAG.publicInputs, DAG.publicOutputs,
      DAG.privateInputs, hMain]
    rfl
  · refine ⟨rfl, unfolds_iterator h hRoot hAll, ?_, ?_, ?_, ?_, ?_, ?_, ?_⟩
    · intro c hc
      rw [show smp.equalities = s.cHolder.equalities from rfl, hHolder] at hc
      obtain ⟨hIn, hEqual⟩ := List.mem_filter.mp hc
      rw [isEqual, Bool.and_eq_true] at hEqual
      exact ⟨(hEach c hIn).linear (isLinear_of_isEquality hEqual.2), hEqual.2⟩
    · intro c hc
      rw [show smp.consEqualities = s.cHolder.constantEqualities from rfl, hHolder] at hc
      obtain ⟨hIn, hConstant⟩ := List.mem_filter.mp hc
      exact ⟨(hEach c hIn).linear (isLinear_of_isConstantEquality hConstant), hConstant⟩
    · intro c hc
      rw [show smp.linear = s.cHolder.linear from rfl, hHolder] at hc
      obtain ⟨hIn, hOther⟩ := List.mem_filter.mp hc
      rw [isOther, Bool.and_eq_true, Bool.and_eq_true] at hOther
      exact (hEach c hIn).linear hOther.2.2
    · intro c hc
      rw [nonLinears_iterator] at hc
      exact (hEach c (List.mem_of_mem_filter hc)).reduced
    · intro t ht
      exact hForbidden t (hDeclared main hMain t ht)
    · show main.outputsLength + main.publicInputsLength +
        (main.inputsLength - main.publicInputsLength) < s.witness.length
      have hPublics := hCounted.publics
      have hSignals := hCounted.signals
      rw [hLength, hNumber]
      omega
    · intro t ht
      obtain ⟨c, hc, hOccurs⟩ := (mentions_perm hCircuit).mp ht
      obtain ⟨tree, hTree, hc⟩ := List.mem_flatMap.mp hc
      show t < s.witness.length
      rw [hLength]
      exact Nat.lt_succ_of_le (hBound tree hTree c hc t hOccurs)

/-- The constraint list of a graph: what is left of the constraints of its tree, and the signals
that have a number in the witness. These are those that are still mentioned and those that the
circuit shows to the outside, and none that is removed; `inputs` counts the private inputs among
them. -/
structure DAG.Listed (p : Nat) (dag : DAG) (trees : List Tree) (signalMap : SignalMap)
    (inputs : Nat) (constraints : List (Constraint Nat)) (removed : Set Nat) : Prop where
  complete : solutions p (constraintsOf trees) ⊆ solutions p constraints
  sound : (solutions p (constraintsOf trees)).Nonempty →
    Eliminates (solutions p (constraintsOf trees)) (solutions p constraints) removed
  mentioned : ∀ t, Mentions constraints t → t ∈ signalMap
  shown : ∀ main ∈ dag.getMain, ∀ t ≤ main.outputsLength + main.publicInputsLength, t ∈ signalMap
  dropped : ∀ t ∈ removed, t ∉ signalMap
  inputs : ∀ main ∈ dag.getMain,
    inputs = (main.privateInputs.filter fun t => t ∈ signalMap).length

/-- The solutions do not depend on the order. -/
theorem solutions_perm {T T' : List (Constraint Nat)} (h : T.Perm T') :
    solutions p T = solutions p T' :=
  Set.ext fun w => and_congr_right fun _ => by simp only [h.mem_iff]

/-- A circuit with a solution has no equalities that contradict each other. -/
theorem Simplifier.consistent_of_nonempty {smp : Simplifier} {iters : List EncodingIterator}
    (h : (solutions p (smp.circuit iters)).Nonempty) : smp.Consistent p := by
  obtain ⟨w, hOne, hAll⟩ := h
  simp only [Simplifier.circuit, List.forall_mem_append] at hAll
  exact ⟨w, hOne, List.forall_mem_append.mpr ⟨hAll.1, hAll.2.1⟩⟩

/-- Cleaning does not change what the constraints of a tree say. -/
theorem solutions_clean (p : Nat) (trees : List Tree) :
    solutions p (constraintsOf (trees.map Tree.clean)) = solutions p (constraintsOf trees) := by
  refine Set.ext fun w => and_congr_right fun _ => ?_
  rw [constraintsOf, List.flatMap_map]
  simp only [constraintsOf, List.forall_mem_flatMap]
  exact forall₂_congr fun t _ => holds_cleaned w t.constraints

/-- **The constraint list of a circuit is exact.** Whatever sequence of steps has built a graph
of templates, with coefficients in the field and the outputs and public inputs of the main
template first, its tree unfolds, and after cleaning the simplification ends. No solution of the
tree's constraints is lost. If there is one at all, the constraints that are stored are what
remains when the removed signals are eliminated; outputs and public inputs are never removed,
and every signal that is still mentioned has a number. -/
theorem DAG.mapToList_exact {n : BigNumbers} {bytes : SignedBytes} (h : Built dag)
    (hMain : dag.nodes ≠ []) (hReduced : ∀ node ∈ dag.nodes, ∀ c ∈ node.constraints, c.c.Reduced p)
    (hDeclared : dag.Declared) (hLaw : n.Lawful) (hBytes : bytes.Lawful) (order : HashOrder)
    (flags : SimplificationFlags) :
    ∃ root trees storage signalMap inputs constraints removed,
      Tree.new dag = some root ∧ Tree.all dag root = some trees ∧
      Settles (dag.cleanConstraints.mapToList n bytes order p flags)
        (storage, signalMap, inputs) ∧
      Represents bytes storage constraints ∧
      dag.Listed p trees signalMap inputs constraints removed := by
  have hSound := DAG.sound_of_built h
  obtain ⟨main, hLast⟩ : ∃ main, dag.getMain = some main :=
    ⟨_, List.getLast?_eq_some_getLast hMain⟩
  have hClean : dag.cleanConstraints.getMain = some main.cleanConstraints :=
    List.getLast?_map.trans (congrArg _ hLast)
  have hNormal : ∀ node ∈ dag.cleanConstraints.nodes, ∀ c ∈ node.constraints, c.Normal p := by
    intro node hNode c hc
    obtain ⟨node₀, hNode₀, rfl⟩ := List.mem_map.mp hNode
    obtain ⟨k, hk, rfl⟩ := List.mem_map.mp (List.mem_of_mem_filter hc)
    exact normal_removeZeroValue (hReduced node₀ hNode₀ k hk)
  have hCounted := DAG.counted_of_built h main (List.mem_of_getLast? hLast)
  have hFirst : dag.cleanConstraints.Declared := by
    intro main' hMain' t ht
    obtain rfl := Option.some.inj (hClean.symm.trans hMain')
    exact hDeclared main hLast t ht
  -- the tree that `map` goes through is that of the graph, cleaned
  obtain ⟨root, trees, hRoot, hAll, -, -⟩ := hSound.unfolds hMain
  obtain ⟨root', trees', smp, hRoot', hAll', hMap, hFormed, hCircuit, hSignals, hPrivate,
    hForbidden⟩ := map_spec hSound.cleanConstraints hClean hNormal
      ⟨hCounted.publics, hCounted.signals⟩ hFirst order flags
  rw [Tree.new_cleanConstraints, hRoot, Option.map_some] at hRoot'
  obtain rfl := Option.some.inj hRoot'
  rw [Tree.all_cleanConstraints, hAll, Option.map_some] at hAll'
  obtain rfl := Option.some.inj hAll'
  have hSame := (solutions_perm (p := p) hCircuit).trans (solutions_clean p trees)
  obtain ⟨storage, signalMap, inputs, constraints, removed, hSettles, hRep, hAnswer⟩ :=
    exists_answer hFormed hLaw hBytes
  refine ⟨root, trees, storage, signalMap, inputs, constraints, removed, hRoot, hAll,
    hSettles.congr fun fuel => ?_, hRep, ?_, ?_, hAnswer.mentioned, ?_, hAnswer.dropped, ?_⟩
  · rw [DAG.mapToList, hMap, Option.bind_eq_bind, Option.bind_some]
  · exact hSame ▸ hAnswer.remains.subset
  · intro hSolved
    rw [← hSame] at hSolved ⊢
    exact hAnswer.remains.eliminates (Simplifier.consistent_of_nonempty hSolved)
  · intro main' hMain' t ht
    obtain rfl := Option.some.inj (hLast.symm.trans hMain')
    have hNumber : dag.cleanConstraints.numberOfSignals = main.numberOfSignals := by
      rw [DAG.numberOfSignals, hClean]
      rfl
    have hPublics := hCounted.publics
    have hWithin := hCounted.signals
    refine hAnswer.kept t ?_ (hForbidden t (hDeclared main hLast t ht))
    rw [hSignals, hNumber]
    omega
  · intro main' hMain'
    obtain rfl := Option.some.inj (hLast.symm.trans hMain')
    rw [hAnswer.inputs, hPrivate]
    rfl

namespace Sample

/-- The coefficients of the sample are below 13. -/
theorem dag_reduced :
    ∀ node ∈ Sample.dag.nodes, ∀ c ∈ node.constraints, c.c.Reduced (13 : Nat) := by
  have hList : ∀ node ∈ Sample.dag.nodes, ∀ c ∈ node.constraints, ∀ kv ∈ c.c.toList,
      0 ≤ kv.2 ∧ kv.2 < (13 : Nat) := by decide +kernel
  intro node hNode c hc s value hStored
  exact hList node hNode c hc (s, value) (Store.mem_toList.mpr hStored)

/-- The sample declares its outputs and inputs first. -/
theorem dag_declared : Sample.dag.Declared := by
  rw [DAG.Declared]
  decide +kernel

end Sample

section Sample

open Sample

theorem DAG.mapToList_exact_sample :
    ∃ root trees storage signalMap inputs constraints removed,
      Tree.new Sample.dag = some root ∧ Tree.all Sample.dag root = some trees ∧
      Settles (Sample.dag.cleanConstraints.mapToList bigNumbers signedBytes
        ⟨List.reverse, List.reverse_perm⟩ (13 : Nat) ⟨2, false, false⟩)
        (storage, signalMap, inputs) ∧
      Represents signedBytes storage constraints ∧
      Sample.dag.Listed 13 trees signalMap inputs constraints removed :=
  DAG.mapToList_exact built_dag nodes_dag dag_reduced dag_declared lawful signedBytes_lawful _ _

end Sample

end Ganc.Circom
