import Ganc.Circom.DAG
import Ganc.Lib.Fuel

/-!
# circom — every signal has one number

A graph of template instances is built node by node: signals, subcomponents
and constraints are added to the last node. The numbers of a node's own signals
and the ranges of its subcomponents are then the numbers from one to its number
of signals, each once, and its constraints are those of its template under the
numbers of the names (`Node.Sound`). So are the numbers of all signals of the
circuit, and its constraints say what the templates say (`produceWitness_perm`),
however often a node is shared.
-/

namespace Ganc.Circom

open Coefficients (numbered shift Known)

-- ---------------------------------------------------------------------------
-- Building a graph
-- ---------------------------------------------------------------------------

inductive BuildStep
  | node (isCustomGate : Bool)
  | input (name : String) (isPublic : Bool)
  | output (name : String)
  | intermediate (name : String)
  | constraint (constraint : Constraint String)
  | edge (to_ : Nat) (label : String)

def DAG.build (dag : DAG) : BuildStep → Option DAG
  | .node isCustomGate => some (dag.addNode isCustomGate)
  | .input name isPublic => some (dag.addInput name isPublic)
  | .output name => some (dag.addOutput name)
  | .intermediate name => some (dag.addIntermediate name)
  | .constraint constraint => dag.buildConstraint constraint
  | .edge to_ label => (dag.addEdge to_ label).map Prod.fst

/-- Names are new in the node. -/
def BuildStep.Fresh (main : Node) (nodes : List Node) : BuildStep → Prop
  | .node _ => True
  | .input name _ => name ∉ main.signalCorrespondence
  | .output name => name ∉ main.signalCorrespondence
  | .intermediate name => name ∉ main.signalCorrespondence
  | .constraint _ => True
  | .edge to_ label => ∀ child ∈ nodes[to_]?,
    ∀ entry ∈ child.localEntries, label ++ "." ++ entry.1 ∉ main.signalCorrespondence

/-- The graphs that can be built. -/
inductive Built : DAG → Prop
  | new : Built DAG.new
  | step {dag dag' : DAG} {s : BuildStep} (hBuilt : Built dag)
      (hFresh : ∀ main ∈ dag.getMain, s.Fresh main dag.nodes)
      (hStep : dag.build s = some dag') : Built dag'

-- ---------------------------------------------------------------------------
-- Nodes whose numbers are in order
-- ---------------------------------------------------------------------------

/-- The numbers of the signals of a subcomponent. -/
def Edge.getSignalRange (edge : Edge) : List Nat :=
  List.range' (edge.inNumber + 1) (edge.outNumber - edge.inNumber)

/-- The numbers of the node's own signals. -/
def Node.localIds (node : Node) : List Nat := node.localEntries.map Prod.snd

structure Node.Sound (nodes : List Node) (id : Nat) (adjacent : List Edge) (node : Node) :
    Prop where
  inNumber : node.entry.inNumber = 0
  named : ∀ (name : String) (s : Nat), node.signalCorrespondence[name]? = some s →
    1 ≤ s ∧ s ≤ node.numberOfSignals
  apart : ∀ (name name' : String) (s : Nat), node.signalCorrespondence[name]? = some s →
    node.signalCorrespondence[name']? = some s → name = name'
  locals : ∀ s ∈ node.locals, s ≤ node.numberOfSignals
  edges : ∀ e ∈ adjacent, e.goesTo < id ∧ ∃ child, nodes[e.goesTo]? = some child ∧
    e.outNumber = e.inNumber + child.numberOfSignals
  within : ∀ e ∈ adjacent, e.outNumber ≤ node.numberOfSignals
  /-- Every number is that of one signal. -/
  numbers : (node.localIds ++ adjacent.flatMap Edge.getSignalRange).Perm
    (List.range' 1 node.numberOfSignals)
  forbidden : 0 ∈ node.forbiddenIfMain
  /-- Every constraint is one about names, under the numbers of the node. -/
  written : ∀ c ∈ node.constraints, ∃ k : Constraint String,
    k.applyCorrespondence node.signalCorrespondence = some c

structure DAG.Sound (dag : DAG) : Prop where
  length : dag.adjacency.length = dag.nodes.length
  nodes : ∀ (id : Nat) (node : Node) (edges : List Edge), dag.nodes[id]? = some node →
    dag.adjacency[id]? = some edges → node.Sound dag.nodes id edges

namespace Node.Sound

variable {nodes nodes' : List Node} {id : Nat} {edges : List Edge} {node : Node}

/-- Different names have different numbers. -/
theorem numbered_injOn (h : node.Sound nodes id edges) :
    Set.InjOn (numbered node.signalCorrespondence)
      {name | Known node.signalCorrespondence name} := by
  refine Coefficients.numbered_injOn h.apart ?_
  intro name s hStored
  have hBound := (h.named name s hStored).1
  show s ≠ 0
  omega

/-- A constraint of the node mentions the numbers of names only. -/
theorem constraints (h : node.Sound nodes id edges) {c : Constraint Nat}
    (hc : c ∈ node.constraints) {s : Nat} (hs : c.Occurs s) : s ≤ node.numberOfSignals := by
  obtain ⟨k, hOk⟩ := h.written c hc
  obtain ⟨hKnown, rfl⟩ := Constraint.applyCorrespondence_eq_some.mp hOk
  obtain ⟨name, rfl, hName⟩ := (Constraint.occurs_rename (h.numbered_injOn.mono hKnown)).mp hs
  rw [numbered]
  split
  next => exact Nat.zero_le _
  next hNe =>
    obtain ⟨number, hStored⟩ := Store.mem_iff.mp ((hKnown name hName).resolve_left hNe)
    rw [hStored]
    exact (h.named name number hStored).2

/-- A constraint of the node says of the numbers what is written about the names. -/
theorem holds_written (h : node.Sound nodes id edges) {k : Constraint String}
    {c : Constraint Nat} (hOk : k.applyCorrespondence node.signalCorrespondence = some c)
    {R : Type} [CommRing R] (w : Nat → R) :
    c.Holds w ↔ k.Holds (w ∘ numbered node.signalCorrespondence) := by
  obtain ⟨hKnown, rfl⟩ := Constraint.applyCorrespondence_eq_some.mp hOk
  exact Constraint.holds_rename (h.numbered_injOn.mono hKnown)

/-- Only earlier nodes matter. -/
theorem congr (h : node.Sound nodes id edges) (hSame : ∀ i < id, nodes'[i]? = nodes[i]?) :
    node.Sound nodes' id edges :=
  { h with
    edges := fun e he => by
      obtain ⟨hLess, child, hChild, hOut⟩ := h.edges e he
      exact ⟨hLess, child, (hSame _ hLess).trans hChild, hOut⟩ }

/-- A new node is sound. -/
theorem new (nodes : List Node) (id : Nat) (isCustomGate : Bool) :
    (Node.new id isCustomGate).Sound nodes id [] where
  inNumber := rfl
  named name s hStored := by simp [Node.new] at hStored
  apart name name' s hStored := by simp [Node.new] at hStored
  locals s hs := by simp [Node.new] at hs
  edges e he := absurd he List.not_mem_nil
  within e he := absurd he List.not_mem_nil
  numbers := by
    have hNone : (Node.new id isCustomGate).localIds = [] := by
      have hEmpty : (∅ : Store String Nat).toList = [] := Std.ExtTreeMap.toList_eq_nil_iff.mpr rfl
      rw [localIds, localEntries, Node.new, hEmpty]
      rfl
    rw [hNone]
    exact .nil
  forbidden := by
    show 0 ∈ Std.ExtTreeSet.ofList [0] compare
    decide +kernel
  written c hc := absurd hc List.not_mem_nil

/-- A new signal takes the next number. -/
theorem localIds_addSignal (h : node.Sound nodes id edges) {name : String}
    (hFresh : name ∉ node.signalCorrespondence) :
    (node.addSignal name).localIds.Perm (node.localIds ++ [node.numberOfSignals + 1]) := by
  have hPerm := Store.toList_insert_perm (node.numberOfSignals + 1) (Store.notMem_iff.mp hFresh)
  have hOld : ∀ entry ∈ node.signalCorrespondence.toList,
      (node.addSignal name).isLocalSignal entry.2 = node.isLocalSignal entry.2 := by
    intro entry hIn
    have hBound := (h.named entry.1 entry.2 (Store.mem_toList.mp hIn)).2
    rw [Bool.eq_iff_iff]
    simp only [isLocalSignal, Node.addSignal, decide_eq_true_eq, Std.ExtTreeSet.mem_insert,
      Std.compare_eq_iff_eq]
    exact or_iff_right (by omega)
  have hNew : (node.addSignal name).isLocalSignal (node.numberOfSignals + 1) = true := by
    simp [isLocalSignal, Node.addSignal]
  refine ((hPerm.filter fun entry => (node.addSignal name).isLocalSignal entry.2).map
    Prod.snd).trans ?_
  rw [List.filter_cons_of_pos (by exact hNew), List.filter_congr hOld, List.map_cons]
  exact (List.perm_append_singleton _ _).symm

/-- A signal under a fresh name keeps the node sound. -/
theorem addSignal (h : node.Sound nodes id edges) {name : String}
    (hFresh : name ∉ node.signalCorrespondence) :
    (node.addSignal name).Sound nodes id edges := by
  -- a number is the new one, or that of an old name
  have hStored : ∀ {name' : String} {s : Nat},
      (node.addSignal name).signalCorrespondence[name']? = some s →
        (name' = name ∧ s = node.numberOfSignals + 1) ∨
          node.signalCorrespondence[name']? = some s := by
    intro name' s hStored
    rw [Node.addSignal, Store.get?_insert] at hStored
    split at hStored
    next hName => exact .inl ⟨hName, (Option.some.inj hStored).symm⟩
    next => exact .inr hStored
  refine ⟨h.inNumber, ?_, ?_, ?_, h.edges, fun e he => (h.within e he).trans (Nat.le_succ _), ?_,
    h.forbidden, ?_⟩
  · intro name' s hIn
    show 1 ≤ s ∧ s ≤ node.numberOfSignals + 1
    rcases hStored hIn with ⟨-, rfl⟩ | hOld
    · omega
    · have hBound := h.named name' s hOld
      omega
  · intro name₁ name₂ s h₁ h₂
    rcases hStored h₁ with ⟨rfl, rfl⟩ | hOld₁
    · rcases hStored h₂ with ⟨rfl, -⟩ | hOld₂
      · rfl
      · exact absurd (h.named name₂ _ hOld₂).2 (by omega)
    · rcases hStored h₂ with ⟨rfl, rfl⟩ | hOld₂
      · exact absurd (h.named name₁ _ hOld₁).2 (by omega)
      · exact h.apart name₁ name₂ s hOld₁ hOld₂
  · intro s hs
    show s ≤ node.numberOfSignals + 1
    rw [Node.addSignal, Std.ExtTreeSet.mem_insert, Std.compare_eq_iff_eq] at hs
    rcases hs with rfl | hOld
    · exact Nat.le_refl _
    · exact (h.locals s hOld).trans (Nat.le_succ _)
  · refine ((h.localIds_addSignal hFresh).append_right _).trans ?_
    rw [List.append_assoc]
    refine (List.perm_append_comm.append_left _).trans ?_
    rw [← List.append_assoc]
    refine (h.numbers.append_right _).trans ?_
    rw [Node.addSignal, List.range'_1_concat, Nat.add_comm]
  · intro c hc
    obtain ⟨k, hOk⟩ := h.written c hc
    refine ⟨k, Constraint.applyCorrespondence_mono hOk ?_⟩
    intro name' s hOld
    rw [Node.addSignal, Store.get?_insert_ne]
    · exact hOld
    · rintro rfl
      exact hFresh (Store.mem_iff.mpr ⟨s, hOld⟩)

theorem nodup_innerEntries {label : String} {inNumber : Nat} (child : Node) :
    ((DAG.innerEntries label inNumber child).map Prod.fst).Nodup := by
  rw [DAG.innerEntries, List.map_map]
  have hNodup : (child.localEntries.map Prod.fst).Nodup :=
    (Store.nodup_keys_toList child.signalCorrespondence).sublist
      (List.filter_sublist.map Prod.fst)
  have hInj : Function.Injective fun name : String => label ++ "." ++ name :=
    fun a b hEq => (String.append_right_inj (label ++ ".")).mp hEq
  have hMap := hNodup.map hInj
  rw [List.map_map] at hMap
  exact hMap

/-- A subcomponent takes the next block of numbers. -/
theorem localIds_reserve (h : node.Sound nodes id edges) {child : Node} {to_ : Nat}
    {label : String} {childEdges : List Edge} (hSound : child.Sound nodes to_ childEdges)
    (hFresh : ∀ entry ∈ child.localEntries,
      label ++ "." ++ entry.1 ∉ node.signalCorrespondence) :
    (DAG.reserve node child label).localIds.Perm node.localIds := by
  have hNew : ∀ k ∈ (DAG.innerEntries label node.numberOfSignals child).map Prod.fst,
      k ∉ node.signalCorrespondence := by
    intro k hk
    obtain ⟨_, hEntry, rfl⟩ := List.mem_map.mp hk
    obtain ⟨entry, hIn, rfl⟩ := List.mem_map.mp hEntry
    exact hFresh entry hIn
  have hPerm := Store.toList_insertMany_perm (nodup_innerEntries child) hNew
  -- the numbers of the subcomponent's signals are above all of the node's own
  have hNone : (DAG.innerEntries label node.numberOfSignals child).filter
      (fun entry => node.isLocalSignal entry.2) = [] := by
    rw [List.filter_eq_nil_iff]
    intro entry hEntry hLocal
    obtain ⟨inner, hIn, rfl⟩ := List.mem_map.mp hEntry
    have hStored := Store.mem_toList.mp (List.mem_of_mem_filter hIn)
    have hPos := (hSound.named inner.1 inner.2 hStored).1
    have hBound := h.locals _ (of_decide_eq_true hLocal)
    exact absurd hBound (by simp only; omega)
  refine ((hPerm.filter fun entry => node.isLocalSignal entry.2).map Prod.snd).trans ?_
  rw [List.filter_append, hNone, List.nil_append]
  exact .refl _

/-- A subcomponent under fresh names keeps the node sound. -/
theorem reserve (h : node.Sound nodes id edges) {child : Node} {to_ : Nat} {label : String}
    (hLess : to_ < id) (hChild : nodes[to_]? = some child)
    {childEdges : List Edge} (hSound : child.Sound nodes to_ childEdges)
    (hFresh : ∀ entry ∈ child.localEntries,
      label ++ "." ++ entry.1 ∉ node.signalCorrespondence) :
    (DAG.reserve node child label).Sound nodes id (edges ++ [⟨label, to_, node.numberOfSignals,
      node.numberOfSignals + child.numberOfSignals⟩]) := by
  -- a number is that of a signal of the subcomponent, shifted, or that of an old name
  have hStored : ∀ {name : String} {s : Nat},
      (DAG.reserve node child label).signalCorrespondence[name]? = some s →
        (∃ inner number, name = label ++ "." ++ inner ∧ s = node.numberOfSignals + number ∧
          child.signalCorrespondence[inner]? = some number) ∨
        node.signalCorrespondence[name]? = some s := by
    intro name s hStored
    rcases Store.get?_of_insertMany hStored with hIn | ⟨-, hOld⟩
    · obtain ⟨inner, hInner, hEq⟩ := List.mem_map.mp hIn
      injection hEq with hName hNumber
      exact .inl ⟨inner.1, inner.2, hName.symm, hNumber.symm,
        Store.mem_toList.mp (List.mem_of_mem_filter hInner)⟩
    · exact .inr hOld
  refine ⟨h.inNumber, ?_, ?_, ?_, ?_, ?_, ?_, h.forbidden, ?_⟩
  · intro name s hIn
    show 1 ≤ s ∧ s ≤ node.numberOfSignals + child.numberOfSignals
    rcases hStored hIn with ⟨inner, number, -, rfl, hInner⟩ | hOld
    · have hBound := hSound.named inner number hInner
      omega
    · have hBound := h.named name s hOld
      omega
  · intro name₁ name₂ s h₁ h₂
    rcases hStored h₁ with ⟨inner₁, number₁, rfl, rfl, hInner₁⟩ | hOld₁
    · rcases hStored h₂ with ⟨inner₂, number₂, rfl, hEq, hInner₂⟩ | hOld₂
      · obtain rfl : number₁ = number₂ := Nat.add_left_cancel hEq
        rw [hSound.apart inner₁ inner₂ number₁ hInner₁ hInner₂]
      · have hPos := (hSound.named inner₁ number₁ hInner₁).1
        exact absurd (h.named name₂ _ hOld₂).2 (by omega)
    · rcases hStored h₂ with ⟨inner₂, number₂, rfl, rfl, hInner₂⟩ | hOld₂
      · have hPos := (hSound.named inner₂ number₂ hInner₂).1
        exact absurd (h.named name₁ _ hOld₁).2 (by omega)
      · exact h.apart name₁ name₂ s hOld₁ hOld₂
  · intro s hs
    exact (h.locals s hs).trans (Nat.le_add_right _ _)
  · intro e he
    rcases List.mem_append.mp he with hOld | hNew
    · exact h.edges e hOld
    · obtain rfl := List.mem_singleton.mp hNew
      exact ⟨hLess, child, hChild, rfl⟩
  · intro e he
    rcases List.mem_append.mp he with hOld | hNew
    · exact (h.within e hOld).trans (Nat.le_add_right _ _)
    · obtain rfl := List.mem_singleton.mp hNew
      exact Nat.le_refl _
  · refine ((h.localIds_reserve hSound hFresh).append_right _).trans ?_
    rw [List.flatMap_append, ← List.append_assoc]
    refine (h.numbers.append_right _).trans ?_
    rw [List.flatMap_cons, List.flatMap_nil, List.append_nil, Edge.getSignalRange]
    show (_ ++ List.range' (node.numberOfSignals + 1)
      (node.numberOfSignals + child.numberOfSignals - node.numberOfSignals)).Perm
        (List.range' 1 (node.numberOfSignals + child.numberOfSignals))
    rw [Nat.add_sub_cancel_left, Nat.add_comm node.numberOfSignals 1, List.range'_append_1]
  · intro c hc
    obtain ⟨k, hOk⟩ := h.written c hc
    refine ⟨k, Constraint.applyCorrespondence_mono hOk ?_⟩
    intro name s hOld
    refine (Store.get?_insertMany_of_notMem ?_).trans hOld
    intro hNew
    obtain ⟨_, hEntry, rfl⟩ := List.mem_map.mp hNew
    obtain ⟨entry, hIn, rfl⟩ := List.mem_map.mp hEntry
    exact hFresh entry hIn (Store.mem_iff.mpr ⟨s, hOld⟩)

end Node.Sound

-- ---------------------------------------------------------------------------
-- Graphs whose numbers are in order
-- ---------------------------------------------------------------------------

namespace DAG

variable {dag dag' : DAG}

/-- Only the last node changes. -/
theorem Sound.update (h : dag.Sound) {id : Nat} (hLast : id + 1 = dag.nodes.length)
    (hLength : dag'.adjacency.length = dag'.nodes.length)
    (hNodes : ∀ j ≠ id, dag'.nodes[j]? = dag.nodes[j]?)
    (hAdjacency : ∀ j ≠ id, dag'.adjacency[j]? = dag.adjacency[j]?)
    (hNode : ∀ (node : Node) (edges : List Edge), dag'.nodes[id]? = some node →
      dag'.adjacency[id]? = some edges → node.Sound dag.nodes id edges) : dag'.Sound := by
  refine ⟨hLength, ?_⟩
  intro j node edges hStored hEdges
  by_cases hEq : j = id
  · subst hEq
    exact (hNode node edges hStored hEdges).congr fun i hi => hNodes i (Nat.ne_of_lt hi)
  · have hOld := hStored
    rw [hNodes j hEq] at hOld
    rw [hAdjacency j hEq] at hEdges
    have hLess := (List.getElem?_eq_some_iff.mp hOld).1
    exact (h.nodes j node edges hOld hEdges).congr fun i hi => hNodes i (by omega)

theorem sound_new : Sound new := ⟨rfl, fun _ _ _ hStored => by simp [new] at hStored⟩

/-- A new node keeps the graph sound. -/
theorem Sound.addNode (h : dag.Sound) (isCustomGate : Bool) : (dag.addNode isCustomGate).Sound := by
  refine ⟨?_, ?_⟩
  · simp [DAG.addNode, h.length]
  · intro j node edges hStored hEdges
    have hSame : ∀ i < dag.nodes.length,
        (dag.nodes ++ [Node.new dag.nodes.length isCustomGate])[i]? = dag.nodes[i]? :=
      fun i hi => List.getElem?_append_left hi
    simp only [DAG.addNode] at hStored hEdges ⊢
    by_cases hLess : j < dag.nodes.length
    · rw [hSame j hLess] at hStored
      rw [List.getElem?_append_left (h.length ▸ hLess)] at hEdges
      exact (h.nodes j node edges hStored hEdges).congr fun i hi => hSame i (by omega)
    · have hBound := (List.getElem?_eq_some_iff.mp hStored).1
      rw [List.length_append, List.length_singleton] at hBound
      obtain rfl : j = dag.nodes.length := by omega
      rw [List.getElem?_concat_length] at hStored
      rw [← h.length, List.getElem?_concat_length] at hEdges
      obtain rfl := Option.some.inj hStored
      obtain rfl := Option.some.inj hEdges
      exact Node.Sound.new _ _ isCustomGate

theorem getMain_eq {id : Nat} (hLast : id + 1 = dag.nodes.length) :
    dag.getMain = dag.nodes[id]? := by
  rw [getMain, List.getLast?_eq_getElem?]
  congr 1
  omega

/-- What keeps the last node sound keeps the graph sound. -/
theorem Sound.modifyMain (h : dag.Sound) {f : Node → Node}
    (hNode : ∀ (id : Nat) (node : Node) (edges : List Edge), dag.getMain = some node →
      node.Sound dag.nodes id edges → (f node).Sound dag.nodes id edges) :
    (dag.modifyMain f).Sound := by
  by_cases hEmpty : dag.nodes.length = 0
  · rw [List.length_eq_zero_iff] at hEmpty
    refine ⟨by simpa [DAG.modifyMain, hEmpty] using h.length, ?_⟩
    intro j node edges hStored
    simp [DAG.modifyMain, hEmpty] at hStored
  · obtain ⟨id, hLast⟩ : ∃ id, id + 1 = dag.nodes.length := ⟨dag.nodes.length - 1, by omega⟩
    have hIndex : dag.nodes.length - 1 = id := by omega
    refine h.update hLast ?_ ?_ (fun _ _ => rfl) ?_
    · rw [DAG.modifyMain, List.length_modify, h.length]
    · intro j hj
      rw [DAG.modifyMain, hIndex, List.getElem?_modify_ne f _ (Ne.symm hj)]
    · intro node edges hStored hEdges
      rw [DAG.modifyMain, hIndex, List.getElem?_modify_eq, Option.map_eq_map,
        Option.map_eq_some_iff] at hStored
      obtain ⟨old, hOld, rfl⟩ := hStored
      exact hNode id old edges ((getMain_eq hLast).trans hOld) (h.nodes id old edges hOld hEdges)

/-- A fresh edge keeps the graph sound. -/
theorem Sound.addEdge (h : dag.Sound) {to_ : Nat} {label : String} {edge : Option Edge}
    (hFresh : ∀ main ∈ dag.getMain, BuildStep.Fresh main dag.nodes (.edge to_ label))
    (hOk : dag.addEdge to_ label = some (dag', edge)) : dag'.Sound := by
  rw [DAG.addEdge, mainId] at hOk
  split at hOk
  next => exact absurd hOk nofun
  next hSome =>
    obtain ⟨id, hLast⟩ : ∃ id, id + 1 = dag.nodes.length := ⟨dag.nodes.length - 1, by omega⟩
    have hIndex : dag.nodes.length - 1 = id := by omega
    simp only [hIndex, Option.bind_eq_bind, Option.bind_some] at hOk
    split at hOk
    next hLess =>
      simp only [Option.bind_eq_some_iff] at hOk
      obtain ⟨node, hNode, child, hChild, hEq⟩ := hOk
      obtain ⟨rfl, -⟩ := Prod.mk.inj (Option.some.inj hEq)
      have hLength : id < dag.nodes.length := by omega
      refine h.update hLast ?_ ?_ ?_ ?_
      · simp [h.length]
      · intro j hj
        rw [List.getElem?_set_ne (Ne.symm hj)]
      · intro j hj
        rw [List.getElem?_modify_ne _ _ (Ne.symm hj)]
      · intro node' edges hStored hEdges
        rw [List.getElem?_set_self hLength] at hStored
        rw [List.getElem?_modify_eq, Option.map_eq_map, Option.map_eq_some_iff] at hEdges
        obtain rfl := Option.some.inj hStored
        obtain ⟨old, hOld, rfl⟩ := hEdges
        obtain ⟨childEdges, hChildEdges⟩ : ∃ childEdges, dag.adjacency[to_]? = some childEdges :=
          ⟨_, List.getElem?_eq_getElem (by rw [h.length]; omega)⟩
        exact (h.nodes id node old hNode hOld).reserve hLess hChild
          (h.nodes to_ child childEdges hChild hChildEdges)
          (hFresh node ((getMain_eq hLast).trans hNode) child hChild)
    next =>
      obtain ⟨rfl, -⟩ := Prod.mk.inj (Option.some.inj hOk)
      exact h

/-- A constraint is written if every name in it has a number. -/
theorem buildConstraint_eq_some {k : Constraint String} :
    dag.buildConstraint k = some dag' ↔ ∃ main c, dag.getMain = some main ∧
      k.applyCorrespondence main.signalCorrespondence = some c ∧ dag.addConstraint c = dag' := by
  simp only [buildConstraint, Option.bind_eq_bind, Option.bind_eq_some_iff, Option.pure_def,
    Option.some.injEq]
  exact ⟨fun ⟨main, hMain, c, hOk, hEq⟩ => ⟨main, c, hMain, hOk, hEq⟩,
    fun ⟨main, c, hMain, hOk, hEq⟩ => ⟨main, hMain, c, hOk, hEq⟩⟩

/-- One step of building. -/
theorem Sound.build (h : dag.Sound) {s : BuildStep}
    (hFresh : ∀ main ∈ dag.getMain, s.Fresh main dag.nodes)
    (hStep : dag.build s = some dag') : dag'.Sound := by
  cases s with
  | node isCustomGate =>
    obtain rfl := Option.some.inj hStep
    exact h.addNode isCustomGate
  | input name isPublic =>
    obtain rfl := Option.some.inj hStep
    refine h.modifyMain ?_
    intro id node edges hMain hSound
    have hAdded := hSound.addSignal (hFresh node hMain)
    rw [Node.addInput]
    split
    · exact { hAdded with forbidden := Std.ExtTreeSet.mem_insert.mpr (.inr hSound.forbidden) }
    · exact { hAdded with }
  | output name =>
    obtain rfl := Option.some.inj hStep
    refine h.modifyMain ?_
    intro id node edges hMain hSound
    exact { hSound.addSignal (hFresh node hMain) with
      forbidden := Std.ExtTreeSet.mem_insert.mpr (.inr hSound.forbidden) }
  | intermediate name =>
    obtain rfl := Option.some.inj hStep
    refine h.modifyMain ?_
    intro id node edges hMain hSound
    exact { hSound.addSignal (hFresh node hMain) with }
  | constraint k =>
    obtain ⟨main, c, hMain, hOk, rfl⟩ := DAG.buildConstraint_eq_some.mp hStep
    refine h.modifyMain ?_
    intro id node edges hNode hSound
    obtain rfl := Option.some.inj (hMain.symm.trans hNode)
    refine { hSound with written := ?_ }
    intro c' hc'
    rcases List.mem_append.mp hc' with hOld | hNew
    · exact hSound.written c' hOld
    · obtain rfl := List.mem_singleton.mp hNew
      exact ⟨k, hOk⟩
  | edge to_ label =>
    obtain ⟨⟨dag'', edge⟩, hOk, rfl⟩ := Option.map_eq_some_iff.mp hStep
    exact h.addEdge hFresh hOk

/-- Every graph that can be built is in order. -/
theorem sound_of_built (h : Built dag) : dag.Sound := by
  induction h with
  | new => exact sound_new
  | step _ hFresh hStep ih => exact ih.build hFresh hStep

end DAG

-- ---------------------------------------------------------------------------
-- Circuits
-- ---------------------------------------------------------------------------

namespace Tree

variable {dag : DAG} {t : Tree}

/-- A subcircuit is a node of the graph with an offset; of the constraints nothing is said but
that they are shifted ones of the node. -/
structure At (dag : DAG) (t : Tree) (node : Node) : Prop where
  found : dag.nodes[t.nodeId]? = some node
  signals : t.signals = localSignals node t.offset
  constraints : ∀ c ∈ t.constraints, ∃ k ∈ node.constraints, c = k.applyOffset t.offset

/-- The root of the tree is the last node, at no offset. -/
theorem at_new (h : dag.Sound) (hNew : Tree.new dag = some t) :
    ∃ main, dag.getMain = some main ∧ At dag t main ∧ t.offset = 0 ∧
      t.nodeId < dag.nodes.length := by
  simp only [Tree.new, Option.bind_eq_bind, Option.bind_eq_some_iff, DAG.mainId] at hNew
  obtain ⟨main, hMain, id, hId, hEq⟩ := hNew
  obtain rfl := Option.some.inj hEq
  split at hId
  next => exact absurd hId nofun
  next hSome =>
    obtain rfl := Option.some.inj hId
    have hNode : dag.nodes[dag.nodes.length - 1]? = some main := by
      rw [← DAG.getMain_eq (by omega), hMain]
    have hLess := (List.getElem?_eq_some_iff.mp hNode).1
    have hZero := (h.nodes _ main _ hNode
      (List.getElem?_eq_getElem (by rw [h.length]; exact hLess))).inNumber
    refine ⟨main, hMain, ⟨hNode, rfl, ?_⟩, hZero, hLess⟩
    intro c hc
    refine ⟨c, hc, ?_⟩
    rw [hZero, Constraint.applyOffset_zero]

theorem exists_new {main : Node} (hMain : dag.getMain = some main) :
    ∃ t, Tree.new dag = some t := by
  have hSome : dag.nodes.length ≠ 0 := by
    intro hEmpty
    rw [List.length_eq_zero_iff] at hEmpty
    simp [DAG.getMain, hEmpty] at hMain
  refine ⟨⟨main.entry.inNumber, dag.nodes.length - 1, localSignals main main.entry.inNumber,
    main.constraints⟩, ?_⟩
  rw [Tree.new, hMain, DAG.mainId, if_neg hSome]
  rfl

/-- An edge leads to its node, at the offset of the edge. -/
theorem goToSubtree_eq {e : Edge} {child : Node} (hChild : dag.nodes[e.goesTo]? = some child) :
    ∃ t', goToSubtree dag t e = some t' ∧ At dag t' child ∧ t'.offset = t.offset + e.inNumber ∧
      t'.nodeId = e.goesTo := by
  refine ⟨_, by rw [goToSubtree, hChild]; rfl, ⟨hChild, rfl, ?_⟩, rfl, rfl⟩
  intro c hc
  obtain ⟨k, hk, rfl⟩ := List.mem_map.mp hc
  exact ⟨k, List.mem_of_mem_filter hk, rfl⟩

/-- The signals of all subcircuits have the numbers after the offset, each once, and the
constraints mention these signals only. -/
structure Covers (dag : DAG) (t : Tree) (ts : List Tree) : Prop where
  signals : ∀ node, dag.nodes[t.nodeId]? = some node →
    (ts.flatMap Tree.signals).Perm (List.range' (t.offset + 1) node.numberOfSignals)
  constraints : ∀ node, dag.nodes[t.nodeId]? = some node →
    ∀ t' ∈ ts, ∀ c ∈ t'.constraints, ∀ s, c.Occurs s → s ≤ t.offset + node.numberOfSignals

/-- The signals of a subtree's own are its numbers, moved by the offset. -/
theorem localSignals_perm (node : Node) (offset : Nat) :
    (localSignals node offset).Perm (node.localIds.map (offset + ·)) := by
  refine (List.mergeSort_perm _ _).trans ?_
  rw [Node.localIds, List.map_map]
  refine List.Perm.of_eq (List.map_congr_left ?_)
  exact fun entry _ => Nat.add_comm _ _

/-- What the subcircuits below a node cover. -/
theorem Covers.below {node : Node} {edges : List Edge}
    (hSound : node.Sound dag.nodes t.nodeId edges) {es : List Edge} {below : List (List Tree)}
    (hes : ∀ e ∈ es, e ∈ edges)
    (h : List.Forall₂ (fun e ts => ∃ t', goToSubtree dag t e = some t' ∧ Covers dag t' ts) es
      below) :
    (below.flatten.flatMap Tree.signals).Perm
      ((es.flatMap Edge.getSignalRange).map (t.offset + ·)) ∧
      ∀ t' ∈ below.flatten, ∀ c ∈ t'.constraints, ∀ s, c.Occurs s →
        ∃ e ∈ edges, s ≤ t.offset + e.outNumber := by
  induction h with
  | nil => exact ⟨.nil, fun t' ht' => absurd ht' List.not_mem_nil⟩
  | @cons e ts es below hFirst _ ih =>
    rw [List.forall_mem_cons] at hes
    obtain ⟨hPerm, hBound⟩ := ih hes.2
    obtain ⟨t', hDescend, hCovers⟩ := hFirst
    obtain ⟨-, child, hChild, hOut⟩ := hSound.edges e hes.1
    obtain ⟨t'', hDescend', hAt, hOffset, hId⟩ := goToSubtree_eq (t := t) hChild
    obtain rfl := Option.some.inj (hDescend.symm.trans hDescend')
    constructor
    · rw [List.flatten_cons, List.flatMap_append, List.flatMap_cons, List.map_append]
      refine .append ((hCovers.signals child hAt.found).trans ?_) hPerm
      rw [hOffset, Edge.getSignalRange, hOut, Nat.add_sub_cancel_left, List.map_add_range',
        Nat.add_assoc]
    · intro u hu c hc s hs
      rw [List.flatten_cons, List.mem_append] at hu
      rcases hu with hu | hu
      · have hLe := hCovers.constraints child hAt.found u hu c hc s hs
        exact ⟨e, hes.1, by omega⟩
      · exact hBound u hu c hc s hs

/-- Below a subcircuit there are subcircuits, of earlier nodes. -/
theorem exists_edges (h : dag.Sound) {node : Node} (hAt : At dag t node) :
    ∃ edges, getEdges dag t = some edges ∧ node.Sound dag.nodes t.nodeId edges ∧
      ∀ e ∈ edges, ∃ t', goToSubtree dag t e = some t' ∧ (∃ child, At dag t' child) ∧
        t'.nodeId < t.nodeId := by
  have hLess := (List.getElem?_eq_some_iff.mp hAt.found).1
  obtain ⟨edges, hEdges⟩ : ∃ edges, dag.adjacency[t.nodeId]? = some edges :=
    ⟨_, List.getElem?_eq_getElem (by rw [h.length]; exact hLess)⟩
  have hSound := h.nodes t.nodeId node edges hAt.found hEdges
  refine ⟨edges, hEdges, hSound, ?_⟩
  intro e he
  obtain ⟨hDown, child, hChild, -⟩ := hSound.edges e he
  obtain ⟨t', hDescend, hAt', -, hId⟩ := goToSubtree_eq (t := t) hChild
  exact ⟨t', hDescend, ⟨child, hAt'⟩, by omega⟩

/-- Every subcircuit is a node of the graph. -/
theorem at_of_all (h : dag.Sound) {node : Node} (hAt : At dag t node)
    {trees : List Tree} (hAll : all dag t = some trees) : ∀ t ∈ trees, ∃ node, At dag t node := by
  obtain ⟨trees', hAll', hEach⟩ := Preorder.exists_subtrees (fun t => ∃ node, At dag t node)
    (fun t => t.nodeId) (fun _ ts => ∀ t ∈ ts, ∃ node, At dag t node) (by
      rintro t ⟨node, hAt⟩
      obtain ⟨edges, hEdges, -, hDown⟩ := exists_edges h hAt
      refine ⟨edges, hEdges, hDown, ?_⟩
      intro below hBelow t' ht'
      rcases List.mem_cons.mp ht' with rfl | hIn
      · exact ⟨node, hAt⟩
      · obtain ⟨ts, hts, hIn⟩ := List.mem_flatten.mp hIn
        obtain ⟨e, -, t'', -, hAll⟩ := Fuel.exists_item hBelow hts
        exact hAll t' hIn)
    dag.nodes.length t ⟨node, hAt⟩ (List.getElem?_eq_some_iff.mp hAt.found).1
  obtain rfl := Option.some.inj (hAll.symm.trans hAll')
  exact hEach

/-- Every circuit unfolds, and its numbers are in order. -/
theorem exists_all (h : dag.Sound) {node : Node} (hAt : At dag t node) :
    ∃ ts, Tree.all dag t = some ts ∧ Covers dag t ts := by
  refine Preorder.exists_subtrees (fun t => ∃ node, At dag t node) (fun t => t.nodeId)
    (Covers dag) ?_ dag.nodes.length t ⟨node, hAt⟩ (List.getElem?_eq_some_iff.mp hAt.found).1
  rintro t ⟨node, hAt⟩
  obtain ⟨edges, hEdges, hSound, hDown⟩ := exists_edges h hAt
  refine ⟨edges, hEdges, hDown, ?_⟩
  intro below hBelow
  obtain ⟨hPerm, hBound⟩ := Covers.below hSound (fun _ he => he) hBelow
  constructor
  · intro node' hNode'
    obtain rfl := Option.some.inj (hAt.found.symm.trans hNode')
    rw [List.flatMap_cons, hAt.signals]
    refine ((localSignals_perm node t.offset).append hPerm).trans ?_
    rw [← List.map_append]
    refine (hSound.numbers.map _).trans ?_
    rw [List.map_add_range']
  · intro node' hNode' t' ht' c hc s hs
    obtain rfl := Option.some.inj (hAt.found.symm.trans hNode')
    rcases List.mem_cons.mp ht' with rfl | hIn
    · obtain ⟨k, hk, rfl⟩ := hAt.constraints c hc
      obtain ⟨s', rfl, hs'⟩ := Constraint.occurs_applyOffset.mp hs
      have hLe := hSound.constraints hk hs'
      rw [Coefficients.shift]
      split <;> omega
    · obtain ⟨e, he, hLe⟩ := hBound t' hIn c hc s hs
      have hOut := hSound.within e he
      omega

end Tree

/-- The number of signals of the whole circuit. -/
def DAG.numberOfSignals (dag : DAG) : Nat := dag.getMain.elim 0 Node.numberOfSignals

/-- Pushing the signals of many subtrees lists all of them. -/
theorem foldlM_pushSignals (ts : List Tree) (witness : List Nat) :
    ts.foldlM pushSignals witness = some (witness ++ ts.flatMap Tree.signals) := by
  induction ts generalizing witness with
  | nil => rw [List.foldlM_nil, List.flatMap_nil, List.append_nil]; rfl
  | cons t ts ih =>
    rw [List.foldlM_cons, pushSignals, Option.bind_eq_bind, Option.bind_some, ih,
      List.flatMap_cons, List.append_assoc]

/-- A circuit that is in order unfolds into subcircuits whose signals have the numbers from one
on. -/
theorem DAG.Sound.unfolds {dag : DAG} (h : dag.Sound) (hMain : dag.nodes ≠ []) :
    ∃ root trees, Tree.new dag = some root ∧ Tree.all dag root = some trees ∧
      (trees.flatMap Tree.signals).Perm (List.range' 1 dag.numberOfSignals) ∧
      ∀ t ∈ trees, ∀ c ∈ t.constraints, ∀ s, c.Occurs s → s ≤ dag.numberOfSignals := by
  obtain ⟨main, hLast⟩ : ∃ main, dag.getMain = some main :=
    ⟨_, List.getLast?_eq_some_getLast hMain⟩
  obtain ⟨root, hRoot⟩ := Tree.exists_new hLast
  obtain ⟨main', hLast', hAt, hZero, -⟩ := Tree.at_new h hRoot
  obtain rfl := Option.some.inj (hLast.symm.trans hLast')
  obtain ⟨trees, hAll, hCovers⟩ := Tree.exists_all h hAt
  have hNumber : dag.numberOfSignals = main.numberOfSignals := by
    rw [DAG.numberOfSignals, hLast]
    rfl
  refine ⟨root, trees, hRoot, hAll, ?_, ?_⟩
  · have hSignals := hCovers.signals main hAt.found
    rw [hZero] at hSignals
    rwa [hNumber]
  · intro t ht c hc s hs
    have hLe := hCovers.constraints main hAt.found t ht c hc s hs
    omega

/-- The constraint comes from one about names, and says of the numbers of a subcircuit what that
one says of the names. -/
def Node.Wrote (node : Node) (offset : Nat) (c : Constraint Nat) : Prop :=
  ∃ (k : Constraint String) (c' : Constraint Nat), c' ∈ node.constraints ∧
    k.applyCorrespondence node.signalCorrespondence = some c' ∧
    ∀ {R : Type} [CommRing R] (w : Nat → R), c.Holds w ↔
      k.Holds fun name => w (shift offset (numbered node.signalCorrespondence name))

/-- The constraints of a subtree are those written in its node. -/
theorem Tree.At.wrote {dag : DAG} {t : Tree} {node : Node} (h : dag.Sound)
    (hAt : Tree.At dag t node) : ∀ c ∈ t.constraints, node.Wrote t.offset c := by
  intro c hc
  obtain ⟨edges, -, hSound, -⟩ := Tree.exists_edges h hAt
  obtain ⟨c', hc', rfl⟩ := hAt.constraints c hc
  obtain ⟨k, hOk⟩ := hSound.written c' hc'
  refine ⟨k, c', hc', hOk, ?_⟩
  intro R _ w
  exact Constraint.holds_applyOffset.trans (hSound.holds_written hOk _)

/-- **Every signal has one number.** Whatever sequence of steps has built a graph, its circuit
unfolds, and the witness lists every number from zero to the number of signals once: zero is the
constant, and no two signals of the shared nodes have the same number. Every number that a
constraint of the circuit mentions is among them, and the constraints of every subcircuit say of
its signals what is written about their names. -/
theorem DAG.produceWitness_perm {dag : DAG} (h : Built dag) (hMain : dag.nodes ≠ []) :
    ∃ root trees witness, Tree.new dag = some root ∧ Tree.all dag root = some trees ∧
      dag.produceWitness = some witness ∧
      witness.Perm (List.range (dag.numberOfSignals + 1)) ∧
      (∀ t ∈ trees, ∀ c ∈ t.constraints, ∀ s, c.Occurs s → s ∈ witness) ∧
      ∀ t ∈ trees, ∃ node, dag.nodes[t.nodeId]? = some node ∧
        ∀ c ∈ t.constraints, node.Wrote t.offset c := by
  have hSound := DAG.sound_of_built h
  obtain ⟨root, trees, hRoot, hAll, hPerm, hBound⟩ := hSound.unfolds hMain
  have hWitness : (0 :: trees.flatMap Tree.signals).Perm
      (List.range (dag.numberOfSignals + 1)) := by
    rw [List.range_eq_range', List.range'_succ]
    exact hPerm.cons 0
  refine ⟨root, trees, _, hRoot, hAll, ?_, hWitness, ?_, ?_⟩
  · rw [DAG.produceWitness, hRoot, Option.bind_eq_bind, Option.bind_some, Preorder.preorder_eq]
    exact (congrArg (Option.bind · _) hAll).trans (foldlM_pushSignals trees [0])
  · intro t ht c hc s hs
    rw [hWitness.mem_iff, List.mem_range]
    exact Nat.lt_succ_of_le (hBound t ht c hc s hs)
  · intro t ht
    obtain ⟨main, -, hAtRoot, -, -⟩ := Tree.at_new hSound hRoot
    obtain ⟨node, hAt⟩ := Tree.at_of_all hSound hAtRoot hAll t ht
    exact ⟨node, hAt.found, hAt.wrote hSound⟩

namespace Sample

instance decidableFresh (main : Node) (nodes : List Node) :
    ∀ s : BuildStep, Decidable (s.Fresh main nodes)
  | .node _ => inferInstanceAs (Decidable True)
  | .input name _ => inferInstanceAs (Decidable (name ∉ main.signalCorrespondence))
  | .output name => inferInstanceAs (Decidable (name ∉ main.signalCorrespondence))
  | .intermediate name => inferInstanceAs (Decidable (name ∉ main.signalCorrespondence))
  | .constraint _ => inferInstanceAs (Decidable True)
  | .edge to_ label => inferInstanceAs (Decidable (∀ child ∈ nodes[to_]?,
      ∀ entry ∈ child.localEntries, label ++ "." ++ entry.1 ∉ main.signalCorrespondence))

/-- A step, unless it is not fresh. -/
def buildFresh (dag : DAG) (s : BuildStep) : Option DAG :=
  if ∀ main ∈ dag.getMain, s.Fresh main dag.nodes then dag.build s else none

/-- Fresh steps one after the other build a graph. -/
theorem built_of_foldlM {dag dag' : DAG} (h : Built dag) {steps : List BuildStep}
    (hOk : steps.foldlM buildFresh dag = some dag') : Built dag' := by
  induction steps generalizing dag with
  | nil => exact Option.some.inj hOk ▸ h
  | cons s steps ih =>
    rw [List.foldlM_cons, Option.bind_eq_bind, Option.bind_eq_some_iff] at hOk
    obtain ⟨next, hStep, hRest⟩ := hOk
    rw [buildFresh] at hStep
    split at hStep
    next hFresh => exact ih (.step h hFresh hStep) hRest
    next => exact absurd hStep nofun

/-- `b = a * a`, and a circuit that uses it twice. -/
def buildSteps : List BuildStep :=
  [.node false, .output "b", .input "a" false,
    .constraint ⟨.ofList [("a", 1)] compare, .ofList [("a", 1)] compare,
      .ofList [("b", 1)] compare⟩,
    .node false, .output "y", .input "x" true, .edge 0 "first", .intermediate "z",
    .edge 0 "second",
    .constraint ⟨∅, ∅, .ofList [("x", 12), ("first.a", 1)] compare⟩,
    .constraint ⟨∅, ∅, .ofList [("first.b", 12), ("second.a", 1)] compare⟩,
    .constraint ⟨∅, ∅, .ofList [("y", 12), ("z", 12), ("second.b", 1)] compare⟩]

def dag : DAG := (buildSteps.foldlM buildFresh DAG.new).getD DAG.new

/-- The sample is built. -/
theorem built_dag : Built dag := by
  have hSome : (buildSteps.foldlM buildFresh DAG.new).isSome := by decide +kernel
  obtain ⟨dag', hOk⟩ := Option.isSome_iff_exists.mp hSome
  rw [dag, hOk]
  exact built_of_foldlM .new hOk

theorem nodes_dag : dag.nodes ≠ [] := by
  rw [← List.length_pos_iff]
  decide +kernel

end Sample

open Sample in
theorem DAG.produceWitness_perm_sample :
    ∃ root trees witness, Tree.new dag = some root ∧ Tree.all dag root = some trees ∧
      dag.produceWitness = some witness ∧
      witness.Perm (List.range (dag.numberOfSignals + 1)) ∧
      (∀ t ∈ trees, ∀ c ∈ t.constraints, ∀ s, c.Occurs s → s ∈ witness) ∧
      ∀ t ∈ trees, ∃ node, dag.nodes[t.nodeId]? = some node ∧
        ∀ c ∈ t.constraints, node.Wrote t.offset c :=
  DAG.produceWitness_perm built_dag nodes_dag

end Ganc.Circom
