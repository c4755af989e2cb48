import Ganc.Circom.Renaming
import Ganc.Lib.Preorder

/-!
# circom — the graph of template instances

`dag/src/lib.rs`. A node is an instance of a template: it numbers its own
signals from one on, and gives every subcomponent a range of numbers. An edge
leads to the node of the subcomponent, which is shared by all components that
are the same instance. A circuit is what the last node unfolds to, a subcircuit
(`Tree`) a node with what is to be added to its numbers.

The numbers of components, the texts about templates and the tables that only
the generated code reads are left out. `none` is a panic.
-/

namespace Ganc.Circom

structure Edge where
  label : String
  goesTo : Nat
  inNumber : Nat
  outNumber : Nat

structure Node where
  entry : Edge
  numberOfSignals : Nat
  intermediatesLength : Nat
  publicInputsLength : Nat
  inputsLength : Nat
  outputsLength : Nat
  /-- The node's own signals and those of its subcomponents. -/
  signalCorrespondence : Store String Nat
  locals : SignalSet Nat
  forbiddenIfMain : SignalSet Nat
  constraints : List (Constraint Nat)
  isCustomGate : Bool

structure DAG where
  nodes : List Node
  adjacency : List (List Edge)

-- ---------------------------------------------------------------------------
-- Nodes
-- ---------------------------------------------------------------------------

def Edge.newEntry (id : Nat) : Edge := ⟨"main", id, 0, 0⟩

namespace Node

def new (id : Nat) (isCustomGate : Bool) : Node where
  entry := Edge.newEntry id
  numberOfSignals := 0
  intermediatesLength := 0
  publicInputsLength := 0
  inputsLength := 0
  outputsLength := 0
  signalCorrespondence := ∅
  locals := ∅
  forbiddenIfMain := .ofList [0] compare
  constraints := []
  isCustomGate

/-- What adding an input, an output and an intermediate signal have in common. -/
def addSignal (node : Node) (name : String) : Node :=
  { node with
    signalCorrespondence := node.signalCorrespondence.insert name (node.numberOfSignals + 1)
    locals := node.locals.insert (node.numberOfSignals + 1)
    numberOfSignals := node.numberOfSignals + 1
    entry := { node.entry with outNumber := node.entry.outNumber + 1 } }

def forbid (node : Node) (id : Nat) : Node :=
  { node with forbiddenIfMain := node.forbiddenIfMain.insert id }

def addInput (name : String) (isPublic : Bool) (node : Node) : Node :=
  let added := { node.addSignal name with inputsLength := node.inputsLength + 1 }
  if isPublic then
    { added.forbid (node.numberOfSignals + 1) with
      publicInputsLength := node.publicInputsLength + 1 }
  else added

def addOutput (name : String) (node : Node) : Node :=
  { (node.addSignal name).forbid (node.numberOfSignals + 1) with
    outputsLength := node.outputsLength + 1 }

def addIntermediate (name : String) (node : Node) : Node :=
  { node.addSignal name with intermediatesLength := node.intermediatesLength + 1 }

def addConstraint (constraint : Constraint Nat) (node : Node) : Node :=
  { node with constraints := node.constraints ++ [constraint] }

def isLocalSignal (node : Node) (s : Nat) : Bool := s ∈ node.locals

/-- The names and numbers of the node's own signals. -/
def localEntries (node : Node) : List (String × Nat) :=
  node.signalCorrespondence.toList.filter fun entry => node.isLocalSignal entry.2

def numberOfPublicInputs (node : Node) : Nat := node.publicInputsLength

def numberOfPrivateInputs (node : Node) : Nat := node.inputsLength - node.publicInputsLength

/-- Zeros and constraints without any coefficient are dropped. -/
def cleanConstraints (node : Node) : Node :=
  { node with
    constraints := (node.constraints.map Constraint.removeZeroValueCoefficients).filter
      fun constraint => !constraint.isEmpty }

end Node

-- ---------------------------------------------------------------------------
-- The graph
-- ---------------------------------------------------------------------------

namespace DAG

def new : DAG := ⟨[], []⟩

def addNode (dag : DAG) (isCustomGate : Bool) : DAG where
  nodes := dag.nodes ++ [Node.new dag.nodes.length isCustomGate]
  adjacency := dag.adjacency ++ [[]]

/-- The index of the last node; there has to be one. -/
def mainId (dag : DAG) : Option Nat :=
  if dag.nodes.length = 0 then none else some (dag.nodes.length - 1)

def getMain (dag : DAG) : Option Node := dag.nodes.getLast?

/-- Without a node nothing happens. -/
def modifyMain (dag : DAG) (f : Node → Node) : DAG :=
  { dag with nodes := dag.nodes.modify (dag.nodes.length - 1) f }

def addInput (dag : DAG) (name : String) (isPublic : Bool) : DAG :=
  dag.modifyMain (Node.addInput name isPublic)

def addOutput (dag : DAG) (name : String) : DAG := dag.modifyMain (Node.addOutput name)

def addIntermediate (dag : DAG) (name : String) : DAG := dag.modifyMain (Node.addIntermediate name)

def addConstraint (dag : DAG) (constraint : Constraint Nat) : DAG :=
  dag.modifyMain (Node.addConstraint constraint)

/-- One turn of the loop of `build_constraints`: the constraints of a template are about the
names of its signals. Panics at a name that the node does not know. -/
def buildConstraint (dag : DAG) (c : Constraint String) : Option DAG := do
  let main ← dag.getMain
  let cc ← c.applyCorrespondence main.signalCorrespondence
  return dag.addConstraint cc

/-- The names a subcomponent's own signals get in the node it is part of. -/
def innerEntries (label : String) (inNumber : Nat) (child : Node) : List (String × Nat) :=
  child.localEntries.map fun entry => (label ++ "." ++ entry.1, inNumber + entry.2)

/-- The node after a subcomponent has been given the next numbers. -/
def reserve (node child : Node) (label : String) : Node :=
  { node with
    numberOfSignals := node.numberOfSignals + child.numberOfSignals
    entry := { node.entry with outNumber := node.entry.outNumber + child.numberOfSignals }
    signalCorrespondence := node.signalCorrespondence.insertMany
      (innerEntries label node.numberOfSignals child) }

/-- The edge goes to an earlier node, or there is none. -/
def addEdge (dag : DAG) (to_ : Nat) (label : String) : Option (DAG × Option Edge) := do
  let from_ ← dag.mainId
  if to_ < from_ then
    let node ← dag.nodes[from_]?
    let child ← dag.nodes[to_]?
    let inNumber := node.numberOfSignals
    let with_ : Edge := ⟨label, to_, inNumber, inNumber + child.numberOfSignals⟩
    return (⟨dag.nodes.set from_ (reserve node child label),
      dag.adjacency.modify from_ (· ++ [with_])⟩, some with_)
  else return (dag, none)

def publicInputs (dag : DAG) : Nat := dag.getMain.elim 0 Node.numberOfPublicInputs

def privateInputs (dag : DAG) : Nat := dag.getMain.elim 0 Node.numberOfPrivateInputs

def publicOutputs (dag : DAG) : Nat := dag.getMain.elim 0 Node.outputsLength

def cleanConstraints (dag : DAG) : DAG :=
  { dag with nodes := dag.nodes.map Node.cleanConstraints }

end DAG

-- ---------------------------------------------------------------------------
-- The tree
-- ---------------------------------------------------------------------------

structure Tree where
  offset : Nat
  nodeId : Nat
  signals : List Nat
  constraints : List (Constraint Nat)

namespace Tree

/-- The numbers of the node's own signals in the circuit, in order. -/
def localSignals (node : Node) (offset : Nat) : List Nat :=
  (node.localEntries.map fun entry => entry.2 + offset).mergeSort

def new (dag : DAG) : Option Tree := do
  let root ← dag.getMain
  let nodeId ← dag.mainId
  let offset := root.entry.inNumber
  return ⟨offset, nodeId, localSignals root offset, root.constraints⟩

def goToSubtree (dag : DAG) (current : Tree) (edge : Edge) : Option Tree := do
  let nodeId := edge.goesTo
  let node ← dag.nodes[nodeId]?
  let offset := current.offset + edge.inNumber
  return ⟨offset, nodeId, localSignals node offset,
    (node.constraints.filter fun c => !c.isEmpty).map fun c => c.applyOffset offset⟩

def getEdges (dag : DAG) (tree : Tree) : Option (List Edge) := dag.adjacency[tree.nodeId]?

/-- All subcircuits of a circuit. An edge leads to an earlier node, so no path is longer than
the list of nodes. -/
def all (dag : DAG) (tree : Tree) : Option (List Tree) :=
  Preorder.subtrees (getEdges dag) (goToSubtree dag) dag.nodes.length tree

end Tree

/-- The loop of `produce_tree_witness` over the signals of one subcircuit. -/
def pushSignals (witness : List Nat) (tree : Tree) : Option (List Nat) :=
  some (witness ++ tree.signals)

def DAG.produceWitness (dag : DAG) : Option (List Nat) := do
  Preorder.preorder (Tree.getEdges dag) (Tree.goToSubtree dag) pushSignals dag.nodes.length [0]
    (← Tree.new dag)

end Ganc.Circom
