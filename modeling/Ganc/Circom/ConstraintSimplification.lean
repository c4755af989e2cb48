import Ganc.Circom.Clusters
import Ganc.Circom.ConstraintStorage
import Ganc.Circom.DAG
import Ganc.Circom.SimplificationUtils

/-!
# circom — the simplification of a circuit

`constraint_list/src/constraint_simplification.rs`, with the parts of `lib.rs`,
`state_utils.rs` and `non_linear_utils.rs` it works on. Equalities of two
signals, signals that are constant, and all other linear constraints are turned
into substitutions, one kind after the other; they are applied to the
constraints that are not linear, and as long as that makes some of them linear,
rounds follow. At the end the signals that are left are numbered again.

Results of threads arrive in any order, like the entries of a hash map. `none`
is a panic, or too little fuel. The log of the substitutions is left out.
-/

namespace Ganc.Circom

abbrev SEncoded := Store Nat (ArithmeticExpression Nat)

abbrev SignalMap := Store Nat Nat

/-- The constraints that a signal may be in. -/
abbrev SignalToConstraints := Store Nat (List Nat)

-- ---------------------------------------------------------------------------
-- The encoding of a circuit
-- ---------------------------------------------------------------------------

structure EncodingNode where
  nonLinear : List (Constraint Nat)

structure EncodingEdge where
  goesTo : Nat
  offset : Nat

structure DAGEncoding where
  init : Nat
  nodes : List EncodingNode
  adjacency : List (List EncodingEdge)

structure EncodingIterator where
  nodeId : Nat
  offset : Nat
  nonLinear : List (Constraint Nat)

namespace EncodingIterator

def buildEncodingIterator (encoding : DAGEncoding) (nodeId offset : Nat) :
    Option EncodingIterator := do
  let node ← encoding.nodes[nodeId]?
  return ⟨nodeId, offset, node.nonLinear.map fun constraint => constraint.applyOffset offset⟩

def new (encoding : DAGEncoding) : Option EncodingIterator :=
  buildEncodingIterator encoding encoding.init 0

def next (encoding : DAGEncoding) (iterator : EncodingIterator) (edge : EncodingEdge) :
    Option EncodingIterator :=
  buildEncodingIterator encoding edge.goesTo (iterator.offset + edge.offset)

def edges (encoding : DAGEncoding) (iterator : EncodingIterator) : Option (List EncodingEdge) :=
  encoding.adjacency[iterator.nodeId]?

/-- The functions on an encoding go through it from the root. -/
def visit {σ : Type} (encoding : DAGEncoding) (f : σ → EncodingIterator → Option σ) (s : σ) :
    Option σ := do
  Preorder.preorder (edges encoding) (next encoding) f encoding.nodes.length s (← new encoding)

end EncodingIterator

structure Simplifier where
  field : Int
  dagEncoding : DAGEncoding
  noPublicInputs : Nat
  noPublicOutputs : Nat
  noPrivateInputs : Nat
  forbidden : SignalSet Nat
  consEqualities : List (Constraint Nat)
  equalities : List (Constraint Nat)
  linear : List (Constraint Nat)
  maxSignal : Nat
  noRounds : Nat
  flagS : Bool
  flagOldHeuristics : Bool

-- ---------------------------------------------------------------------------
-- Equalities
-- ---------------------------------------------------------------------------

/-- The signals of a cluster of equalities, and the least ones. -/
structure EqSignals where
  remains : SignalSet Nat
  minRemains : Option Nat
  remove : SignalSet Nat
  minRemove : Option Nat

def collectSignal (forbidden : SignalSet Nat) (s : EqSignals) (signal : Nat) : EqSignals :=
  if signal ∈ forbidden then
    { s with
      remains := s.remains.insert signal
      minRemains := some (s.minRemains.elim signal fun m => min m signal) }
  else
    { s with
      minRemove := some (s.minRemove.elim signal fun m => min m signal)
      remove := s.remove.insert signal }

/-- All signals of the cluster are equal to this one. -/
def rhSignal (s : EqSignals) : Option (Nat × EqSignals) :=
  match s.minRemains with
  | some signal => some (signal, { s with remains := s.remains.erase signal })
  | none => s.minRemove.map fun signal => (signal, { s with remove := s.remove.erase signal })

def equalSignals (field : Int) (rh signal : Nat) : Option (Constraint Nat) := do
  let expr ← ArithmeticExpression.sub (.signal signal) (.signal rh) field
  ArithmeticExpression.transformExpressionToConstraintForm expr field

/-- A cluster of one equality. -/
def eqSingleSimplification (forbidden : SignalSet Nat) (constraint : Constraint Nat) :
    Option (List (Substitution Nat) × List (Constraint Nat)) := do
  let signals := constraint.takeClonedSignals.toList
  let s₀ ← signals[0]?
  let s₁ ← signals[1]?
  if s₀ ∈ forbidden ∧ s₁ ∈ forbidden then return ([], [constraint])
  else if s₀ ∈ forbidden then return ([← Substitution.new s₁ (.signal s₀)], [])
  else if s₁ ∈ forbidden then return ([← Substitution.new s₀ (.signal s₁)], [])
  else return ([← Substitution.new (max s₀ s₁) (.signal (min s₀ s₁))], [])

/-- A cluster of more than one. -/
def eqManySimplification (order : HashOrder) (forbidden : SignalSet Nat) (field : Int)
    (constraints : List (Constraint Nat)) :
    Option (List (Substitution Nat) × List (Constraint Nat)) := do
  let signals := constraints.flatMap fun c => c.takeClonedSignals.toList
  let (rh, s) ← rhSignal (signals.foldl (collectSignal forbidden) ⟨∅, none, ∅, none⟩)
  let cons ← s.remains.toList.mapM (equalSignals field rh)
  let subs ← (order.arrange s.remove.toList).mapM fun signal =>
    Substitution.new signal (.signal rh)
  return (subs, cons)

def eqClusterSimplification (order : HashOrder) (forbidden : SignalSet Nat) (field : Int)
    (cluster : Cluster) : Option (List (Substitution Nat) × List (Constraint Nat)) :=
  if cluster.size = 1 then do eqSingleSimplification forbidden (← cluster.constraints.getLast?)
  else eqManySimplification order forbidden field cluster.constraints

/-- Clusters of one constraint are treated at once, and the others by threads. -/
def eqSimplification (order : HashOrder) (fuel : Nat) (equalities : List (Constraint Nat))
    (forbidden : SignalSet Nat) (noVars : Nat) (field : Int) :
    Option (List (Substitution Nat) × List (Constraint Nat)) := do
  let clusters ← buildClusters order fuel equalities noVars
  let results ← clusters.mapM (eqClusterSimplification order forbidden field)
  let (single, threads) := (clusters.zip results).partition fun result => result.1.size = 1
  let arrived := single ++ order.arrange threads
  return (arrived.flatMap fun result => result.2.1, results.flatMap Prod.snd)

-- ---------------------------------------------------------------------------
-- Constants
-- ---------------------------------------------------------------------------

/-- The constraint has one signal. -/
def constantEqConstraint (n : BigNumbers) (forbidden : SignalSet Nat) (field : Int)
    (s : List (Substitution Nat) × List (Constraint Nat)) (constraint : Constraint Nat) :
    Option (List (Substitution Nat) × List (Constraint Nat)) := do
  let signal ← constraint.takeClonedSignals.toList.getLast?
  if signal ∈ forbidden then return (s.1, s.2 ++ [constraint])
  else return (s.1 ++ [← constraint.clearSignalFromLinear n signal field], s.2)

def constantEqSimplification (n : BigNumbers) (cEq : List (Constraint Nat))
    (forbidden : SignalSet Nat) (field : Int) :
    Option (List (Substitution Nat) × List (Constraint Nat)) :=
  cEq.foldlM (constantEqConstraint n forbidden field) ([], [])

-- ---------------------------------------------------------------------------
-- Linear constraints
-- ---------------------------------------------------------------------------

/-- Every cluster is simplified by a thread. -/
def linearSimplification (n : BigNumbers) (order : HashOrder) (fuel : Nat)
    (linear : List (Constraint Nat)) (forbidden : SignalSet Nat) (noLabels : Nat) (field : Int)
    (useOldHeuristics : Bool) : Option (List (Substitution Nat) × List (Constraint Nat)) := do
  let clusters ← buildClusters order fuel linear noLabels
  let results ← clusters.mapM fun cluster =>
    fullSimplification n order fuel ⟨field, cluster.constraints, forbidden, useOldHeuristics⟩
  let arrived := order.arrange results
  return (arrived.flatMap Simplified.substitutions, arrived.flatMap Simplified.constraints)

-- ---------------------------------------------------------------------------
-- The constraints that are not linear
-- ---------------------------------------------------------------------------

def pushId (cId : Nat) (map : SignalToConstraints) (signal : Nat) : SignalToConstraints :=
  map.insert signal (map[signal]?.getD [] ++ [cId])

/-- A constraint that is put into the storage, with its signals. -/
def indexConstraint (cId : Nat) (constraint : Constraint Nat) (map : SignalToConstraints) :
    SignalToConstraints :=
  constraint.takeClonedSignals.toList.foldl (pushId cId) map

def indexStored (bytes : SignedBytes) (storage : ConstraintStorage) (map : SignalToConstraints)
    (cId : Nat) : Option SignalToConstraints := do
  let constraint ← (← storage.readConstraint bytes cId)
  return indexConstraint cId constraint map

def buildNonLinearSignalMap (bytes : SignedBytes) (nonLinear : ConstraintStorage) :
    Option SignalToConstraints :=
  nonLinear.getIds.foldlM (indexStored bytes nonLinear) ∅

structure MapWork where
  storage : ConstraintStorage
  map : SignalToConstraints
  linearId : List Nat

def processId (bytes : SignedBytes) (order : HashOrder) (substitution : Substitution Nat)
    (field : Int) (s : MapWork) (cId : Nat) : Option MapWork := do
  let constraint ← (← s.storage.readConstraint bytes cId)
  let constraint ← (constraint.applySubstitution substitution field).fixConstraint field
  return {
    storage := s.storage.replace bytes order cId constraint
    map := (order.arrange substitution.to_.keys).foldl (pushId cId) s.map
    linearId := if constraint.isLinear then s.linearId ++ [cId] else s.linearId }

def constraintProcessing (bytes : SignedBytes) (order : HashOrder) (field : Int) (s : MapWork)
    (substitution : Substitution Nat) : Option MapWork :=
  match s.map[substitution.from_]? with
  | some cIds => cIds.foldlM (processId bytes order substitution field) s
  | none => some s

/-- A constraint that has become linear is taken out. -/
def takeLinear (bytes : SignedBytes) (order : HashOrder)
    (s : ConstraintStorage × List (Constraint Nat)) (cId : Nat) :
    Option (ConstraintStorage × List (Constraint Nat)) := do
  let constraint ← (← s.1.readConstraint bytes cId)
  return (s.1.replace bytes order cId Constraint.empty, s.2 ++ [constraint])

def applySubstitutionToMap (bytes : SignedBytes) (order : HashOrder) (storage : ConstraintStorage)
    (map : SignalToConstraints) (substitutions : List (Substitution Nat)) (field : Int) :
    Option (ConstraintStorage × SignalToConstraints × List (Constraint Nat)) := do
  let work ← substitutions.foldlM (constraintProcessing bytes order field) ⟨storage, map, []⟩
  let (storage, linear) ← work.linearId.foldlM (takeLinear bytes order) (work.storage, [])
  return (storage, work.map, linear)

def unwrappedSignal (map : SEncoded) (signal : Nat) : Option Nat :=
  match map[signal]? with
  | some (.signal symbol) => some symbol
  | _ => none

def relevantSignal (renames deletes : SEncoded) (relevant : SignalSet Nat) (signal : Nat) :
    SignalSet Nat :=
  let signal := (unwrappedSignal renames signal).getD signal
  if signal ∈ deletes then relevant else relevant.insert signal

def relevantSignals (renames deletes : SEncoded) (relevant : SignalSet Nat)
    (iter : EncodingIterator) : Option (SignalSet Nat) :=
  some ((iter.nonLinear.flatMap fun c => c.takeClonedSignals.toList).foldl
    (relevantSignal renames deletes) relevant)

/-- The signals of the constraints that are not linear, after the substitutions. -/
def buildRelevantSet (encoding : DAGEncoding) (renames deletes : SEncoded) :
    Option (SignalSet Nat) :=
  EncodingIterator.visit encoding (relevantSignals renames deletes) ∅

def removeNotRelevant (substitutions : SEncoded) (relevant : SignalSet Nat) : SEncoded :=
  substitutions.filter fun signal _ => signal ∈ relevant

def applyFrame (order : HashOrder) (field : Int) (constraint : Constraint Nat)
    (frame : SEncoded) : Option (Constraint Nat) :=
  (fastEncodedConstraintSubstitution order constraint frame field).map Prod.fst

/-- One constraint, under all substitutions. -/
def simplifyNonLinear (order : HashOrder) (frames : List SEncoded) (field : Int)
    (constraint : Constraint Nat) : Option (Constraint Nat) := do
  (← frames.foldlM (applyFrame order field) constraint).fixConstraint field

def obtainNonLinear (bytes : SignedBytes) (order : HashOrder) (frames : List SEncoded)
    (field : Int) (s : ConstraintStorage × List (Constraint Nat)) (constraint : Constraint Nat) :
    Option (ConstraintStorage × List (Constraint Nat)) := do
  let constraint ← simplifyNonLinear order frames field constraint
  if constraint.isLinear then return (s.1, s.2 ++ [constraint])
  else return ((s.1.addConstraint bytes order constraint).2, s.2)

def obtainNonLinears (bytes : SignedBytes) (order : HashOrder) (frames : List SEncoded)
    (field : Int) (s : ConstraintStorage × List (Constraint Nat)) (iter : EncodingIterator) :
    Option (ConstraintStorage × List (Constraint Nat)) :=
  iter.nonLinear.foldlM (obtainNonLinear bytes order frames field) s

/-- The constraints that are still not linear, in a storage, and those that are. -/
def obtainAndSimplifyNonLinear (bytes : SignedBytes) (order : HashOrder) (encoding : DAGEncoding)
    (frames : List SEncoded) (field : Int) :
    Option (ConstraintStorage × List (Constraint Nat)) :=
  EncodingIterator.visit encoding (obtainNonLinears bytes order frames field)
    (ConstraintStorage.new, [])

-- ---------------------------------------------------------------------------
-- The witness
-- ---------------------------------------------------------------------------

structure Rebuild where
  map : SignalMap
  free : List Nat
  deleted : SignalSet Nat

/-- Signals take the first free number, and leave theirs. -/
def rebuildSignal (forbidden : SignalSet Nat) (nonLinearMap : SignalToConstraints)
    (removeUnused : Bool) (s : Rebuild) (signal : Nat) : Rebuild :=
  if signal ∈ s.deleted then { s with free := s.free ++ [signal] }
  else if removeUnused ∧ signal ∉ forbidden ∧ signal ∉ nonLinearMap then
    { s with deleted := s.deleted.insert signal, free := s.free ++ [signal] }
  else
    match s.free with
    | newPos :: free => { s with map := s.map.insert signal newPos, free := free ++ [signal] }
    | [] => { s with map := s.map.insert signal signal }

/-- The new numbers, and the signals that have none. -/
def rebuildWitness (maxSignal : Nat) (deleted forbidden : SignalSet Nat)
    (nonLinearMap : SignalToConstraints) (removeUnused : Bool) : SignalMap × SignalSet Nat :=
  let s := (List.range maxSignal).foldl (rebuildSignal forbidden nonLinearMap removeUnused)
    ⟨∅, [], deleted⟩
  (s.map, s.deleted)

/-- Panics at a number that is too large. -/
def placeSignal (witness : List Nat) (entry : Nat × Nat) : Option (List Nat) :=
  if entry.2 < witness.length then some (witness.set entry.2 entry.1) else none

/-- The signals, in the order of their numbers. -/
def getWitnessAsVec (order : HashOrder) (signalMap : SignalMap) : Option (List Nat) :=
  (order.arrange signalMap.toList).foldlM placeSignal (List.replicate signalMap.size 0)

-- ---------------------------------------------------------------------------
-- The simplification
-- ---------------------------------------------------------------------------

/-- A constraint in which something has been substituted is fixed. -/
def substituteAndFix (order : HashOrder) (substitutions : SEncoded) (field : Int)
    (constraint : Constraint Nat) : Option (Constraint Nat) := do
  let (constraint, applied) ← fastEncodedConstraintSubstitution order constraint substitutions field
  if applied then constraint.fixConstraint field else return constraint

/-- What the blocks of `simplification` hand on before the constraints are stored. -/
structure Solved where
  linear : List (Constraint Nat)
  consEqualities : List (Constraint Nat)
  lconst : List (Constraint Nat)
  deleted : SignalSet Nat
  frames : List SEncoded

section Simplification

variable (n : BigNumbers) (bytes : SignedBytes) (order : HashOrder) (fuel : Nat)

/-- The block of `single_substitutions`. -/
def singleSubstitutions (smp : Simplifier) : Option Solved := do
  let relevant ← buildRelevantSet smp.dagEncoding ∅ ∅
  let (subs, cons) ←
    eqSimplification order fuel smp.equalities smp.forbidden smp.maxSignal smp.field
  let substitutions := buildEncodedFastSubstitutions subs
  return {
    linear := ← smp.linear.mapM (substituteAndFix order substitutions smp.field)
    consEqualities := ← smp.consEqualities.mapM (substituteAndFix order substitutions smp.field)
    lconst := cons
    deleted := .ofList substitutions.keys compare
    frames := [removeNotRelevant substitutions relevant] }

/-- The block of `cons_substitutions`. -/
def consSubstitutions (smp : Simplifier) (s : Solved) : Option Solved := do
  let (subs, cons) ← constantEqSimplification n s.consEqualities smp.forbidden smp.field
  let substitutions := buildEncodedFastSubstitutions subs
  return { s with
    linear := ← s.linear.mapM (substituteAndFix order substitutions smp.field)
    consEqualities := []
    lconst := s.lconst ++ cons
    deleted := s.deleted.insertMany substitutions.keys
    frames := s.frames ++ [substitutions] }

/-- The block of `linear_substitutions`. -/
def linearSubstitutions (smp : Simplifier) (s : Solved) : Option Solved := do
  let relevant ← buildRelevantSet smp.dagEncoding (s.frames[0]?.getD ∅) (s.frames[1]?.getD ∅)
  if !smp.flagS then
    let (subs, cons) ← linearSimplification n order fuel s.linear smp.forbidden smp.maxSignal
      smp.field smp.flagOldHeuristics
    let substitutions :=
      buildEncodedFastSubstitutions (subs.filter fun sub => sub.from_ ∈ relevant)
    return { s with
      linear := []
      lconst := ← (s.lconst ++ cons).mapM (substituteAndFix order substitutions smp.field)
      deleted := s.deleted.insertMany (subs.map Substitution.from_)
      frames := s.frames ++ [substitutions] }
  else
    return { s with linear := [], lconst := s.lconst ++ s.linear, frames := s.frames ++ [∅] }

structure Round where
  linear : List (Constraint Nat)
  storage : ConstraintStorage
  nonLinearMap : SignalToConstraints
  lconst : List (Constraint Nat)
  deleted : SignalSet Nat

/-- The substitutions of a round in a constraint that is left. -/
def substituteAll (substitutions : List (Substitution Nat)) (field : Int)
    (constraint : Constraint Nat) : Option (Constraint Nat) :=
  (substitutions.foldl (fun constraint substitution =>
    constraint.applySubstitution substitution field) constraint).fixConstraint field

def applyRound (smp : Simplifier) (s : Round) : Option Round := do
  let (substitutions, constants) ← linearSimplification n order fuel s.linear smp.forbidden
    smp.maxSignal smp.field smp.flagOldHeuristics
  let lconst ← (s.lconst ++ constants).mapM (substituteAll substitutions smp.field)
  let (storage, nonLinearMap, linear) ←
    applySubstitutionToMap bytes order s.storage s.nonLinearMap substitutions smp.field
  let deleted := s.deleted.insertMany (substitutions.map Substitution.from_)
  return { linear, storage, nonLinearMap, lconst, deleted }

/-- As many rounds as there may be, or until there is no linear constraint. -/
def applyRounds (smp : Simplifier) : Nat → Round → Option Round
  | 0, s => some s
  | noRounds + 1, s =>
    if s.linear.isEmpty then some s
    else do applyRounds smp noRounds (← applyRound n bytes order fuel smp s)

/-- A constraint that is left is stored with the others. -/
def storeConstraint (s : ConstraintStorage × SignalToConstraints) (constraint : Constraint Nat) :
    ConstraintStorage × SignalToConstraints :=
  let (cId, storage) := s.1.addConstraint bytes order constraint
  (storage, indexConstraint cId constraint s.2)

def isDeletedInput (smp : Simplifier) (signal : Nat) : Bool :=
  smp.noPublicOutputs + 1 ≤ signal ∧
    signal ≤ smp.noPublicOutputs + smp.noPublicInputs + smp.noPrivateInputs

/-- The constraints, the assignment of the witness and the number of inputs in the witness. -/
def simplification (smp : Simplifier) : Option (ConstraintStorage × SignalMap × Nat) := do
  let solved ← singleSubstitutions order fuel smp
  let solved ← consSubstitutions n order smp solved
  let solved ← linearSubstitutions n order fuel smp solved
  let (storage, withLinear) ←
    obtainAndSimplifyNonLinear bytes order smp.dagEncoding solved.frames smp.field
  let nonLinearMap ← buildNonLinearSignalMap bytes storage
  let round ← applyRounds n bytes order fuel smp (if smp.flagS then 0 else smp.noRounds - 1)
    ⟨withLinear, storage, nonLinearMap, solved.lconst, solved.deleted⟩
  let lconst ← round.lconst.mapM fun constraint => constraint.fixConstraint smp.field
  let (storage, nonLinearMap) := (round.linear ++ lconst).foldl (storeConstraint bytes order)
    (round.storage, round.nonLinearMap)
  let (_, storage) ← storage.extractWith bytes Constraint.isEmpty
  let (signalMap, deleted) :=
    rebuildWitness smp.maxSignal round.deleted smp.forbidden nonLinearMap true
  let deletedInputs := (deleted.toList.filter (isDeletedInput smp)).length
  if deletedInputs ≤ smp.noPrivateInputs then
    return (storage, signalMap, smp.noPrivateInputs - deletedInputs)
  else none

end Simplification

end Ganc.Circom
