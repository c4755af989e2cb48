import Ganc.Circom.Algebra

/-!
# circom — solving linear constraints

`circom_algebra/src/simplification_utils.rs`: a list of linear constraints is
turned into substitutions for as many signals as possible, none of them
forbidden, and the constraints that are left. There are two heuristics for the
signal to solve for: the greatest one (`_3`), and one with the least
occurrences in the constraints that have not been treated (`_4`).

A loop over conflicts has no bound in the source; it takes fuel here. `none`
is a panic, or too little fuel. Where the result depends on the order in which
a hash map is gone through, the order is a parameter.
-/

namespace Ganc.Circom

abbrev SH := Store Nat (Substitution Nat)

/-- Substitutions `coefficient * from = to`. -/
abbrev SHNotNormalized := Store Nat (Int × Substitution Nat)

-- ---------------------------------------------------------------------------
-- Signals
-- ---------------------------------------------------------------------------

structure SignalDefinition where
  deletedSymbols : SignalSet Nat
  forbidden : SignalSet Nat

structure SignalDefinition4 where
  deletedSymbols : SignalSet Nat
  forbidden : SignalSet Nat
  /-- The last eliminated is the first in the list. -/
  orderSignals : List Nat

namespace SignalDefinition

def canBeTaken (signals : SignalDefinition) (k : Nat) : Bool := k ∉ signals.forbidden

def delete (signals : SignalDefinition) (k : Nat) : SignalDefinition :=
  { signals with deletedSymbols := signals.deletedSymbols.insert k }

end SignalDefinition

namespace SignalDefinition4

def canBeTaken (signals : SignalDefinition4) (k : Nat) : Bool := k ∉ signals.forbidden

def delete (signals : SignalDefinition4) (k : Nat) : SignalDefinition4 :=
  { signals with
    deletedSymbols := signals.deletedSymbols.insert k
    orderSignals := k :: signals.orderSignals }

def isDeleted (signals : SignalDefinition4) (k : Nat) : Bool := k ∈ signals.deletedSymbols

end SignalDefinition4

structure SignalsInformation where
  signalToOcurrences : Store Nat Nat

namespace SignalsInformation

/-- One occurrence of a signal: its number of occurrences, and the first constraint it is in. -/
def count (signals : SignalDefinition4) (pos : Nat) (counts : Store Nat Nat × Store Nat Nat)
    (k : Nat) : Store Nat Nat × Store Nat Nat :=
  let (signalToOcurrences, signalToRep) := counts
  if signals.canBeTaken k then
    match signalToOcurrences[k]? with
    | some prevOcu => (signalToOcurrences.insert k (prevOcu + 1), signalToRep)
    | none => (signalToOcurrences.insert k 1, signalToRep.insert k pos)
  else counts

def counts (constraints : List (Constraint Nat)) (signals : SignalDefinition4) :
    Store Nat Nat × Store Nat Nat :=
  constraints.zipIdx.foldl
    (fun counts constraint => constraint.1.c.keys.foldl (count signals constraint.2) counts) (∅, ∅)

def insertUnique (signalToRep uniques : Store Nat Nat) (ocurrence : Nat × Nat) :
    Option (Store Nat Nat) :=
  if ocurrence.2 = 1 then do return uniques.insert ocurrence.1 (← signalToRep[ocurrence.1]?)
  else some uniques

/-- The occurrences, and the signals that occur once with the constraint they occur in. -/
def new (constraints : List (Constraint Nat)) (signals : SignalDefinition4) :
    Option (SignalsInformation × Store Nat Nat) := do
  let (signalToOcurrences, signalToRep) := counts constraints signals
  let uniques ← signalToOcurrences.toList.foldlM (insertUnique signalToRep) ∅
  return (⟨signalToOcurrences⟩, uniques)

/-- A count below zero overflows. -/
def removeOcurrence (signals : SignalDefinition4) (counts : Store Nat Nat) (signal : Nat) :
    Option (Store Nat Nat) :=
  if signals.canBeTaken signal then
    match counts[signal]? with
    | some ocurrences =>
      if ocurrences = 0 then none else some (counts.insert signal (ocurrences - 1))
    | none => some counts
  else some counts

def removeConstraint (info : SignalsInformation) (constraint : Constraint Nat)
    (signals : SignalDefinition4) : Option SignalsInformation := do
  let signalToOcurrences ←
    constraint.c.keys.foldlM (removeOcurrence signals) info.signalToOcurrences
  return ⟨signalToOcurrences⟩

def removeSignal (info : SignalsInformation) (signal : Nat) : SignalsInformation :=
  ⟨info.signalToOcurrences.erase signal⟩

end SignalsInformation

-- ---------------------------------------------------------------------------
-- The signal to solve for
-- ---------------------------------------------------------------------------

def takeSignal3 (signals : SignalDefinition) (constraint : Constraint Nat) : Option Nat :=
  constraint.c.keys.foldl (fun ret k =>
    if signals.canBeTaken k then some (ret.elim k fun v => max k v) else ret) none

/-- The loop over the signals; `ret` and `ocurrences_ret` are set together. -/
def takeSignal4Loop (signals : SignalDefinition4) (info : SignalsInformation) :
    List Nat → Option (Nat × Nat) → Option (Option Nat)
  | [], best => some (best.map Prod.fst)
  | k :: keys, best =>
    if signals.canBeTaken k then
      if signals.isDeleted k then some (some k)
      else
        match info.signalToOcurrences[k]? with
        | none => none
        | some newOcurrences =>
          match best with
          | some (ret, valAnt) =>
            if newOcurrences < valAnt then
              takeSignal4Loop signals info keys (some (k, newOcurrences))
            else if newOcurrences = valAnt ∧ ret < k then
              takeSignal4Loop signals info keys (some (k, valAnt))
            else takeSignal4Loop signals info keys best
          | none => takeSignal4Loop signals info keys (some (k, newOcurrences))
    else takeSignal4Loop signals info keys best

def takeSignal4 (order : HashOrder) (signals : SignalDefinition4) (info : SignalsInformation)
    (constraint : Constraint Nat) : Option (Option Nat) :=
  takeSignal4Loop signals info (order.arrange constraint.c.keys) none

-- ---------------------------------------------------------------------------
-- Treating one constraint
-- ---------------------------------------------------------------------------

/-- What a constraint says, given another substitution for the signal it was solved for. -/
def mergeConflict (coefficient : Int) (substitution : Substitution Nat)
    (inConflict : Int × Substitution Nat) (field : Int) : Option (Constraint Nat) := do
  let (inConflictCoef, inConflictSubs) := inConflict
  let right := inConflictSubs.decompose.2
  let left := substitution.decompose.2
  let newLeft := ArithmeticExpression.mul (.number inConflictCoef) left field
  let newRight := ArithmeticExpression.mul (.number coefficient) right field
  let merge ← ArithmeticExpression.sub newLeft newRight field
  let work ← ArithmeticExpression.transformExpressionToConstraintForm merge field
  return work.removeZeroValueCoefficients

structure Process3 where
  signals : SignalDefinition
  substitutions : SHNotNormalized
  lconst : List (Constraint Nat)

structure Process4 where
  signals : SignalDefinition4
  substitutions : SHNotNormalized
  lconst : List (Constraint Nat)
  infoOcurrences : SignalsInformation

def treatConstraint3 (field : Int) : Nat → Process3 → Constraint Nat → Option Process3
  | 0, _, _ => none
  | fuel + 1, s, work =>
    if work.isEmpty then some s
    else match takeSignal3 s.signals work with
    | none => some { s with lconst := s.lconst ++ [work] }
    | some out => do
      let s := { s with signals := s.signals.delete out }
      let (coefficient, substitution) ← work.clearSignalFromLinearNotNormalized out field
      match s.substitutions[substitution.from_]? with
      | none =>
        return { s with
          substitutions := s.substitutions.insert substitution.from_ (coefficient, substitution) }
      | some inConflict =>
        let work ← mergeConflict coefficient substitution inConflict field
        treatConstraint3 field fuel s work

def treatUniqueConstraint4 (s : Process4) (work : Constraint Nat) (signal : Nat) (field : Int) :
    Option Process4 := do
  let (coefficient, substitution) ← work.clearSignalFromLinearNotNormalized signal field
  return { s with
    substitutions := s.substitutions.insert substitution.from_ (coefficient, substitution)
    infoOcurrences := s.infoOcurrences.removeSignal signal
    signals := s.signals.delete signal }

def treatConstraint4 (order : HashOrder) (field : Int) :
    Nat → Process4 → Constraint Nat → Option Process4
  | 0, _, _ => none
  | fuel + 1, s, work =>
    if work.isEmpty then some s
    else do
      match ← takeSignal4 order s.signals s.infoOcurrences work with
      | none => return { s with lconst := s.lconst ++ [work] }
      | some out =>
        let (coefficient, substitution) ← work.clearSignalFromLinearNotNormalized out field
        match s.substitutions[substitution.from_]? with
        | none =>
          return { s with
            signals := s.signals.delete out
            infoOcurrences := s.infoOcurrences.removeSignal out
            substitutions := s.substitutions.insert substitution.from_ (coefficient, substitution) }
        | some inConflict =>
          let work ← mergeConflict coefficient substitution inConflict field
          treatConstraint4 order field fuel s work

-- ---------------------------------------------------------------------------
-- Treating all constraints
-- ---------------------------------------------------------------------------

/-- The constraints are taken from the back. -/
def substitutionProcess3 (field : Int) (fuel : Nat) (s : Process3)
    (constraints : List (Constraint Nat)) : Option Process3 :=
  constraints.reverse.foldlM (treatConstraint3 field fuel) s

/-- A signal that occurs in one constraint only, unless the constraint has been used. -/
def treatUnique (field : Int) (s : Process4 × List (Constraint Nat)) (unique : Nat × Nat) :
    Option (Process4 × List (Constraint Nat)) := do
  let (process, vecConstraints) := s
  let (signal, index) := unique
  let actualConstraint ← vecConstraints[index]?
  if actualConstraint.isEmpty then return s
  else
    let vecConstraints := vecConstraints.set index Constraint.empty
    let infoOcurrences ← process.infoOcurrences.removeConstraint actualConstraint process.signals
    let process ←
      treatUniqueConstraint4 { process with infoOcurrences } actualConstraint signal field
    return (process, vecConstraints)

def treatNext4 (order : HashOrder) (field : Int) (fuel : Nat) (s : Process4)
    (actualConstraint : Constraint Nat) : Option Process4 := do
  let infoOcurrences ← s.infoOcurrences.removeConstraint actualConstraint s.signals
  treatConstraint4 order field fuel { s with infoOcurrences } actualConstraint

def substitutionProcess4 (order : HashOrder) (field : Int) (fuel : Nat)
    (signals : SignalDefinition4) (substitutions : SHNotNormalized)
    (constraints : List (Constraint Nat)) : Option Process4 := do
  let (infoOcurrences, uniques) ← SignalsInformation.new constraints signals
  let (process, vecConstraints) ← uniques.toList.foldlM (treatUnique field)
    (⟨signals, substitutions, [], infoOcurrences⟩, constraints)
  vecConstraints.reverse.foldlM (treatNext4 order field fuel) process

-- ---------------------------------------------------------------------------
-- Substitutions that do not overlap
-- ---------------------------------------------------------------------------

/-- One substitution, with the inverse of its coefficient. -/
def normalizeSubstitution (inverses : List Int) (field : Int) (tree : SH)
    (entry : (Nat × Int × Substitution Nat) × Nat) : Option SH := do
  let ((signal, (_, sub)), i) := entry
  let inv ← inverses[i]?
  let arithSub := ArithmeticExpression.hashmapIntoArith sub.to_
  let multByInverse := ArithmeticExpression.mul arithSub (.number inv) field
  let newSub ← Substitution.new signal multByInverse
  return tree.insert signal newSub

/-- All coefficients are divided out with one inversion. -/
def normalizeSubstitutions (n : BigNumbers) (substitutions : SHNotNormalized) (field : Int) :
    Option SH := do
  let coeffs := substitutions.toList.map fun entry => entry.2.1
  let inverses ← ModularArithmetic.multiInv n coeffs field
  substitutions.toList.zipIdx.foldlM (normalizeSubstitution inverses field) ∅

def takeSubstitutionsToBeApplied (order : HashOrder) (sh : SH) (subs : Substitution Nat) :
    List (Substitution Nat) :=
  (order.arrange subs.to_.keys).filterMap fun s => sh[s]?

/-- The body of both loops that follow. -/
def removeOverlap (order : HashOrder) (noOverlap : SH) (s : Nat) (substitution : Substitution Nat)
    (field : Int) : SH :=
  let toBeApplied := takeSubstitutionsToBeApplied order noOverlap substitution
  noOverlap.insert s (toBeApplied.foldl (fun substitution sub =>
    substitution.applySubstitution sub field) substitution)

def createNonoverlappingSubstitutions (order : HashOrder) (possibleOverlap : SH) (field : Int) :
    SH :=
  possibleOverlap.toList.foldl (fun noOverlap entry =>
    removeOverlap order noOverlap entry.1 entry.2 field) ∅

/-- The substitution is taken out of the first map. -/
def removeOverlap4 (order : HashOrder) (field : Int) (maps : SH × SH) (s : Nat) :
    Option (SH × SH) := do
  let (possibleOverlap, noOverlap) := maps
  let substitution ← possibleOverlap[s]?
  return (possibleOverlap.erase s, removeOverlap order noOverlap s substitution field)

def createNonoverlappingSubstitutions4 (order : HashOrder) (possibleOverlap : SH)
    (signals : SignalDefinition4) (field : Int) : Option SH := do
  let (_, noOverlap) ←
    signals.orderSignals.foldlM (removeOverlap4 order field) (possibleOverlap, ∅)
  return noOverlap

-- ---------------------------------------------------------------------------
-- The simplification
-- ---------------------------------------------------------------------------

structure Config where
  field : Int
  constraints : List (Constraint Nat)
  forbidden : SignalSet Nat
  useOldHeuristics : Bool

structure Simplified where
  constraints : List (Constraint Nat)
  substitutions : List (Substitution Nat)
  removed : List Nat

def applyLessOcurrences (config : Config) : Bool :=
  350 ≤ config.constraints.length ∧ config.constraints.length < 1000000 ∧ !config.useOldHeuristics

def fullSimplification (n : BigNumbers) (order : HashOrder) (fuel : Nat) (config : Config) :
    Option Simplified := do
  let field := config.field
  let (constraints, nonOverlapping) ←
    if applyLessOcurrences config then do
      let signals : SignalDefinition4 := ⟨∅, config.forbidden, []⟩
      let process ← substitutionProcess4 order field fuel signals ∅ config.constraints
      let normalizedHolder ← normalizeSubstitutions n process.substitutions field
      let nonOverlapping ←
        createNonoverlappingSubstitutions4 order normalizedHolder process.signals field
      some (process.lconst, nonOverlapping)
    else do
      let signals : SignalDefinition := ⟨∅, config.forbidden⟩
      let process ← substitutionProcess3 field fuel ⟨signals, ∅, []⟩ config.constraints
      let normalizedHolder ← normalizeSubstitutions n process.substitutions field
      some (process.lconst, createNonoverlappingSubstitutions order normalizedHolder field)
  let entries := order.arrange nonOverlapping.toList
  return ⟨constraints, entries.map Prod.snd, entries.map Prod.fst⟩

-- ---------------------------------------------------------------------------
-- Substitutions put to use
-- ---------------------------------------------------------------------------

/-- Later substitutions for a signal replace earlier ones. -/
def buildEncodedFastSubstitutions (fastSub : List (Substitution Nat)) :
    Store Nat (ArithmeticExpression Nat) :=
  fastSub.foldl (fun encoded sub => encoded.insert sub.decompose.1 sub.decompose.2) ∅

/-- One signal of a constraint is replaced if there is a substitution for it. -/
def substituteSignal (enc : Store Nat (ArithmeticExpression Nat)) (field : Int)
    (state : Constraint Nat × Bool) (signal : Nat) : Option (Constraint Nat × Bool) :=
  match enc[signal]? with
  | some expr => do
    let sub ← Substitution.new signal expr
    return (state.1.applySubstitution sub field, true)
  | none => some state

/-- The constraint, and whether anything was substituted. -/
def fastEncodedConstraintSubstitution (order : HashOrder) (c : Constraint Nat)
    (enc : Store Nat (ArithmeticExpression Nat)) (field : Int) :
    Option (Constraint Nat × Bool) :=
  (order.arrange c.takeClonedSignals.toList).foldlM (substituteSignal enc field) (c, false)

end Ganc.Circom
