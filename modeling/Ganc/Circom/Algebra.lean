import Ganc.Circom.ModularArithmetic
import Ganc.Lib.Store

/-!
# circom — expressions, constraints and substitutions

`circom_algebra/src/algebra.rs`. A linear expression is a map from symbols to
coefficients in which the default symbol stands for the constant; a constraint
says `A * B - C = 0` of three of them; a substitution replaces a symbol by one.
A `HashMap` is a `Store`: where the source iterates over one, the result does
not depend on the order, or the order is a parameter (`HashOrder`).

`none` is a panic of the source: a missing constant in a map that should hold
one, an `unwrap` or an `assert`.
-/

namespace Ganc.Circom

/-- The freedom a hash map has: its entries come out in any order at all. The order is one for
all the iterations of a run and depends on the entries only, so that maps which are equal are gone
through alike; in the source each map has an order of its own. -/
structure HashOrder where
  arrange : ∀ {α : Type}, List α → List α
  perm : ∀ {α : Type} (l : List α), (arrange l).Perm l

variable {C : Type} [Ord C] [Std.TransOrd C] [Std.LawfulEqOrd C] [DecidableEq C] [Inhabited C]

/-- `HashMap<C, BigInt>`. -/
abbrev Coefficients (C : Type) [Ord C] := Store C Int

/-- `HashSet<C>`, and `BTreeSet<C>`. -/
abbrev SignalSet (C : Type) [Ord C] := Std.ExtTreeSet C compare

inductive ArithmeticExpression (C : Type) [Ord C]
  | number (value : Int)
  | signal (symbol : C)
  | linear (coefficients : Coefficients C)
  /-- `a * b + c`. -/
  | quadratic (a b c : Coefficients C)
  | nonQuadratic

structure Substitution (C : Type) [Ord C] where
  from_ : C
  to_ : Coefficients C

/-- `A * B - C = 0`. -/
structure Constraint (C : Type) [Ord C] where
  a : Coefficients C
  b : Coefficients C
  c : Coefficients C

-- ---------------------------------------------------------------------------
-- Maps of coefficients
-- ---------------------------------------------------------------------------

/-- The symbol of the constant. -/
def constantCoefficient : C := default

namespace Coefficients

def initializeHashmap (initial : Coefficients C) : Coefficients C :=
  if constantCoefficient ∈ initial then initial else initial.insert constantCoefficient 0

def initializeSymbol (symbol : C) (coefficients : Coefficients C) : Coefficients C :=
  if symbol ∈ coefficients then coefficients else coefficients.insert symbol 0

/-- Panics if there is no constant. -/
def addConstant (value : Int) (coefficients : Coefficients C) (field : Int) :
    Option (Coefficients C) :=
  coefficients[(constantCoefficient : C)]?.map fun constant =>
    coefficients.insert constantCoefficient (ModularArithmetic.add constant value field)

def addSymbol (symbol : C) (coefficient : Int) (coefficients : Coefficients C) (field : Int) :
    Coefficients C :=
  let coefficients := coefficients.initializeSymbol symbol
  coefficients.insert symbol
    (ModularArithmetic.add (coefficients[symbol]?.getD 0) coefficient field)

/-- Adds the first map to the second. -/
def addCoefficients (coefficients₀ coefficients₁ : Coefficients C) (field : Int) :
    Coefficients C :=
  coefficients₀.toList.foldl (fun acc kv => acc.addSymbol kv.1 kv.2 field) coefficients₁

def multiplyByConstant (constant : Int) (coefficients : Coefficients C) (field : Int) :
    Coefficients C :=
  coefficients.map fun _ value => ModularArithmetic.mul value constant field

def divideByConstant (n : BigNumbers) (constant : Int) (coefficients : Coefficients C)
    (field : Int) : Except ArithmeticError (Coefficients C) := do
  let inverseConstant ← ModularArithmetic.div n 1 constant field
  return coefficients.multiplyByConstant inverseConstant field

def removeZeroValue (rawExpression : Coefficients C) : Coefficients C :=
  rawExpression.filter fun _ value => value ≠ 0

def isConstantExpression (expr : Coefficients C) : Bool :=
  constantCoefficient ∈ expr ∧ expr.size = 1

end Coefficients

-- ---------------------------------------------------------------------------
-- Operations on expressions
-- ---------------------------------------------------------------------------

namespace ArithmeticExpression

def add (left right : ArithmeticExpression C) (field : Int) : Option (ArithmeticExpression C) :=
  match left, right with
  | nonQuadratic, _ | _, nonQuadratic | quadratic .., quadratic .. => some nonQuadratic
  | number v₀, number v₁ => some (number (ModularArithmetic.add v₀ v₁ field))
  | number value, signal symbol | signal symbol, number value => do
    let coefficients ← (Coefficients.initializeHashmap ∅).addConstant value field
    return linear (coefficients.addSymbol symbol 1 field)
  | number value, linear coefficients | linear coefficients, number value => do
    return linear (← coefficients.addConstant value field)
  | number value, quadratic a b c | quadratic a b c, number value => do
    return quadratic a b (← c.addConstant value field)
  | signal symbol₀, signal symbol₁ =>
    some (linear (((Coefficients.initializeHashmap ∅).addSymbol symbol₀ 1 field).addSymbol
      symbol₁ 1 field))
  | signal symbol, linear coefficients | linear coefficients, signal symbol =>
    some (linear (coefficients.addSymbol symbol 1 field))
  | signal symbol, quadratic a b c | quadratic a b c, signal symbol =>
    some (quadratic a b (c.addSymbol symbol 1 field))
  | linear coefficients₀, linear coefficients₁ =>
    some (linear (coefficients₀.addCoefficients coefficients₁ field))
  | linear coefficients, quadratic a b c | quadratic a b c, linear coefficients =>
    some (quadratic a b (coefficients.addCoefficients c field))

def mul (left right : ArithmeticExpression C) (field : Int) : ArithmeticExpression C :=
  match left, right with
  | nonQuadratic, _ | _, nonQuadratic | quadratic .., quadratic .. | quadratic .., linear _
  | linear _, quadratic .. | quadratic .., signal _ | signal _, quadratic .. => nonQuadratic
  | number value₀, number value₁ => number (ModularArithmetic.mul value₀ value₁ field)
  | number value, signal symbol | signal symbol, number value =>
    linear ((Coefficients.initializeHashmap ∅).addSymbol symbol value field)
  | number value, linear coefficients | linear coefficients, number value =>
    linear (coefficients.multiplyByConstant value field)
  | number value, quadratic a b c | quadratic a b c, number value =>
    quadratic (a.multiplyByConstant value field) b (c.multiplyByConstant value field)
  | signal symbol₀, signal symbol₁ =>
    quadratic ((Coefficients.initializeHashmap ∅).addSymbol symbol₀ 1 field)
      ((Coefficients.initializeHashmap ∅).addSymbol symbol₁ 1 field)
      (Coefficients.initializeHashmap ∅)
  | signal symbol, linear coefficients | linear coefficients, signal symbol =>
    quadratic coefficients ((Coefficients.initializeHashmap ∅).addSymbol symbol 1 field)
      (Coefficients.initializeHashmap ∅)
  | linear coefficients₀, linear coefficients₁ =>
    quadratic coefficients₀ coefficients₁ (Coefficients.initializeHashmap ∅)

def sub (left right : ArithmeticExpression C) (field : Int) : Option (ArithmeticExpression C) :=
  add left (mul (number (-1)) right field) field

def div (n : BigNumbers) (left right : ArithmeticExpression C) (field : Int) :
    Except ArithmeticError (ArithmeticExpression C) :=
  match left, right with
  | number value₀, number value₁ => do
    return number (← ModularArithmetic.div n value₀ value₁ field)
  | signal symbol, number value => do
    let coefficients := (Coefficients.initializeHashmap ∅).addSymbol symbol 1 field
    return linear (← coefficients.divideByConstant n value field)
  | linear coefficients, number value => do
    return linear (← coefficients.divideByConstant n value field)
  | quadratic a b c, number value => do
    let a ← a.divideByConstant n value field
    let c ← c.divideByConstant n value field
    return quadratic a b c
  | _, _ => .ok nonQuadratic

/-- Two numbers are combined at once; anything else is not quadratic. -/
def onNumbers (f : Int → Int → Int) : ArithmeticExpression C → ArithmeticExpression C →
    ArithmeticExpression C
  | number value₀, number value₁ => number (f value₀ value₁)
  | _, _ => nonQuadratic

def idiv (left right : ArithmeticExpression C) (field : Int) :
    Except ArithmeticError (ArithmeticExpression C) :=
  match left, right with
  | number value₀, number value₁ => do return number (← ModularArithmetic.idiv value₀ value₁ field)
  | _, _ => .ok nonQuadratic

def modOp (left right : ArithmeticExpression C) (field : Int) :
    Option (ArithmeticExpression C) :=
  match left, right with
  | number value₀, number value₁ => do return number (← ModularArithmetic.modOp value₀ value₁ field)
  | _, _ => some nonQuadratic

def pow (n : BigNumbers) (left right : ArithmeticExpression C) (field : Int) :
    Option (ArithmeticExpression C) :=
  match left, right with
  | number value₀, number value₁ => do return number (← ModularArithmetic.pow n value₀ value₁ field)
  | signal symbol, number value =>
    some (if value = 2 then mul (signal symbol) (signal symbol) field else nonQuadratic)
  | linear coefficients, number value =>
    some (if value = 2 then mul (linear coefficients) (linear coefficients) field
      else nonQuadratic)
  | _, _ => some nonQuadratic

def prefixSub (elem : ArithmeticExpression C) (field : Int) : ArithmeticExpression C :=
  mul elem (number (-1)) field

def getBooleanEquivalence (elem : ArithmeticExpression C) (field : Int) : Option Bool :=
  match elem with
  | number value => some (ModularArithmetic.asBool value field)
  | _ => none

def not (elem : ArithmeticExpression C) (field : Int) : ArithmeticExpression C :=
  match elem with
  | number value => number (ModularArithmetic.not value field)
  | _ => nonQuadratic

def boolOr (left right : ArithmeticExpression C) (field : Int) : ArithmeticExpression C :=
  onNumbers (fun a b => ModularArithmetic.boolOr a b field) left right

def boolAnd (left right : ArithmeticExpression C) (field : Int) : ArithmeticExpression C :=
  onNumbers (fun a b => ModularArithmetic.boolAnd a b field) left right

def eq (left right : ArithmeticExpression C) (field : Int) : ArithmeticExpression C :=
  onNumbers (fun a b => ModularArithmetic.eq a b field) left right

def notEq (left right : ArithmeticExpression C) (field : Int) : ArithmeticExpression C :=
  onNumbers (fun a b => ModularArithmetic.notEq a b field) left right

def lesser (left right : ArithmeticExpression C) (field : Int) : ArithmeticExpression C :=
  onNumbers (fun a b => ModularArithmetic.lesser a b field) left right

def lesserEq (left right : ArithmeticExpression C) (field : Int) : ArithmeticExpression C :=
  onNumbers (fun a b => ModularArithmetic.lesserEq a b field) left right

def greater (left right : ArithmeticExpression C) (field : Int) : ArithmeticExpression C :=
  onNumbers (fun a b => ModularArithmetic.greater a b field) left right

def greaterEq (left right : ArithmeticExpression C) (field : Int) : ArithmeticExpression C :=
  onNumbers (fun a b => ModularArithmetic.greaterEq a b field) left right

/-- A map of one entry is read back as a number or a symbol if it is one. -/
def hashmapIntoArith (map : Coefficients C) : ArithmeticExpression C :=
  if map.size = 1 then
    match map[(constantCoefficient : C)]? with
    | some value => number value
    | none => match map.toList with
      | [(symbol, value)] => if value = 1 then signal symbol else linear map.initializeHashmap
      | _ => linear map.initializeHashmap
  else
    linear map.initializeHashmap

/-- The constraint that says that the expression is zero; none if it is not quadratic. -/
def transformExpressionToConstraintForm (arithmeticExpression : ArithmeticExpression C)
    (field : Int) : Option (Constraint C) :=
  let zero : Coefficients C := Coefficients.initializeHashmap ∅
  let form (a b c : Coefficients C) : Constraint C := ⟨a, b, c.multiplyByConstant (-1) field⟩
  match arithmeticExpression with
  | nonQuadratic => none
  | quadratic a b c => some (form a b c)
  | number value => some (form zero zero (zero.insert constantCoefficient value))
  | signal symbol => some (form zero zero (zero.insert symbol 1))
  | linear coefficients => some (form zero zero coefficients)

end ArithmeticExpression

-- ---------------------------------------------------------------------------
-- Substitutions
-- ---------------------------------------------------------------------------

/-- Replaces the symbol of the substitution in a map. -/
def rawSubstitution (change : Coefficients C) (substitution : Substitution C) (field : Int) :
    Coefficients C :=
  let change := Coefficients.initializeHashmap change
  match change[substitution.from_]? with
  | some val =>
    let coefficients := substitution.to_.initializeHashmap.multiplyByConstant val field
    coefficients.addCoefficients (change.erase substitution.from_) field
  | none => change

namespace Substitution

def new (from_ : C) (to_ : ArithmeticExpression C) : Option (Substitution C) :=
  match to_ with
  | .number value => some ⟨from_, (∅ : Coefficients C).insert constantCoefficient value⟩
  | .signal symbol => some ⟨from_, (∅ : Coefficients C).insert symbol 1⟩
  | .linear coefficients => if from_ ∈ coefficients then none else some ⟨from_, coefficients⟩
  | _ => none

def applySubstitution (src change : Substitution C) (field : Int) : Substitution C :=
  { src with to_ := rawSubstitution src.to_ change field }

def decompose (substitution : Substitution C) : C × ArithmeticExpression C :=
  (substitution.from_, ArithmeticExpression.hashmapIntoArith substitution.to_)

end Substitution

-- ---------------------------------------------------------------------------
-- Constraints
-- ---------------------------------------------------------------------------

/-- `A * B - C` with `A` a constant is linear. -/
def constantLinearLinearReduction (a b c : Coefficients C) (field : Int) : Option (Constraint C) :=
  let c := c.initializeHashmap
  let b := b.initializeHashmap
  a[(constantCoefficient : C)]?.map fun constant =>
    let b := (b.multiplyByConstant constant field).multiplyByConstant (-1) field
    ⟨∅, ∅, (b.addCoefficients c field).removeZeroValue⟩

def fixRawConstraint (a b c : Coefficients C) (field : Int) : Option (Constraint C) :=
  let a := a.removeZeroValue
  let b := b.removeZeroValue
  let c := c.removeZeroValue
  if a.isEmpty || b.isEmpty then some ⟨∅, ∅, c⟩
  else if a.isConstantExpression then constantLinearLinearReduction a b c field
  else if b.isConstantExpression then constantLinearLinearReduction b a c field
  else some ⟨a, b, c⟩

namespace Constraint

def empty : Constraint C := ⟨∅, ∅, ∅⟩

def isLinear (constraint : Constraint C) : Bool := constraint.a.isEmpty && constraint.b.isEmpty

def isEmpty (constraint : Constraint C) : Bool :=
  constraint.a.isEmpty && constraint.b.isEmpty && constraint.c.isEmpty

/-- Solves a linear expression for a symbol up to the coefficient of the symbol. -/
def clearSignalNotNormalized (symbols : Coefficients C) (key : C) (field : Int) :
    Option (Int × Coefficients C) := do
  let keyValue ← symbols[key]?
  if keyValue = 0 then none
  else
    let valueToTheRight := ModularArithmetic.mul keyValue (-1) field
    return (valueToTheRight, Coefficients.initializeHashmap (symbols.erase key))

def clearSignalFromLinearNotNormalized (constraint : Constraint C) (signal : C) (field : Int) :
    Option (Int × Substitution C) := do
  let (coefficient, rawExpression) ← clearSignalNotNormalized constraint.c signal field
  return (coefficient, ⟨signal, rawExpression⟩)

def clearSignal (n : BigNumbers) (symbols : Coefficients C) (key : C) (field : Int) :
    Option (Coefficients C) := do
  let keyValue ← symbols[key]?
  if keyValue = 0 then none
  else
    let valueToTheRight := ModularArithmetic.mul keyValue (-1) field
    let symbols := Coefficients.initializeHashmap (symbols.erase key)
    match symbols.divideByConstant n valueToTheRight field with
    | .ok symbols => return symbols.removeZeroValue
    | .error _ => none

def clearSignalFromLinear (n : BigNumbers) (constraint : Constraint C) (signal : C)
    (field : Int) : Option (Substitution C) := do
  return ⟨signal, ← clearSignal n constraint.c signal field⟩

def takeClonedSignals (constraint : Constraint C) : SignalSet C :=
  (Std.ExtTreeSet.ofList (constraint.a.keys ++ constraint.b.keys ++ constraint.c.keys)
    compare).erase constantCoefficient

def applySubstitution (constraint : Constraint C) (substitution : Substitution C) (field : Int) :
    Constraint C where
  a := rawSubstitution constraint.a substitution field
  b := rawSubstitution constraint.b substitution field
  c := rawSubstitution constraint.c substitution field

def removeZeroValueCoefficients (constraint : Constraint C) : Constraint C where
  a := constraint.a.removeZeroValue
  b := constraint.b.removeZeroValue
  c := constraint.c.removeZeroValue

def fixConstraint (constraint : Constraint C) (field : Int) : Option (Constraint C) :=
  fixRawConstraint constraint.a constraint.b constraint.c field

/-- Two symbols with opposite coefficients. -/
def isEquality (order : HashOrder) (constraint : Constraint C) (field : Int) : Bool :=
  if constraint.a.isEmpty && constraint.b.isEmpty && constantCoefficient ∉ constraint.c &&
      constraint.c.size = 2 then
    match order.arrange constraint.c.toList with
    | [(_, c₀), (_, c₁)] => ModularArithmetic.mul (-1) c₁ field = c₀
    | _ => false
  else false

def isConstantEquality (constraint : Constraint C) : Bool :=
  constraint.a.isEmpty && constraint.b.isEmpty &&
    ((constantCoefficient ∈ constraint.c && constraint.c.size = 2) ||
      (constantCoefficient ∉ constraint.c && constraint.c.size = 1))

end Constraint

-- ---------------------------------------------------------------------------
-- Signals under other numbers
-- ---------------------------------------------------------------------------

namespace Coefficients

/-- The symbols under other names, which are expected to be different. -/
def rename {K : Type} [Ord K] [Std.TransOrd K] (f : C → K) (h : Coefficients C) :
    Coefficients K :=
  (∅ : Coefficients K).insertMany (h.toList.map fun entry => (f entry.1, entry.2))

/-- The constant keeps its symbol. -/
def shift (offset symbol : Nat) : Nat :=
  if symbol = constantCoefficient then symbol else symbol + offset

def applyRawOffset (h : Coefficients Nat) (offset : Nat) : Coefficients Nat :=
  h.rename (shift offset)

/-- Panics at a symbol that the map does not know. -/
def correspond {K : Type} [Inhabited K] (map : Store C K) (entry : C × Int) : Option (K × Int) :=
  if entry.1 = constantCoefficient then some (constantCoefficient, entry.2)
  else map[entry.1]?.map fun id => (id, entry.2)

def applyRawCorrespondence {K : Type} [Ord K] [Std.TransOrd K] [Inhabited K]
    (symbols : Coefficients C) (map : Store C K) : Option (Coefficients K) := do
  return (∅ : Coefficients K).insertMany (← symbols.toList.mapM (correspond map))

end Coefficients

namespace Constraint

def applyOffset (constraint : Constraint Nat) (offset : Nat) : Constraint Nat where
  a := constraint.a.applyRawOffset offset
  b := constraint.b.applyRawOffset offset
  c := constraint.c.applyRawOffset offset

def applyCorrespondence {K : Type} [Ord K] [Std.TransOrd K] [Inhabited K]
    (constraint : Constraint C) (map : Store C K) : Option (Constraint K) := do
  let a ← constraint.a.applyRawCorrespondence map
  let b ← constraint.b.applyRawCorrespondence map
  let c ← constraint.c.applyRawCorrespondence map
  return ⟨a, b, c⟩

end Constraint

end Ganc.Circom
