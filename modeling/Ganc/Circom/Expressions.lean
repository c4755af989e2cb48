import Ganc.Circom.Numbering

/-!
# circom — what the expressions of a template mean

`execute_expression` and the statement `===` of
`constraint_generation/src/execute.rs`, for expressions whose variables have
been replaced by what they stand for. An expression is executed on numbers and
signals: the result is an expression that is at most quadratic, or is given up
as not quadratic. The meaning of an expression is a partial function of the
values of the signals. What is executed has that meaning
(`Expression.execute_spec`), so that the constraint of an equation says that
both sides mean the same (`executeConstraintEquality_exact`).

The operations on bits are left out. `none` is an error that is reported, or a
panic.
-/

set_option linter.unusedSectionVars false

namespace Ganc.Circom

open Coefficients (numbered shift)

variable {C : Type} [Ord C] [Std.TransOrd C] [Std.LawfulEqOrd C] [DecidableEq C] [Inhabited C]

-- ---------------------------------------------------------------------------
-- The code
-- ---------------------------------------------------------------------------

/-- `ExpressionInfixOpcode`, but for the operations on bits. -/
inductive InfixOpcode
  | mul | div | add | sub | pow | intDiv | mod
  | lesserEq | greaterEq | lesser | greater | eq | notEq | boolOr | boolAnd
deriving DecidableEq, Repr

/-- `ExpressionPrefixOpcode`, but for the complement of the bits. -/
inductive PrefixOpcode
  | sub | boolNot
deriving DecidableEq, Repr

inductive Expression (C : Type)
  | number (value : Int)
  | signal (symbol : C)
  | infixOp (infixOp : InfixOpcode) (lhe rhe : Expression C)
  | prefixOp (prefixOp : PrefixOpcode) (rhe : Expression C)
  | inlineSwitchOp (cond ifTrue ifFalse : Expression C)

section Code

open ArithmeticExpression

def executeInfixOp (n : BigNumbers) (op : InfixOpcode) (l r : ArithmeticExpression C)
    (field : Int) : Option (ArithmeticExpression C) :=
  match op with
  | .mul => some (mul l r field)
  | .div => (div n l r field).toOption
  | .add => add l r field
  | .sub => sub l r field
  | .pow => pow n l r field
  | .intDiv => (idiv l r field).toOption
  | .mod => modOp l r field
  | .lesserEq => some (lesserEq l r field)
  | .greaterEq => some (greaterEq l r field)
  | .lesser => some (lesser l r field)
  | .greater => some (greater l r field)
  | .eq => some (eq l r field)
  | .notEq => some (notEq l r field)
  | .boolOr => some (boolOr l r field)
  | .boolAnd => some (boolAnd l r field)

def executePrefixOp (op : PrefixOpcode) (value : ArithmeticExpression C) (field : Int) :
    ArithmeticExpression C :=
  match op with
  | .sub => prefixSub value field
  | .boolNot => not value field

/-- Of a switch only the side that is chosen is executed, and none if the condition is not a
number. -/
def Expression.execute (n : BigNumbers) (field : Int) :
    Expression C → Option (ArithmeticExpression C)
  | number value => some (.number value)
  | signal symbol => some (.signal symbol)
  | infixOp op lhe rhe => do
    let l ← lhe.execute n field
    let r ← rhe.execute n field
    executeInfixOp n op l r field
  | prefixOp op rhe => do
    let value ← rhe.execute n field
    return executePrefixOp op value field
  | inlineSwitchOp cond ifTrue ifFalse => do
    let value ← cond.execute n field
    match value.getBooleanEquivalence field with
    | some true => ifTrue.execute n field
    | some false => ifFalse.execute n field
    | none => some .nonQuadratic

/-- The constraint of `lhe === rhe`; it is an error if the difference is not quadratic. -/
def executeConstraintEquality (n : BigNumbers) (field : Int) (lhe rhe : Expression C) :
    Option (Constraint C) := do
  let l ← lhe.execute n field
  let r ← rhe.execute n field
  let difference ← sub l r field
  transformExpressionToConstraintForm difference field

end Code

-- ---------------------------------------------------------------------------
-- Meaning
-- ---------------------------------------------------------------------------

variable {p : Nat} [Fact p.Prime] {n : BigNumbers}

/-- Comparisons are those of the representatives nearest to zero; division and remainder of
whole numbers are those of the representatives from zero on, as are exponents. -/
def InfixOpcode.meaning (op : InfixOpcode) (x y : ZMod p) : Option (ZMod p) :=
  match op with
  | .mul => some (x * y)
  | .div => if y = 0 then none else some (x * y⁻¹)
  | .add => some (x + y)
  | .sub => some (x - y)
  | .pow => some (x ^ y.val)
  | .intDiv => if y = 0 then none else some ((x.val / y.val : Nat) : ZMod p)
  | .mod => if y = 0 then none else some ((x.val % y.val : Nat) : ZMod p)
  | .lesserEq => some (if x.valMinAbs ≤ y.valMinAbs then 1 else 0)
  | .greaterEq => some (if y.valMinAbs ≤ x.valMinAbs then 1 else 0)
  | .lesser => some (if x.valMinAbs < y.valMinAbs then 1 else 0)
  | .greater => some (if y.valMinAbs < x.valMinAbs then 1 else 0)
  | .eq => some (if x = y then 1 else 0)
  | .notEq => some (if x ≠ y then 1 else 0)
  | .boolOr => some (if x ≠ 0 ∨ y ≠ 0 then 1 else 0)
  | .boolAnd => some (if x ≠ 0 ∧ y ≠ 0 then 1 else 0)

def PrefixOpcode.meaning (op : PrefixOpcode) (x : ZMod p) : ZMod p :=
  match op with
  | .sub => -x
  | .boolNot => if x = 0 then 1 else 0

namespace Expression

/-- The value of an expression at an assignment of the signals, unless it divides by zero. -/
def meaning (w : C → ZMod p) : Expression C → Option (ZMod p)
  | number value => some value
  | signal symbol => some (w symbol)
  | infixOp op lhe rhe => do
    let x ← lhe.meaning w
    let y ← rhe.meaning w
    op.meaning x y
  | prefixOp op rhe => (rhe.meaning w).map op.meaning
  | inlineSwitchOp cond ifTrue ifFalse => do
    let x ← cond.meaning w
    if x = 0 then ifFalse.meaning w else ifTrue.meaning w

/-- The numbers that are written are less than the prime. -/
def InField (p : Nat) : Expression C → Prop
  | number value => 0 ≤ value ∧ value < p
  | signal _ => True
  | infixOp _ lhe rhe => lhe.InField p ∧ rhe.InField p
  | prefixOp _ rhe => rhe.InField p
  | inlineSwitchOp cond ifTrue ifFalse => cond.InField p ∧ ifTrue.InField p ∧ ifFalse.InField p

end Expression

-- ---------------------------------------------------------------------------
-- Operations on expressions
-- ---------------------------------------------------------------------------

namespace ArithmeticExpression

/-- Every map holds the constant, as the source asks of all operations. -/
def Initialized : ArithmeticExpression C → Prop
  | number _ => True
  | signal _ => True
  | linear h => constantCoefficient ∈ h
  | quadratic a b c => constantCoefficient ∈ a ∧ constantCoefficient ∈ b ∧ constantCoefficient ∈ c
  | nonQuadratic => True

structure Formed (p : Nat) (e : ArithmeticExpression C) : Prop where
  initialized : e.Initialized
  inField : ∀ value, e = number value → 0 ≤ value ∧ value < p

/-- An operation on expressions does what one on their values does: it gives up, fails where that
one fails, or has its value. -/
structure Computes (op : ZMod p → ZMod p → Option (ZMod p)) (l r : ArithmeticExpression C)
    (result : Option (ArithmeticExpression C)) : Prop where
  formed : ∀ e, result = some e → e.Formed p
  value : ∀ e, result = some e → e ≠ nonQuadratic → l ≠ nonQuadratic ∧ r ≠ nonQuadratic ∧
    ∀ w : C → ZMod p, w constantCoefficient = 1 → op (l.value w) (r.value w) = some (e.value w)
  fails : result = none → l ≠ nonQuadratic ∧ r ≠ nonQuadratic ∧
    ∀ w : C → ZMod p, w constantCoefficient = 1 → op (l.value w) (r.value w) = none

variable {op : ZMod p → ZMod p → Option (ZMod p)} {l r e : ArithmeticExpression C}

theorem formed_nonQuadratic : (nonQuadratic : ArithmeticExpression C).Formed p := ⟨trivial, nofun⟩

theorem formed_signal (symbol : C) : (signal symbol).Formed p := ⟨trivial, nofun⟩

theorem formed_linear {h : Coefficients C} (hIn : constantCoefficient ∈ h) :
    (linear h).Formed p := ⟨hIn, nofun⟩

theorem formed_quadratic {a b c : Coefficients C} (ha : constantCoefficient ∈ a)
    (hb : constantCoefficient ∈ b) (hc : constantCoefficient ∈ c) :
    (quadratic a b c).Formed p := ⟨⟨ha, hb, hc⟩, nofun⟩

/-- A number of the field is well formed. -/
theorem formed_number {value : Int} (h : 0 ≤ value ∧ value < p) :
    (number value : ArithmeticExpression C).Formed p := by
  refine ⟨trivial, ?_⟩
  rintro _ ⟨⟩
  exact h

theorem modulus_inField (a : Int) :
    0 ≤ ModularArithmetic.modulus a p ∧ ModularArithmetic.modulus a p < p :=
  ModularArithmetic.modulus_range (Int.natCast_pos.mpr (Fact.out : p.Prime).pos) a

/-- Giving up is always right. -/
theorem computes_nonQuadratic : Computes op l r (some nonQuadratic) where
  formed _ hOk := Option.some.inj hOk ▸ formed_nonQuadratic
  value _ hOk hne := absurd (Option.some.inj hOk).symm hne
  fails hFail := absurd hFail nofun

/-- An operation that gives the value of its result computes it. -/
theorem Computes.of_value (hFormed : e.Formed p) (hl : l ≠ nonQuadratic) (hr : r ≠ nonQuadratic)
    (hValue : ∀ w : C → ZMod p, w constantCoefficient = 1 →
      op (l.value w) (r.value w) = some (e.value w)) : Computes op l r (some e) where
  formed _ hOk := Option.some.inj hOk ▸ hFormed
  value _ hOk _ := Option.some.inj hOk ▸ ⟨hl, hr, hValue⟩
  fails hFail := absurd hFail nofun

/-- An operation that has no value at all may fail. -/
theorem Computes.of_fails (hl : l ≠ nonQuadratic) (hr : r ≠ nonQuadratic)
    (hFails : ∀ w : C → ZMod p, w constantCoefficient = 1 → op (l.value w) (r.value w) = none) :
    Computes op l r none where
  formed _ hOk := absurd hOk nofun
  value _ hOk := absurd hOk nofun
  fails _ := ⟨hl, hr, hFails⟩

/-- An operation that commutes is computed either way. -/
theorem Computes.swap (hComm : ∀ x y, op x y = op y x) {result : Option (ArithmeticExpression C)}
    (h : Computes op l r result) : Computes op r l result where
  formed := h.formed
  value e hOk hne := by
    obtain ⟨hl, hr, hValue⟩ := h.value e hOk hne
    exact ⟨hr, hl, fun w hOne => (hComm _ _).trans (hValue w hOne)⟩
  fails hFail := by
    obtain ⟨hl, hr, hFails⟩ := h.fails hFail
    exact ⟨hr, hl, fun w hOne => (hComm _ _).trans (hFails w hOne)⟩

-- products ------------------------------------------------------------------

/-- A symbol alone, with a coefficient. -/
theorem single_spec (symbol : C) (value : Int) :
    constantCoefficient ∈ (Coefficients.initializeHashmap ∅).addSymbol symbol value p ∧
      ∀ w : C → ZMod p,
        ((Coefficients.initializeHashmap ∅).addSymbol symbol value p).eval w = value * w symbol := by
  obtain ⟨hMem, hEval⟩ := empty_initializeHashmap (C := C) (R := ZMod p)
  refine ⟨Coefficients.mem_addSymbol.mpr (.inr hMem), ?_⟩
  intro w
  rw [Coefficients.eval_addSymbol ModularArithmetic.cast_field, hEval, zero_add]

/-- A product with a number. -/
theorem computes_mul_number (value : Int) (hr : r.Initialized) :
    Computes (p := p) (fun x y => some (x * y)) (number value) r
      (some (mul (number value) r p)) := by
  cases r with
  | number value' =>
    refine .of_value (formed_number (modulus_inField _)) nofun nofun fun w _ => ?_
    exact congrArg some (ModularArithmetic.cast_mul ModularArithmetic.cast_field _ _).symm
  | signal symbol =>
    obtain ⟨hMem, hEval⟩ := single_spec (p := p) symbol value
    exact .of_value (formed_linear hMem) nofun nofun fun w _ => congrArg some (hEval w).symm
  | linear h =>
    refine .of_value (formed_linear (Coefficients.mem_multiplyByConstant.mpr hr)) nofun nofun
      fun w _ => ?_
    exact congrArg some
      (Coefficients.eval_multiplyByConstant ModularArithmetic.cast_field value h).symm
  | quadratic a b c =>
    obtain ⟨ha, hb, hc⟩ := hr
    refine .of_value (formed_quadratic (Coefficients.mem_multiplyByConstant.mpr ha) hb
      (Coefficients.mem_multiplyByConstant.mpr hc)) nofun nofun fun w _ => congrArg some ?_
    show (value : ZMod p) * (a.eval w * b.eval w + c.eval w) =
      (a.multiplyByConstant value p).eval w * b.eval w + (c.multiplyByConstant value p).eval w
    rw [Coefficients.eval_multiplyByConstant ModularArithmetic.cast_field,
      Coefficients.eval_multiplyByConstant ModularArithmetic.cast_field]
    ring
  | nonQuadratic => exact computes_nonQuadratic

/-- The product of two expressions that are linear. -/
theorem computes_product {a b : Coefficients C} (ha : constantCoefficient ∈ a)
    (hb : constantCoefficient ∈ b) (hl : l ≠ nonQuadratic) (hr : r ≠ nonQuadratic)
    (hValue : ∀ w : C → ZMod p, l.value w * r.value w = a.eval w * b.eval w) :
    Computes (p := p) (fun x y => some (x * y)) l r
      (some (quadratic a b (Coefficients.initializeHashmap ∅))) := by
  obtain ⟨hMem, hEval⟩ := empty_initializeHashmap (C := C) (R := ZMod p)
  refine .of_value (formed_quadratic ha hb hMem) hl hr fun w _ => congrArg some ?_
  rw [hValue, value, hEval, add_zero]

/-- `mul` computes the product, or gives up. -/
theorem computes_mul (hl : l.Initialized) (hr : r.Initialized) :
    Computes (p := p) (fun x y => some (x * y)) l r (some (mul l r p)) := by
  have hComm : ∀ x y : ZMod p, some (x * y) = some (y * x) := fun x y =>
    congrArg some (mul_comm x y)
  have hSingle : ∀ (symbol : C) (w : C → ZMod p), w symbol =
      ((Coefficients.initializeHashmap ∅).addSymbol symbol 1 p).eval w := by
    intro symbol w
    rw [(single_spec symbol 1).2 w, Int.cast_one, one_mul]
  cases l with
  | number value => exact computes_mul_number value hr
  | signal symbol =>
    cases r with
    | number value => exact (computes_mul_number value hl).swap hComm
    | signal symbol' =>
      refine computes_product (single_spec symbol 1).1 (single_spec symbol' 1).1 nofun nofun ?_
      exact fun w => congrArg₂ (· * ·) (hSingle symbol w) (hSingle symbol' w)
    | linear h =>
      refine computes_product hr (single_spec symbol 1).1 nofun nofun fun w => ?_
      exact (mul_comm _ _).trans (congrArg (h.eval w * ·) (hSingle symbol w))
    | quadratic => exact computes_nonQuadratic
    | nonQuadratic => exact computes_nonQuadratic
  | linear h =>
    cases r with
    | number value => exact (computes_mul_number value hl).swap hComm
    | signal symbol =>
      refine computes_product hl (single_spec symbol 1).1 nofun nofun fun w => ?_
      exact congrArg (h.eval w * ·) (hSingle symbol w)
    | linear h' => exact computes_product hl hr nofun nofun fun _ => rfl
    | quadratic => exact computes_nonQuadratic
    | nonQuadratic => exact computes_nonQuadratic
  | quadratic a b c =>
    cases r with
    | number value => exact (computes_mul_number value hl).swap hComm
    | signal => exact computes_nonQuadratic
    | linear => exact computes_nonQuadratic
    | quadratic => exact computes_nonQuadratic
    | nonQuadratic => exact computes_nonQuadratic
  | nonQuadratic => cases r <;> exact computes_nonQuadratic

-- sums ----------------------------------------------------------------------

/-- A quadratic expression and one that is affine. -/
theorem computes_add_quadratic {a b c : Coefficients C} (hl : l.Initialized)
    (hr : (quadratic a b c).Initialized) :
    Computes (p := p) (fun x y => some (x + y)) l (quadratic a b c)
      (add l (quadratic a b c) p) := by
  obtain ⟨ha, hb, hc⟩ := hr
  -- only the linear part changes
  have hPart : ∀ {c' : Coefficients C}, l ≠ nonQuadratic → constantCoefficient ∈ c' →
      (∀ w : C → ZMod p, w constantCoefficient = 1 → c'.eval w = l.value w + c.eval w) →
      Computes (p := p) (fun x y => some (x + y)) l (quadratic a b c)
        (some (quadratic a b c')) := by
    intro c' hne hc' hEval
    refine .of_value (formed_quadratic ha hb hc') hne nofun fun w hOne => congrArg some ?_
    show l.value w + (a.eval w * b.eval w + c.eval w) = a.eval w * b.eval w + c'.eval w
    rw [hEval w hOne]
    ring
  cases l with
  | number v =>
    obtain ⟨c', hOk, hKeys⟩ := Coefficients.addConstant_eq_some v p hc
    have hAdd : add (number v) (quadratic a b c) p = some (quadratic a b c') := by
      show (c.addConstant v p).bind _ = _
      rw [hOk]
      rfl
    rw [hAdd]
    refine hPart nofun ((hKeys _).mpr hc) fun w hOne => ?_
    exact (Coefficients.eval_addConstant ModularArithmetic.cast_field hOne hOk).trans
      (add_comm _ _)
  | signal symbol =>
    refine hPart nofun (Coefficients.mem_addSymbol.mpr (.inr hc)) fun w _ => ?_
    rw [Coefficients.eval_addSymbol ModularArithmetic.cast_field, Int.cast_one, one_mul, add_comm]
    rfl
  | linear h =>
    exact hPart nofun (Coefficients.mem_addCoefficients.mpr (.inr hc)) fun w _ =>
      Coefficients.eval_addCoefficients ModularArithmetic.cast_field h c
  | quadratic => exact computes_nonQuadratic
  | nonQuadratic => exact computes_nonQuadratic

/-- A sum is a number only if both sides are. -/
theorem inField_add {v : Int} (h : add l r p = some (number v)) : 0 ≤ v ∧ v < p := by
  cases l with
  | number a =>
    cases r with
    | number b =>
      have hEq : number (C := C) (ModularArithmetic.add a b p) = number v := Option.some.inj h
      injection hEq with hEq
      exact hEq ▸ modulus_inField _
    | _ => simp [add, Option.bind_eq_some_iff] at h
  | signal => cases r <;> simp [add, Option.bind_eq_some_iff] at h
  | linear => cases r <;> simp [add, Option.bind_eq_some_iff] at h
  | quadratic => cases r <;> simp [add, Option.bind_eq_some_iff] at h
  | nonQuadratic => cases r <;> simp [add] at h

/-- An affine expression is what it is. -/
theorem denotes_self (hAffine : e.Affine) :
    Denotes (ZMod p) (fun _ => True) e fun w => e.value w :=
  ⟨hAffine, fun _ _ => .inr trivial, fun _ _ => rfl⟩

/-- A sum without products. -/
theorem computes_add_affine (hl : l.Affine) (hr : r.Affine) :
    Computes (p := p) (fun x y => some (x + y)) l r (add l r p) := by
  obtain ⟨e, hOk, hSum⟩ :=
    (denotes_self (p := p) hl).add ModularArithmetic.cast_field (denotes_self hr)
  have hInit : e.Initialized := by
    have hAffine := hSum.affine
    cases e with
    | number => trivial
    | signal => trivial
    | linear => exact hAffine
    | quadratic => exact hAffine.elim
    | nonQuadratic => exact hAffine.elim
  have hNe : ∀ {e' : ArithmeticExpression C}, e'.Affine → e' ≠ nonQuadratic := by
    rintro _ hAffine rfl
    exact hAffine
  rw [hOk]
  refine .of_value ⟨hInit, ?_⟩ (hNe hl) (hNe hr) fun w hOne => ?_
  · rintro v rfl
    exact inField_add hOk
  · exact congrArg some (hSum.value w hOne).symm

/-- `add` computes the sum, or gives up. -/
theorem computes_add (hl : l.Initialized) (hr : r.Initialized) :
    Computes (p := p) (fun x y => some (x + y)) l r (add l r p) := by
  have hComm : ∀ x y : ZMod p, some (x + y) = some (y + x) := fun x y =>
    congrArg some (add_comm x y)
  cases r with
  | quadratic => exact computes_add_quadratic hl hr
  | nonQuadratic => cases l <;> exact computes_nonQuadratic
  | number v =>
    cases l with
    | quadratic => exact (computes_add_quadratic hr hl).swap hComm
    | nonQuadratic => exact computes_nonQuadratic
    | _ => exact computes_add_affine hl hr
  | signal symbol =>
    cases l with
    | quadratic => exact (computes_add_quadratic hr hl).swap hComm
    | nonQuadratic => exact computes_nonQuadratic
    | _ => exact computes_add_affine hl hr
  | linear h =>
    cases l with
    | quadratic => exact (computes_add_quadratic hr hl).swap hComm
    | nonQuadratic => exact computes_nonQuadratic
    | _ => exact computes_add_affine hl hr

/-- `sub` computes the difference, or gives up. -/
theorem computes_sub (hl : l.Initialized) (hr : r.Initialized) :
    Computes (p := p) (fun x y => some (x - y)) l r (sub l r p) := by
  have hMinus := computes_mul_number (p := p) (-1) hr
  have hSum := computes_add (p := p) hl (hMinus.formed _ rfl).initialized
  have hValue : mul (number (-1)) r p ≠ nonQuadratic → r ≠ nonQuadratic ∧
      ∀ w : C → ZMod p, w constantCoefficient = 1 →
        (mul (number (-1)) r p).value w = -r.value w := by
    intro hne
    obtain ⟨-, hrne, hMul⟩ := hMinus.value _ rfl hne
    refine ⟨hrne, fun w hOne => (Option.some.inj (hMul w hOne)).symm.trans ?_⟩
    rw [value, Int.cast_neg, Int.cast_one, neg_one_mul]
  refine ⟨hSum.formed, ?_, ?_⟩
  · intro e hOk hne
    obtain ⟨hlne, hmne, hAdd⟩ := hSum.value e hOk hne
    obtain ⟨hrne, hNeg⟩ := hValue hmne
    refine ⟨hlne, hrne, fun w hOne => (congrArg some ?_).trans (hAdd w hOne)⟩
    rw [hNeg w hOne, sub_eq_add_neg]
  · intro hFail
    obtain ⟨hlne, hmne, hAdd⟩ := hSum.fails hFail
    obtain ⟨v, hNone⟩ : ∃ w : C → ZMod p, w constantCoefficient = 1 := ⟨fun _ => 1, rfl⟩
    exact absurd (hAdd v hNone) nofun

-- quotients -----------------------------------------------------------------

/-- A map can be divided by every number that is not zero in the field. -/
theorem divideByConstant_spec (hLaw : n.Lawful) (h : Coefficients C) (v : Int) :
    ((v : ZMod p) = 0 ∧ ∃ err, h.divideByConstant n v p = .error err) ∨
    ((v : ZMod p) ≠ 0 ∧ ∃ h', h.divideByConstant n v p = .ok h' ∧
      (∀ symbol, symbol ∈ h' ↔ symbol ∈ h) ∧
      ∀ w : C → ZMod p, h.eval w * (v : ZMod p)⁻¹ = h'.eval w) := by
  have hDiv := ModularArithmetic.div_ok_iff (p := p) hLaw (a := 1) (b := v)
  by_cases hZero : (v : ZMod p) = 0
  · refine .inl ⟨hZero, ?_⟩
    cases hResult : ModularArithmetic.div n 1 v p with
    | ok c => exact absurd hZero (hDiv.mp ⟨c, hResult⟩)
    | error err => exact ⟨err, by rw [Coefficients.divideByConstant, hResult]; rfl⟩
  · obtain ⟨c, hOk⟩ := hDiv.mpr hZero
    have hSome : h.divideByConstant n v p = .ok (h.multiplyByConstant c p) := by
      rw [Coefficients.divideByConstant, hOk]
      rfl
    refine .inr ⟨hZero, _, hSome, fun _ => Coefficients.mem_multiplyByConstant, fun w => ?_⟩
    have hTimes := (Coefficients.eval_divideByConstant (w := w) hLaw
      ModularArithmetic.cast_field hSome).1
    rw [← hTimes, mul_comm, ← mul_assoc, inv_mul_cancel₀ hZero, one_mul]

theorem div_meaning_zero {y : ZMod p} (hy : y = 0) (x : ZMod p) :
    InfixOpcode.div.meaning x y = none := if_pos hy

theorem div_meaning_ne_zero {y : ZMod p} (hy : y ≠ 0) (x : ZMod p) :
    InfixOpcode.div.meaning x y = some (x * y⁻¹) := if_neg hy

/-- A quotient of numbers. -/
theorem computes_div_numbers (hLaw : n.Lawful) (v v' : Int) :
    Computes (p := p) InfixOpcode.div.meaning (number v : ArithmeticExpression C) (number v')
      (div n (number v : ArithmeticExpression C) (number v') p).toOption := by
  have hDiv := ModularArithmetic.div_ok_iff (p := p) hLaw (a := v) (b := v')
  cases hResult : ModularArithmetic.div n v v' p with
  | error err =>
    have hZero : (v' : ZMod p) = 0 := by
      by_contra hne
      obtain ⟨c, hOk⟩ := hDiv.mpr hne
      exact absurd (hOk.symm.trans hResult) nofun
    rw [div, hResult]
    exact .of_fails nofun nofun fun w _ => div_meaning_zero hZero _
  | ok c =>
    have hne := hDiv.mp ⟨c, hResult⟩
    have hRange : 0 ≤ c ∧ c < p := by
      rw [ModularArithmetic.div] at hResult
      split at hResult
      next => exact Except.ok.inj hResult ▸ modulus_inField _
      next => cases hResult
    rw [div, hResult]
    refine .of_value (formed_number hRange) nofun nofun fun w _ =>
      (div_meaning_ne_zero hne _).trans (congrArg some ?_)
    have hTimes := ModularArithmetic.cast_div hLaw (ModularArithmetic.cast_field (p := p)) hResult
    show (v : ZMod p) * (v' : ZMod p)⁻¹ = c
    rw [← hTimes, mul_comm, ← mul_assoc, inv_mul_cancel₀ hne, one_mul]

/-- A map is divided by a number. -/
theorem computes_div_map (hLaw : n.Lawful) {h : Coefficients C} (hIn : constantCoefficient ∈ h)
    (hl : l ≠ nonQuadratic) (hEval : ∀ w : C → ZMod p, l.value w = h.eval w) (v : Int) :
    Computes (p := p) InfixOpcode.div.meaning l (number v)
      ((h.divideByConstant n v p).toOption.map linear) := by
  rcases divideByConstant_spec (p := p) hLaw h v with
    ⟨hZero, err, hError⟩ | ⟨hne, h', hOk, hKeys, hValue⟩
  · rw [hError]
    exact .of_fails hl nofun fun w _ => div_meaning_zero hZero _
  · rw [hOk]
    refine .of_value (formed_linear ((hKeys _).mpr hIn)) hl nofun fun w _ =>
      (div_meaning_ne_zero hne _).trans (congrArg some ?_)
    rw [hEval w]
    exact hValue w

/-- The quotient of a product divides one factor and the rest. -/
theorem computes_div_quadratic (hLaw : n.Lawful) {a b c : Coefficients C}
    (hl : (quadratic a b c).Initialized) (v : Int) :
    Computes (p := p) InfixOpcode.div.meaning (quadratic a b c) (number v)
      (div n (quadratic a b c) (number v) p).toOption := by
  obtain ⟨ha, hb, hc⟩ := hl
  rcases divideByConstant_spec (p := p) hLaw a v with
    ⟨hZero, err, hError⟩ | ⟨hne, a', hOkA, hKeysA, hValueA⟩
  · rw [div, hError]
    exact .of_fails nofun nofun fun w _ => div_meaning_zero hZero _
  · obtain ⟨c', hOkC, hKeysC, hValueC⟩ :=
      ((divideByConstant_spec (p := p) hLaw c v).resolve_left fun h => hne h.1).2
    have hQuotient : (div n (quadratic a b c) (number v) p).toOption =
        some (quadratic a' b c') := by
      rw [div, hOkA]
      show Except.toOption ((c.divideByConstant n v p).bind _) = _
      rw [hOkC]
      rfl
    rw [hQuotient]
    refine .of_value (formed_quadratic ((hKeysA _).mpr ha) hb ((hKeysC _).mpr hc)) nofun nofun
      fun w _ => (div_meaning_ne_zero hne _).trans (congrArg some ?_)
    show (a.eval w * b.eval w + c.eval w) * (v : ZMod p)⁻¹ = a'.eval w * b.eval w + c'.eval w
    rw [← hValueA w, ← hValueC w]
    ring

/-- `div` computes the quotient by a number, gives up, or reports a division by zero. -/
theorem computes_div (hLaw : n.Lawful) (hl : l.Initialized) :
    Computes (p := p) InfixOpcode.div.meaning l r (div n l r p).toOption := by
  have hMap : ∀ (h : Coefficients C) (v : Int), (do
      return linear (← h.divideByConstant n v p) :
        Except ArithmeticError (ArithmeticExpression C)).toOption =
      (h.divideByConstant n v p).toOption.map linear := by
    intro h v
    cases h.divideByConstant n v p with
    | ok => rfl
    | error => rfl
  cases r with
  | number v =>
    cases l with
    | number v' => exact computes_div_numbers hLaw v' v
    | signal symbol =>
      rw [div, hMap]
      obtain ⟨hMem, hEval⟩ := single_spec (p := p) symbol 1
      refine computes_div_map (l := signal symbol) hLaw hMem nofun (fun w => ?_) v
      rw [hEval w, Int.cast_one, one_mul]
      rfl
    | linear h =>
      rw [div, hMap]
      exact computes_div_map (l := linear h) hLaw hl nofun (fun _ => rfl) v
    | quadratic => exact computes_div_quadratic hLaw hl v
    | nonQuadratic => exact computes_nonQuadratic
  | signal => cases l <;> exact computes_nonQuadratic
  | linear => cases l <;> exact computes_nonQuadratic
  | quadratic => cases l <;> exact computes_nonQuadratic
  | nonQuadratic => cases l <;> exact computes_nonQuadratic

-- operations on numbers -----------------------------------------------------

/-- The operation gives up unless both sides are numbers. -/
def OnNumbers (f : ArithmeticExpression C → ArithmeticExpression C →
    Option (ArithmeticExpression C)) : Prop :=
  ∀ l r, f l r = some nonQuadratic ∨ ∃ v v', l = number v ∧ r = number v'

/-- An operation on numbers only is right if it is on numbers. -/
theorem OnNumbers.computes {f : ArithmeticExpression C → ArithmeticExpression C →
    Option (ArithmeticExpression C)} (hf : OnNumbers f)
    (hNumbers : ∀ v v', Computes op (number v) (number v') (f (number v) (number v')))
    (l r : ArithmeticExpression C) : Computes op l r (f l r) := by
  rcases hf l r with hUp | ⟨v, v', rfl, rfl⟩
  · rw [hUp]
    exact computes_nonQuadratic
  · exact hNumbers v v'

/-- A whole number below the prime is the number of the field. -/
theorem computes_val {v v' : Int} {a : Nat} (ha : a < p)
    (hOp : op (v : ZMod p) (v' : ZMod p) = some (a : ZMod p)) :
    Computes op (number v : ArithmeticExpression C) (number v') (some (number (a : Int))) := by
  refine .of_value (formed_number ⟨Int.natCast_nonneg a, Int.ofNat_lt.mpr ha⟩) nofun nofun
    fun w _ => hOp.trans ?_
  exact congrArg some (Int.cast_natCast a).symm

/-- `idiv` computes the quotient of whole numbers. -/
theorem computes_idiv : Computes (p := p) InfixOpcode.intDiv.meaning l r (idiv l r p).toOption := by
  refine OnNumbers.computes (f := fun l r => (idiv l r p).toOption) ?_ ?_ l r
  · intro l r
    cases l <;> cases r <;> first | exact .inl rfl | exact .inr ⟨_, _, rfl, rfl⟩
  · intro v v'
    rw [idiv, ModularArithmetic.idiv, ModularArithmetic.modulus_eq_val,
      ModularArithmetic.modulus_eq_val]
    by_cases hZero : (v' : ZMod p) = 0
    · rw [hZero, ZMod.val_zero]
      exact .of_fails nofun nofun fun w _ => if_pos hZero
    · have hne : ((v' : ZMod p).val : Int) ≠ 0 := by
        rwa [Ne, Nat.cast_eq_zero, ZMod.val_eq_zero]
      rw [if_neg hne, ← Int.ofNat_tdiv]
      exact computes_val ((Nat.div_le_self _ _).trans_lt (ZMod.val_lt _)) (if_neg hZero)

/-- `mod_op` computes the remainder, and panics where there is none. -/
theorem computes_modOp : Computes (p := p) InfixOpcode.mod.meaning l r (modOp l r p) := by
  refine OnNumbers.computes (f := fun l r => modOp l r p) ?_ ?_ l r
  · intro l r
    cases l <;> cases r <;> first | exact .inl rfl | exact .inr ⟨_, _, rfl, rfl⟩
  · intro v v'
    rw [modOp, ModularArithmetic.modOp, ModularArithmetic.modulus_eq_val v',
      ModularArithmetic.modulus_eq_val v]
    by_cases hZero : (v' : ZMod p) = 0
    · rw [hZero, ZMod.val_zero]
      exact .of_fails nofun nofun fun w _ => if_pos hZero
    · have hne : ((v' : ZMod p).val : Int) ≠ 0 := by
        rwa [Ne, Nat.cast_eq_zero, ZMod.val_eq_zero]
      rw [if_neg hne, ModularArithmetic.modulus_eq (by omega), ← Int.natCast_mod]
      exact computes_val ((Nat.mod_le _ _).trans_lt (ZMod.val_lt _)) (if_neg hZero)

/-- A truth value of the operands. -/
theorem computes_bit {f : Int → Int → Int} {P : ZMod p → ZMod p → Prop}
    [∀ x y, Decidable (P x y)] (hf : ∀ a b : Int, f a b = ModularArithmetic.bit (P a b))
    (hOp : ∀ x y, op x y = some (if P x y then 1 else 0)) :
    Computes op l r (some (onNumbers f l r)) := by
  refine OnNumbers.computes (f := fun l r => some (onNumbers f l r)) ?_ ?_ l r
  · intro l r
    cases l <;> cases r <;> first | exact .inl rfl | exact .inr ⟨_, _, rfl, rfl⟩
  · intro v v'
    rw [onNumbers, hf]
    refine .of_value (formed_number ModularArithmetic.bit_range) nofun nofun fun w _ =>
      (hOp _ _).trans (congrArg some ?_)
    show (if P v v' then 1 else 0) = ((ModularArithmetic.bit (P v v') : Int) : ZMod p)
    rw [ModularArithmetic.bit]
    split
    next => rw [Int.cast_one]
    next => rw [Int.cast_zero]

-- powers --------------------------------------------------------------------

/-- The square of an expression. -/
theorem computes_square (hl : l.Initialized) {v : Int} (hRange : 0 ≤ v ∧ v < p) :
    Computes (p := p) InfixOpcode.pow.meaning l (number v)
      (some (if v = 2 then mul l l p else nonQuadratic)) := by
  split
  next hTwo =>
    have hSquare := computes_mul (p := p) hl hl
    have hVal : ((v : Int) : ZMod p).val = 2 := by
      have hCast : ((v : ZMod p).val : Int) = 2 := by
        rw [ZMod.val_intCast, Int.emod_eq_of_lt hRange.1 hRange.2, hTwo]
      exact_mod_cast hCast
    refine ⟨hSquare.formed, ?_, nofun⟩
    intro e hOk hne
    obtain ⟨hlne, -, hValue⟩ := hSquare.value e hOk hne
    refine ⟨hlne, nofun, fun w hOne => Eq.trans ?_ (hValue w hOne)⟩
    show some (l.value w ^ ((v : Int) : ZMod p).val) = some (l.value w * l.value w)
    rw [hVal, pow_two]
  next => exact computes_nonQuadratic

/-- `pow` computes powers of numbers, and squares. -/
theorem computes_pow (hPowers : n.Powers) (hl : l.Initialized) (hr : r.Formed p) :
    Computes (p := p) InfixOpcode.pow.meaning l r (pow n l r p) := by
  cases r with
  | number v =>
    have hRange := hr.inField v rfl
    cases l with
    | number v' =>
      obtain ⟨c, hOk, hLow, hHigh, hPower⟩ := ModularArithmetic.cast_pow (R := ZMod p) hPowers
        ModularArithmetic.cast_field (Int.natCast_pos.mpr (Fact.out : p.Prime).pos) v' hRange.1
      have hVal : ((v : Int) : ZMod p).val = v.toNat := by
        have hCast : ((v : ZMod p).val : Int) = v := by
          rw [ZMod.val_intCast, Int.emod_eq_of_lt hRange.1 hRange.2]
        omega
      rw [pow, hOk]
      refine .of_value (formed_number ⟨hLow, hHigh⟩) nofun nofun fun w _ => congrArg some ?_
      show (v' : ZMod p) ^ ((v : Int) : ZMod p).val = c
      rw [hVal, hPower]
    | signal symbol => exact computes_square hl hRange
    | linear h => exact computes_square hl hRange
    | quadratic => exact computes_nonQuadratic
    | nonQuadratic => exact computes_nonQuadratic
  | signal => cases l <;> exact computes_nonQuadratic
  | linear => cases l <;> exact computes_nonQuadratic
  | quadratic => cases l <;> exact computes_nonQuadratic
  | nonQuadratic => cases l <;> exact computes_nonQuadratic

/-- Every operation computes what it means. -/
theorem executeInfixOp_computes (hLaw : n.Lawful) (hPowers : n.Powers) (op : InfixOpcode)
    (hl : l.Formed p) (hr : r.Formed p) :
    Computes (p := p) op.meaning l r (executeInfixOp n op l r p) := by
  cases op with
  | mul => exact computes_mul hl.initialized hr.initialized
  | div => exact computes_div hLaw hl.initialized
  | add => exact computes_add hl.initialized hr.initialized
  | sub => exact computes_sub hl.initialized hr.initialized
  | pow => exact computes_pow hPowers hl.initialized hr
  | intDiv => exact computes_idiv
  | mod => exact computes_modOp
  | lesserEq => exact computes_bit ModularArithmetic.lesserEq_eq_bit fun _ _ => rfl
  | greaterEq => exact computes_bit ModularArithmetic.greaterEq_eq_bit fun _ _ => rfl
  | lesser => exact computes_bit ModularArithmetic.lesser_eq_bit fun _ _ => rfl
  | greater => exact computes_bit ModularArithmetic.greater_eq_bit fun _ _ => rfl
  | eq => exact computes_bit ModularArithmetic.eq_eq_bit fun _ _ => rfl
  | notEq => exact computes_bit ModularArithmetic.notEq_eq_bit fun _ _ => rfl
  | boolOr => exact computes_bit ModularArithmetic.boolOr_eq_bit fun _ _ => rfl
  | boolAnd => exact computes_bit ModularArithmetic.boolAnd_eq_bit fun _ _ => rfl

/-- A prefix operator has its meaning. -/
theorem executePrefixOp_spec (op : PrefixOpcode) (he : e.Formed p) :
    (executePrefixOp op e p).Formed p ∧ (executePrefixOp op e p ≠ nonQuadratic →
      e ≠ nonQuadratic ∧ ∀ w : C → ZMod p, w constantCoefficient = 1 →
        op.meaning (e.value w) = (executePrefixOp op e p).value w) := by
  cases op with
  | sub =>
    have hMul : Computes (p := p) (fun x y => some (x * y)) e (number (-1))
        (some (mul e (number (-1)) p)) := computes_mul he.initialized trivial
    refine ⟨hMul.formed _ rfl, fun hne => ?_⟩
    obtain ⟨hene, -, hValue⟩ := hMul.value _ rfl hne
    refine ⟨hene, fun w hOne => Eq.trans ?_ (Option.some.inj (hValue w hOne))⟩
    show -e.value w = e.value w * ((-1 : Int) : ZMod p)
    rw [Int.cast_neg, Int.cast_one, mul_neg_one]
  | boolNot =>
    cases e with
    | number v =>
      have hBit : executePrefixOp .boolNot (number v : ArithmeticExpression C) p =
          number (ModularArithmetic.bit ((v : ZMod p) = 0)) :=
        congrArg number (ModularArithmetic.not_eq_bit v)
      rw [hBit]
      refine ⟨formed_number ModularArithmetic.bit_range, fun _ => ⟨nofun, fun w _ => ?_⟩⟩
      show (if (v : ZMod p) = 0 then 1 else 0) =
        ((ModularArithmetic.bit ((v : ZMod p) = 0) : Int) : ZMod p)
      rw [ModularArithmetic.bit]
      split
      next => rw [Int.cast_one]
      next => rw [Int.cast_zero]
    | signal => exact ⟨formed_nonQuadratic, fun hne => absurd rfl hne⟩
    | linear => exact ⟨formed_nonQuadratic, fun hne => absurd rfl hne⟩
    | quadratic => exact ⟨formed_nonQuadratic, fun hne => absurd rfl hne⟩
    | nonQuadratic => exact ⟨formed_nonQuadratic, fun hne => absurd rfl hne⟩

end ArithmeticExpression

-- ---------------------------------------------------------------------------
-- Expressions
-- ---------------------------------------------------------------------------

namespace Expression

open ArithmeticExpression (Formed formed_number formed_signal formed_nonQuadratic)

/-- What the execution of an expression may result in: an expression of the same meaning, unless
it is given up, and a failure only where there is no meaning. -/
structure Executes (meaning : (C → ZMod p) → Option (ZMod p))
    (result : Option (ArithmeticExpression C)) : Prop where
  formed : ∀ e, result = some e → e.Formed p
  value : ∀ e, result = some e → e ≠ .nonQuadratic →
    ∀ w : C → ZMod p, w constantCoefficient = 1 → meaning w = some (e.value w)
  fails : result = none → ∀ w : C → ZMod p, w constantCoefficient = 1 → meaning w = none

variable {m m' : (C → ZMod p) → Option (ZMod p)} {result : Option (ArithmeticExpression C)}

theorem Executes.of_value {e : ArithmeticExpression C} (hFormed : e.Formed p)
    (hValue : ∀ w : C → ZMod p, w constantCoefficient = 1 → m w = some (e.value w)) :
    Executes m (some e) where
  formed _ hOk := Option.some.inj hOk ▸ hFormed
  value _ hOk _ := Option.some.inj hOk ▸ hValue
  fails hFail := absurd hFail nofun

/-- Giving up is always right. -/
theorem executes_nonQuadratic : Executes m (some .nonQuadratic) where
  formed _ hOk := Option.some.inj hOk ▸ formed_nonQuadratic
  value _ hOk hne := absurd (Option.some.inj hOk).symm hne
  fails hFail := absurd hFail nofun

/-- The meaning only matters where the constant is one. -/
theorem Executes.congr (h : Executes m result)
    (hSame : ∀ w : C → ZMod p, w constantCoefficient = 1 → m' w = m w) : Executes m' result where
  formed := h.formed
  value e hOk hne w hOne := (hSame w hOne).trans (h.value e hOk hne w hOne)
  fails hFail w hOne := (hSame w hOne).trans (h.fails hFail w hOne)

/-- An infix operator between expressions that are executed. -/
theorem Executes.infixOp (hLaw : n.Lawful) (hPowers : n.Powers) (op : InfixOpcode)
    {result' : Option (ArithmeticExpression C)} (hl : Executes m result)
    (hr : Executes m' result') :
    Executes (fun w => do op.meaning (← m w) (← m' w))
      (do executeInfixOp n op (← result) (← result') p) := by
  cases result with
  | none =>
    refine ⟨nofun, nofun, fun _ w hOne => ?_⟩
    rw [hl.fails rfl w hOne]
    rfl
  | some l =>
    cases result' with
    | none =>
      refine ⟨nofun, nofun, fun _ w hOne => ?_⟩
      rw [hr.fails rfl w hOne]
      cases m w <;> rfl
    | some r =>
      have hOp := ArithmeticExpression.executeInfixOp_computes hLaw hPowers op
        (hl.formed l rfl) (hr.formed r rfl)
      refine ⟨hOp.formed, ?_, ?_⟩
      · intro e hOk hne w hOne
        obtain ⟨hlne, hrne, hValue⟩ := hOp.value e hOk hne
        rw [hl.value l rfl hlne w hOne, hr.value r rfl hrne w hOne]
        exact hValue w hOne
      · intro hFail w hOne
        obtain ⟨hlne, hrne, hFails⟩ := hOp.fails hFail
        rw [hl.value l rfl hlne w hOne, hr.value r rfl hrne w hOne]
        exact hFails w hOne

/-- A prefix operator before an expression that is executed. -/
theorem Executes.prefixOp (op : PrefixOpcode) (h : Executes m result) :
    Executes (fun w => (m w).map op.meaning) (do return executePrefixOp op (← result) p) := by
  cases result with
  | none =>
    refine ⟨nofun, nofun, fun _ w hOne => ?_⟩
    rw [h.fails rfl w hOne]
    rfl
  | some e =>
    obtain ⟨hFormed, hSpec⟩ := ArithmeticExpression.executePrefixOp_spec op (h.formed e rfl)
    refine ⟨fun _ hOk => Option.some.inj hOk ▸ hFormed, ?_, nofun⟩
    rintro _ ⟨⟩ hne w hOne
    obtain ⟨hene, hValue⟩ := hSpec hne
    rw [h.value e rfl hene w hOne, Option.map_some, hValue w hOne]

/-- A switch with a condition that is a number is the side chosen. -/
theorem Executes.inlineSwitchOp {t f : (C → ZMod p) → Option (ZMod p)}
    {ifTrue ifFalse : Option (ArithmeticExpression C)} (h : Executes m result)
    (hTrue : Executes t ifTrue) (hFalse : Executes f ifFalse) :
    Executes (fun w => do if (← m w) = 0 then f w else t w) (do
      match (← result).getBooleanEquivalence p with
      | some true => ifTrue
      | some false => ifFalse
      | none => some .nonQuadratic) := by
  cases result with
  | none =>
    refine ⟨nofun, nofun, fun _ w hOne => ?_⟩
    rw [h.fails rfl w hOne]
    rfl
  | some e =>
    cases e with
    | number v =>
      have hValue : ∀ w : C → ZMod p, w constantCoefficient = 1 → m w = some (v : ZMod p) :=
        h.value _ rfl nofun
      show Executes _ (match some (ModularArithmetic.asBool v p) with
        | some true => ifTrue
        | some false => ifFalse
        | none => some .nonQuadratic)
      cases hBool : ModularArithmetic.asBool v p with
      | true =>
        have hne := (ModularArithmetic.asBool_eq v).mp hBool
        refine hTrue.congr fun w hOne => ?_
        rw [hValue w hOne]
        exact if_neg hne
      | false =>
        have hZero : (v : ZMod p) = 0 := by
          by_contra hne
          exact absurd ((ModularArithmetic.asBool_eq v).mpr hne) (by simp [hBool])
        refine hFalse.congr fun w hOne => ?_
        rw [hValue w hOne]
        exact if_pos hZero
    | signal => exact executes_nonQuadratic
    | linear => exact executes_nonQuadratic
    | quadratic => exact executes_nonQuadratic
    | nonQuadratic => exact executes_nonQuadratic

/-- What is executed means what is written. -/
theorem execute_spec (hLaw : n.Lawful) (hPowers : n.Powers) {e : Expression C}
    (hIn : e.InField p) : Executes (fun w : C → ZMod p => e.meaning w) (e.execute n p) := by
  induction e with
  | number value => exact .of_value (formed_number hIn) fun _ _ => rfl
  | signal symbol => exact .of_value (formed_signal symbol) fun _ _ => rfl
  | infixOp op lhe rhe ihl ihr => exact (ihl hIn.1).infixOp hLaw hPowers op (ihr hIn.2)
  | prefixOp op rhe ih => exact (ih hIn).prefixOp op
  | inlineSwitchOp cond ifTrue ifFalse ihc iht ihf =>
    exact (ihc hIn.1).inlineSwitchOp (iht hIn.2.1) (ihf hIn.2.2)

end Expression

-- ---------------------------------------------------------------------------
-- Equations
-- ---------------------------------------------------------------------------

/-- The constraint form of an expression says that its value is zero. -/
theorem ArithmeticExpression.holds_constraintForm {e : ArithmeticExpression C} {k : Constraint C}
    (hOk : e.transformExpressionToConstraintForm p = some k) {w : C → ZMod p}
    (hOne : w constantCoefficient = 1) : k.Holds w ↔ e.value w = 0 := by
  let zero : Coefficients C := Coefficients.initializeHashmap ∅
  have hZero : zero.eval w = 0 := (empty_initializeHashmap (R := ZMod p)).2 w
  have hMinus : ∀ c : Coefficients C, (c.multiplyByConstant (-1) p).eval w = -c.eval w := by
    intro c
    rw [Coefficients.eval_multiplyByConstant ModularArithmetic.cast_field, Int.cast_neg,
      Int.cast_one, neg_one_mul]
  have hLinear : ∀ c : Coefficients C,
      Constraint.Holds w ⟨zero, zero, c.multiplyByConstant (-1) p⟩ ↔ c.eval w = 0 := by
    intro c
    rw [Constraint.Holds, hMinus, hZero, zero_mul, zero_eq_neg]
  have hInsert : ∀ (symbol : C) (v : Int),
      Coefficients.eval w (zero.insert symbol v) = v * w symbol := by
    intro symbol v
    have hRest : Coefficients.eval w (zero.erase symbol) = 0 := Coefficients.eval_eq_zero
      fun _ _ hStored =>
        (Coefficients.get?_initializeHashmap_empty (Store.get?_of_erase hStored).2).2
    rw [Coefficients.eval_insert, hRest, add_zero]
  cases e with
  | number v =>
    obtain rfl := Option.some.inj hOk
    refine (hLinear _).trans ?_
    rw [hInsert, hOne, mul_one]
    rfl
  | signal symbol =>
    obtain rfl := Option.some.inj hOk
    refine (hLinear _).trans ?_
    rw [hInsert, Int.cast_one, one_mul]
    rfl
  | linear c =>
    obtain rfl := Option.some.inj hOk
    exact hLinear c
  | quadratic a b c =>
    obtain rfl := Option.some.inj hOk
    rw [Constraint.Holds, hMinus, eq_neg_iff_add_eq_zero]
    rfl
  | nonQuadratic => cases hOk

/-- Only an expression that is not quadratic has no constraint. -/
theorem ArithmeticExpression.constraintForm_eq_none {e : ArithmeticExpression C} {field : Int} :
    e.transformExpressionToConstraintForm field = none ↔ e = nonQuadratic := by
  cases e with
  | nonQuadratic => exact iff_of_true rfl rfl
  | _ => exact iff_of_false nofun nofun

/-- A constraint is the form of the difference of both sides. -/
theorem executeConstraintEquality_eq_some {field : Int} {lhe rhe : Expression C}
    {k : Constraint C} (h : executeConstraintEquality n field lhe rhe = some k) :
    ∃ l r e, lhe.execute n field = some l ∧ rhe.execute n field = some r ∧
      ArithmeticExpression.sub l r field = some e ∧
      e.transformExpressionToConstraintForm field = some k := by
  obtain ⟨l, hl, h⟩ := Option.bind_eq_some_iff.mp h
  obtain ⟨r, hr, h⟩ := Option.bind_eq_some_iff.mp h
  obtain ⟨e, he, hk⟩ := Option.bind_eq_some_iff.mp h
  exact ⟨l, r, e, hl, hr, he, hk⟩

/-- The constraint of an equation holds of the assignments at which both sides mean the
same. -/
theorem holds_executeConstraintEquality (hLaw : n.Lawful) (hPowers : n.Powers)
    {lhe rhe : Expression C} (hl : lhe.InField p) (hr : rhe.InField p) {k : Constraint C}
    (h : executeConstraintEquality n p lhe rhe = some k) {w : C → ZMod p}
    (hOne : w constantCoefficient = 1) :
    (lhe.meaning w).isSome ∧ (rhe.meaning w).isSome ∧
      (k.Holds w ↔ lhe.meaning w = rhe.meaning w) := by
  have hLeft := Expression.execute_spec hLaw hPowers hl
  have hRight := Expression.execute_spec hLaw hPowers hr
  obtain ⟨l, r, e, hExecL, hExecR, hDiff, hForm⟩ := executeConstraintEquality_eq_some h
  have hne : e ≠ .nonQuadratic := by
    intro hEq
    rw [ArithmeticExpression.constraintForm_eq_none.mpr hEq] at hForm
    cases hForm
  obtain ⟨hlne, hrne, hValue⟩ := (ArithmeticExpression.computes_sub
    (hLeft.formed l hExecL).initialized (hRight.formed r hExecR).initialized).value e hDiff hne
  rw [hLeft.value l hExecL hlne w hOne, hRight.value r hExecR hrne w hOne, Option.some.injEq]
  refine ⟨rfl, rfl, (ArithmeticExpression.holds_constraintForm hForm hOne).trans ?_⟩
  rw [← Option.some.inj (hValue w hOne), sub_eq_zero]

namespace Sample

end Sample

/-- An equation of a template, in a subcircuit: the constraint says of the numbers what the
equation says of the names. -/
theorem Tree.At.holds_equality (hLaw : n.Lawful) (hPowers : n.Powers) {dag : DAG} {t : Tree}
    {node : Node} (h : dag.Sound) (hAt : Tree.At dag t node) {lhe rhe : Expression String}
    (hl : lhe.InField p) (hr : rhe.InField p) {k : Constraint String} {c : Constraint Nat}
    (hEquality : executeConstraintEquality n p lhe rhe = some k)
    (hOk : k.applyCorrespondence node.signalCorrespondence = some c) {w : Nat → ZMod p}
    (hOne : w 0 = 1) :
    let named : String → ZMod p :=
      fun name => w (shift t.offset (numbered node.signalCorrespondence name))
    (c.applyOffset t.offset).Holds w ↔ lhe.meaning named = rhe.meaning named := by
  intro named
  obtain ⟨edges, -, hSound, -⟩ := Tree.exists_edges h hAt
  have hHolds : (c.applyOffset t.offset).Holds w ↔ k.Holds named :=
    Constraint.holds_applyOffset.trans (hSound.holds_written hOk _)
  exact hHolds.trans
    (holds_executeConstraintEquality hLaw hPowers hl hr hEquality hOne).2.2

end Ganc.Circom
