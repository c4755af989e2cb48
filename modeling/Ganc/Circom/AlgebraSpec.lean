import Ganc.Circom.Algebra

/-!
# circom — what expressions and constraints mean

The value of a map of coefficients under an assignment of ring elements to
symbols, the constant standing for one, and what every operation on maps,
expressions, constraints and substitutions does to it and to the symbols that
occur. The proofs about the simplification unfold none of the operations.
-/

set_option linter.unusedSectionVars false

namespace Ganc.Circom

variable {C : Type} [Ord C] [Std.TransOrd C] [Std.LawfulEqOrd C] [DecidableEq C] [Inhabited C]
variable {R : Type} [CommRing R] {field : Int} {w : C → R}

-- ---------------------------------------------------------------------------
-- Maps of coefficients
-- ---------------------------------------------------------------------------

/-- The value of a linear expression. -/
def Coefficients.eval (w : C → R) (h : Coefficients C) : R :=
  Store.total (fun (symbol : C) (value : Int) => (value : R) * w symbol) h

namespace Coefficients

variable {h h' : Coefficients C}

theorem eval_empty : eval w (∅ : Coefficients C) = 0 := Store.total_empty _

theorem eval_erase {symbol : C} {value : Int} (hStored : h[symbol]? = some value) :
    eval w h = value * w symbol + eval w (h.erase symbol) :=
  (Store.total_erase _ hStored).symm

/-- An entry counts in place of the old one. -/
theorem eval_insert (h : Coefficients C) (symbol : C) (value : Int) :
    eval w (h.insert symbol value) = value * w symbol + eval w (h.erase symbol) := by
  rw [← Store.insert_erase]
  exact Store.total_insert_of_fresh _ _ Std.ExtTreeMap.getElem?_erase_self

theorem eval_erase_of_notMem {symbol : C} (hNot : symbol ∉ h) :
    eval w (h.erase symbol) = eval w h := by
  rw [Store.erase_of_get?_none (Store.notMem_iff.mp hNot)]

/-- Only the symbols that occur matter. -/
theorem eval_congr {w' : C → R} (hSame : ∀ symbol ∈ h, w' symbol = w symbol) :
    eval w' h = eval w h := by
  refine Store.total_congr ?_
  intro symbol value hStored
  rw [hSame symbol (Store.mem_iff.mpr ⟨value, hStored⟩)]

/-- The constant is added to the symbols. -/
theorem mem_initializeHashmap {symbol : C} :
    symbol ∈ h.initializeHashmap ↔ symbol = constantCoefficient ∨ symbol ∈ h := by
  rw [initializeHashmap]
  split
  next hIn => exact ⟨.inr, fun hOr => hOr.elim (fun hEq => hEq ▸ hIn) id⟩
  next => exact Store.mem_insert

/-- A constant of zero does not count. -/
theorem eval_initializeHashmap : eval w h.initializeHashmap = eval w h := by
  rw [initializeHashmap]
  split
  next => rfl
  next hNot => rw [eval_insert, eval_erase_of_notMem hNot, Int.cast_zero, zero_mul, zero_add]

theorem mem_addSymbol {symbol symbol' : C} {value : Int} :
    symbol' ∈ h.addSymbol symbol value field ↔ symbol' = symbol ∨ symbol' ∈ h := by
  rw [addSymbol, Store.mem_insert, initializeSymbol]
  split
  next => rfl
  next => rw [Store.mem_insert, or_self_left]

/-- A multiple of the symbol is added. -/
theorem eval_addSymbol (hField : (field : R) = 0) (h : Coefficients C) (symbol : C) (value : Int) :
    eval w (h.addSymbol symbol value field) = eval w h + value * w symbol := by
  have hOld : ∀ m : Coefficients C, symbol ∈ m →
      eval w (m.insert symbol (ModularArithmetic.add (m[symbol]?.getD 0) value field)) =
        eval w m + value * w symbol := by
    intro m hIn
    obtain ⟨old, hStored⟩ := Store.mem_iff.mp hIn
    rw [eval_insert, eval_erase hStored, hStored, Option.getD_some,
      ModularArithmetic.cast_add hField]
    ring
  rw [addSymbol, initializeSymbol]
  split
  next hIn => exact hOld h hIn
  next hNot =>
    rw [hOld _ (Store.mem_insert.mpr (.inl rfl)), eval_insert, eval_erase_of_notMem hNot,
      Int.cast_zero, zero_mul, zero_add]

/-- The symbols remain; there must be a constant. -/
theorem addConstant_eq_some (value field : Int) (hIn : constantCoefficient ∈ h) :
    ∃ h', h.addConstant value field = some h' ∧ ∀ symbol, symbol ∈ h' ↔ symbol ∈ h := by
  obtain ⟨old, hStored⟩ := Store.mem_iff.mp hIn
  refine ⟨_, by rw [addConstant, hStored, Option.map_some], ?_⟩
  intro symbol
  rw [Store.mem_insert]
  exact ⟨fun hOr => hOr.elim (fun hEq => hEq ▸ hIn) id, .inr⟩

/-- A constant is added to the value. -/
theorem eval_addConstant (hField : (field : R) = 0) (hOne : w constantCoefficient = 1)
    {value : Int} (hOk : h.addConstant value field = some h') :
    eval w h' = eval w h + value := by
  rw [addConstant, Option.map_eq_some_iff] at hOk
  obtain ⟨old, hStored, rfl⟩ := hOk
  rw [eval_insert, eval_erase hStored, ModularArithmetic.cast_add hField, hOne]
  ring

/-- A sum has the symbols of both. -/
theorem mem_addCoefficients {h₀ h₁ : Coefficients C} {symbol : C} :
    symbol ∈ h₀.addCoefficients h₁ field ↔ symbol ∈ h₀ ∨ symbol ∈ h₁ := by
  have hFold : ∀ (kvs : List (C × Int)) (acc : Coefficients C),
      symbol ∈ kvs.foldl (fun acc kv => acc.addSymbol kv.1 kv.2 field) acc ↔
        symbol ∈ kvs.map Prod.fst ∨ symbol ∈ acc := by
    intro kvs
    induction kvs with
    | nil => simp
    | cons kv kvs ih =>
      intro acc
      rw [List.foldl_cons, ih, mem_addSymbol, List.map_cons, List.mem_cons, ← or_assoc,
        or_comm (a := symbol ∈ kvs.map Prod.fst)]
  rw [addCoefficients, hFold]
  refine or_congr_left ?_
  rw [Store.mem_iff, List.mem_map]
  constructor
  · rintro ⟨kv, hkv, rfl⟩
    exact ⟨kv.2, Store.mem_toList.mp hkv⟩
  · rintro ⟨value, hStored⟩
    exact ⟨(symbol, value), Store.mem_toList.mpr hStored, rfl⟩

/-- The value of a sum is the sum of the values. -/
theorem eval_addCoefficients (hField : (field : R) = 0) (h₀ h₁ : Coefficients C) :
    eval w (h₀.addCoefficients h₁ field) = eval w h₀ + eval w h₁ := by
  have hFold : ∀ (kvs : List (C × Int)) (acc : Coefficients C),
      eval w (kvs.foldl (fun acc kv => acc.addSymbol kv.1 kv.2 field) acc) =
        (kvs.map fun kv => (kv.2 : R) * w kv.1).sum + eval w acc := by
    intro kvs
    induction kvs with
    | nil => simp
    | cons kv kvs ih =>
      intro acc
      rw [List.foldl_cons, ih, eval_addSymbol hField, List.map_cons, List.sum_cons]
      ring
  rw [addCoefficients, hFold]
  rfl

theorem mem_multiplyByConstant {constant : Int} {symbol : C} :
    symbol ∈ h.multiplyByConstant constant field ↔ symbol ∈ h := by
  rw [multiplyByConstant]
  exact Std.ExtTreeMap.mem_map

/-- The value of a multiple is the multiple of the value. -/
theorem eval_multiplyByConstant (hField : (field : R) = 0) (constant : Int)
    (h : Coefficients C) : eval w (h.multiplyByConstant constant field) = constant * eval w h := by
  rw [eval, Store.total, multiplyByConstant, Std.ExtTreeMap.toList_map, List.map_map, eval,
    Store.total, ← List.sum_map_mul_left]
  refine congrArg List.sum (List.map_congr_left ?_)
  intro kv _
  show ((ModularArithmetic.mul kv.2 constant field : Int) : R) * w kv.1 = _
  rw [ModularArithmetic.cast_mul hField]
  ring

theorem get?_multiplyByConstant (constant : Int) (h : Coefficients C) (symbol : C) :
    (h.multiplyByConstant constant field)[symbol]? =
      h[symbol]?.map fun value => ModularArithmetic.mul value constant field := by
  rw [multiplyByConstant, Std.ExtTreeMap.getElem?_map]

theorem get?_removeZeroValue {symbol : C} {value : Int} :
    h.removeZeroValue[symbol]? = some value ↔ h[symbol]? = some value ∧ value ≠ 0 := by
  rw [removeZeroValue, Std.ExtTreeMap.getElem?_filter', Option.filter_eq_some_iff]
  simp

theorem mem_of_mem_removeZeroValue {symbol : C} (hIn : symbol ∈ h.removeZeroValue) :
    symbol ∈ h := by
  obtain ⟨value, hStored⟩ := Store.mem_iff.mp hIn
  exact Store.mem_iff.mpr ⟨value, (get?_removeZeroValue.mp hStored).1⟩

/-- Coefficients of zero do not count. -/
theorem eval_removeZeroValue : eval w h.removeZeroValue = eval w h := by
  have hFilter : ∀ kvs : List (C × Int),
      ((kvs.filter fun kv => kv.2 ≠ 0).map fun kv => (kv.2 : R) * w kv.1).sum =
        (kvs.map fun kv => (kv.2 : R) * w kv.1).sum := by
    intro kvs
    induction kvs with
    | nil => rfl
    | cons kv kvs ih =>
      by_cases hZero : kv.2 = 0
      · rw [List.filter_cons_of_neg (by simpa using hZero), ih, List.map_cons, List.sum_cons, hZero,
          Int.cast_zero, zero_mul, zero_add]
      · rw [List.filter_cons_of_pos (by simpa using hZero), List.map_cons, List.sum_cons, ih,
          List.map_cons, List.sum_cons]
  rw [eval, Store.total, removeZeroValue, Std.ExtTreeMap.toList_filter, eval, Store.total]
  exact hFilter h.toList

/-- If all coefficients are zero, none remains. -/
theorem removeZeroValue_eq_empty (hZero : ∀ (symbol : C) (value : Int),
    h[symbol]? = some value → value = 0) : h.removeZeroValue = ∅ := by
  refine Std.ExtTreeMap.ext_getElem? ?_
  intro symbol
  refine Option.ext ?_
  intro value
  rw [get?_removeZeroValue]
  refine iff_of_false ?_ (by simp)
  rintro ⟨hStored, hNe⟩
  exact hNe (hZero symbol value hStored)

/-- A map of zeros. -/
theorem eval_eq_zero (hZero : ∀ (symbol : C) (value : Int), h[symbol]? = some value → value = 0) :
    eval w h = 0 := by
  rw [← eval_removeZeroValue, removeZeroValue_eq_empty hZero, eval_empty]

/-- What an initialised map starts from. -/
theorem get?_initializeHashmap_empty {symbol : C} {value : Int}
    (hStored : (initializeHashmap (∅ : Coefficients C))[symbol]? = some value) :
    symbol = constantCoefficient ∧ value = 0 := by
  have hInsert : initializeHashmap (∅ : Coefficients C) =
      (∅ : Coefficients C).insert constantCoefficient 0 := if_neg Std.ExtTreeMap.not_mem_empty
  rw [hInsert, Store.get?_insert] at hStored
  split at hStored
  next hConstant => exact ⟨hConstant, (Option.some.inj hStored).symm⟩
  next => simp at hStored

theorem mem_initializeHashmap_empty {symbol : C} :
    symbol ∈ initializeHashmap (∅ : Coefficients C) ↔ symbol = constantCoefficient :=
  mem_initializeHashmap.trans (or_iff_left Std.ExtTreeMap.not_mem_empty)

theorem eval_of_isEmpty (hEmpty : h.isEmpty = true) : eval w h = 0 := by
  rw [Std.ExtTreeMap.isEmpty_iff.mp hEmpty, eval_empty]

/-- The quotient times the divisor is the value, and the symbols remain. -/
theorem eval_divideByConstant {n : BigNumbers} (hLaw : n.Lawful) (hField : (field : R) = 0)
    {constant : Int} (hOk : h.divideByConstant n constant field = .ok h') :
    constant * eval w h' = eval w h ∧ ∀ symbol, symbol ∈ h' ↔ symbol ∈ h := by
  rw [divideByConstant] at hOk
  cases hDiv : ModularArithmetic.div n 1 constant field with
  | error e =>
    rw [hDiv] at hOk
    cases hOk
  | ok inverse =>
    rw [hDiv] at hOk
    obtain rfl := Except.ok.inj hOk
    refine ⟨?_, fun symbol => mem_multiplyByConstant⟩
    have hOne := ModularArithmetic.cast_div hLaw hField hDiv
    rw [eval_multiplyByConstant hField, ← mul_assoc, hOne, Int.cast_one, one_mul]

/-- Every coefficient is a residue. -/
def Reduced (field : Int) (h : Coefficients C) : Prop :=
  ∀ (symbol : C) (value : Int), h[symbol]? = some value → 0 ≤ value ∧ value < field

section Reduced

variable (hPos : 0 < field)
include hPos

theorem Reduced.insert (hRed : h.Reduced field) (symbol : C) (value : Int) :
    Reduced field (h.insert symbol (ModularArithmetic.modulus value field) : Coefficients C) := by
  intro symbol' value' hStored
  rw [Store.get?_insert] at hStored
  split at hStored
  next => exact Option.some.inj hStored ▸ ModularArithmetic.modulus_range hPos value
  next => exact hRed symbol' value' hStored

/-- A constant of zero is reduced. -/
theorem Reduced.initializeHashmap (hRed : h.Reduced field) : h.initializeHashmap.Reduced field := by
  rw [Coefficients.initializeHashmap]
  split
  next => exact hRed
  next =>
    intro symbol value hStored
    rw [Store.get?_insert] at hStored
    split at hStored
    next => exact Option.some.inj hStored ▸ ⟨le_refl 0, hPos⟩
    next => exact hRed symbol value hStored

theorem Reduced.addSymbol (hRed : h.Reduced field) (symbol : C) (value : Int) :
    (h.addSymbol symbol value field).Reduced field := by
  rw [Coefficients.addSymbol, initializeSymbol]
  refine Reduced.insert hPos ?_ symbol _
  split
  next => exact hRed
  next =>
    intro symbol' value' hStored
    rw [Store.get?_insert] at hStored
    split at hStored
    next => exact Option.some.inj hStored ▸ ⟨le_refl 0, hPos⟩
    next => exact hRed symbol' value' hStored

/-- Adding to reduced coefficients reduces the sums. -/
theorem Reduced.addCoefficients {h₀ h₁ : Coefficients C} (hRed : h₁.Reduced field) :
    (h₀.addCoefficients h₁ field).Reduced field := by
  rw [Coefficients.addCoefficients]
  generalize h₀.toList = kvs
  induction kvs generalizing h₁ with
  | nil => exact hRed
  | cons kv kvs ih => exact ih (Reduced.addSymbol hPos hRed kv.1 kv.2)

/-- A multiple is reduced, whatever was multiplied. -/
theorem reduced_multiplyByConstant (constant : Int) (h : Coefficients C) :
    (h.multiplyByConstant constant field).Reduced field := by
  intro symbol value hStored
  rw [get?_multiplyByConstant, Option.map_eq_some_iff] at hStored
  obtain ⟨old, -, rfl⟩ := hStored
  exact ModularArithmetic.modulus_range hPos (old * constant)

omit hPos in
theorem Reduced.removeZeroValue (hRed : h.Reduced field) : h.removeZeroValue.Reduced field :=
  fun symbol value hStored => hRed symbol value (get?_removeZeroValue.mp hStored).1

end Reduced

end Coefficients

-- ---------------------------------------------------------------------------
-- Expressions
-- ---------------------------------------------------------------------------

namespace ArithmeticExpression

/-- The value of an expression; one that is not quadratic has none. -/
def value (w : C → R) : ArithmeticExpression C → R
  | number value => value
  | signal symbol => w symbol
  | linear coefficients => coefficients.eval w
  | quadratic a b c => a.eval w * b.eval w + c.eval w
  | nonQuadratic => 0

/-- The symbol occurs in the expression. -/
def Occurs (symbol : C) : ArithmeticExpression C → Prop
  | number _ => False
  | signal symbol' => symbol = symbol'
  | linear coefficients => symbol ∈ coefficients
  | quadratic a b c => symbol ∈ a ∨ symbol ∈ b ∨ symbol ∈ c
  | nonQuadratic => False

/-- A linear expression, with a constant if it is a map. -/
def Affine : ArithmeticExpression C → Prop
  | number _ => True
  | signal _ => True
  | linear coefficients => constantCoefficient ∈ coefficients
  | quadratic .. => False
  | nonQuadratic => False

/-- `e` is affine, has the value of `f` and no other symbols than `S`. -/
structure Denotes (R : Type) [CommRing R] (S : C → Prop) (e : ArithmeticExpression C)
    (f : (C → R) → R) : Prop where
  affine : e.Affine
  occurs : ∀ symbol, e.Occurs symbol → symbol = constantCoefficient ∨ S symbol
  value : ∀ w : C → R, w constantCoefficient = 1 → e.value w = f w

variable {S : C → Prop} {f g : (C → R) → R} {e l r : ArithmeticExpression C}

/-- What an expression means may use more symbols than it has. -/
theorem Denotes.mono {S' : C → Prop} (h : Denotes R S e f)
    (hS : ∀ symbol, S symbol → symbol = constantCoefficient ∨ S' symbol) : Denotes R S' e f :=
  ⟨h.affine, fun symbol hOccurs => (h.occurs symbol hOccurs).elim .inl (hS symbol), h.value⟩

/-- The empty expression has a constant and the value zero. -/
theorem empty_initializeHashmap :
    constantCoefficient ∈ Coefficients.initializeHashmap (∅ : Coefficients C) ∧
      ∀ w : C → R, (Coefficients.initializeHashmap (∅ : Coefficients C)).eval w = 0 :=
  ⟨Coefficients.mem_initializeHashmap.mpr (.inl rfl),
    fun _ => Coefficients.eval_initializeHashmap.trans Coefficients.eval_empty⟩

/-- The meaning matters where the constant is one only. -/
theorem Denotes.congr (h : Denotes R S e f)
    (hSame : ∀ w : C → R, w constantCoefficient = 1 → f w = g w) : Denotes R S e g :=
  ⟨h.affine, h.occurs, fun w hOne => (h.value w hOne).trans (hSame w hOne)⟩

/-- A sum may be taken the other way round. -/
theorem Denotes.swap (h : Denotes R S e fun w => f w + g w) : Denotes R S e fun w => g w + f w :=
  h.congr fun _ _ => add_comm _ _

/-- The empty map means zero. -/
theorem denotes_empty : Denotes R S (linear (Coefficients.initializeHashmap ∅)) fun _ => 0 where
  affine := (empty_initializeHashmap (R := R)).1
  occurs _ hIn := .inl (Coefficients.mem_initializeHashmap_empty.mp hIn)
  value w _ := empty_initializeHashmap.2 w

/-- A number is added to a map. -/
theorem Denotes.addConstant (hField : (field : R) = 0) {h : Coefficients C}
    (hMap : Denotes R S (linear h) f) {value : Int} (hNumber : Denotes R S (number value) g) :
    ∃ h', h.addConstant value field = some h' ∧ Denotes R S (linear h') fun w => g w + f w := by
  obtain ⟨h', hOk, hKeys⟩ := Coefficients.addConstant_eq_some value field hMap.affine
  refine ⟨h', hOk, (hKeys _).mpr hMap.affine, ?_, ?_⟩
  · intro symbol hIn
    exact hMap.occurs symbol ((hKeys symbol).mp hIn)
  · intro w hOne
    rw [add_comm]
    exact (Coefficients.eval_addConstant hField hOne hOk).trans
      (congrArg₂ (· + ·) (hMap.value w hOne) (hNumber.value w hOne))

/-- A symbol is added to a map. -/
theorem Denotes.addSymbol (hField : (field : R) = 0) {h : Coefficients C}
    (hMap : Denotes R S (linear h) f) {symbol : C} (hSignal : Denotes R S (signal symbol) g) :
    Denotes R S (linear (h.addSymbol symbol 1 field)) fun w => f w + g w where
  affine := Coefficients.mem_addSymbol.mpr (.inr hMap.affine)
  occurs symbol' hIn :=
    (Coefficients.mem_addSymbol.mp hIn).elim (hSignal.occurs symbol') (hMap.occurs symbol')
  value w hOne := by
    have hMapValue : h.eval w = f w := hMap.value w hOne
    have hSignalValue : w symbol = g w := hSignal.value w hOne
    show Coefficients.eval w _ = _
    rw [Coefficients.eval_addSymbol hField, Int.cast_one, one_mul, hMapValue, hSignalValue]

/-- The sum of a number and an affine expression. -/
theorem Denotes.number_add (hField : (field : R) = 0) {value : Int}
    (hl : Denotes R S (number value) f) (hr : Denotes R S r g) :
    ∃ e, ArithmeticExpression.add (number value) r field = some e ∧
      Denotes R S e fun w => f w + g w := by
  cases r with
  | number value' =>
    refine ⟨_, rfl, trivial, fun _ hOccurs => hOccurs.elim, ?_⟩
    intro w hOne
    exact (ModularArithmetic.cast_add hField _ _).trans
      (congrArg₂ (· + ·) (hl.value w hOne) (hr.value w hOne))
  | signal symbol =>
    obtain ⟨h', hOk, hSum⟩ := (denotes_empty (S := S)).addConstant hField hl
    refine ⟨linear (h'.addSymbol symbol 1 field), ?_, ?_⟩
    · show ((Coefficients.initializeHashmap ∅).addConstant value field).bind _ = _
      rw [hOk]
      rfl
    · exact (hSum.addSymbol hField hr).congr fun w _ => by rw [add_zero]
  | linear h =>
    obtain ⟨h', hOk, hSum⟩ := hr.addConstant hField hl
    refine ⟨linear h', ?_, hSum⟩
    show (h.addConstant value field).bind _ = _
    rw [hOk]
    rfl
  | quadratic => exact hr.affine.elim
  | nonQuadratic => exact hr.affine.elim

/-- The sum with a number does not depend on the side of the number. -/
theorem add_number (l : ArithmeticExpression C) (value : Int) :
    ArithmeticExpression.add l (number value) field =
      ArithmeticExpression.add (number value) l field := by
  cases l with
  | number value' => exact congrArg (fun v => some (number v)) (ModularArithmetic.add_comm _ _ _)
  | _ => rfl

/-- The sum of two affine expressions. -/
theorem Denotes.add (hField : (field : R) = 0) (hl : Denotes R S l f) (hr : Denotes R S r g) :
    ∃ e, ArithmeticExpression.add l r field = some e ∧ Denotes R S e fun w => f w + g w := by
  cases r with
  | number value =>
    obtain ⟨e, hOk, hSum⟩ := hr.number_add hField hl
    exact ⟨e, (add_number l value).trans hOk, hSum.swap⟩
  | signal symbol =>
    cases l with
    | number value => exact hl.number_add hField hr
    | signal symbol' =>
      have hFirst := (denotes_empty (S := S)).addSymbol hField hl
      refine ⟨_, rfl, (hFirst.addSymbol hField hr).congr fun w _ => ?_⟩
      rw [zero_add]
    | linear h => exact ⟨_, rfl, hl.addSymbol hField hr⟩
    | quadratic => exact hl.affine.elim
    | nonQuadratic => exact hl.affine.elim
  | linear h =>
    cases l with
    | number value => exact hl.number_add hField hr
    | signal symbol => exact ⟨_, rfl, (hr.addSymbol hField hl).swap⟩
    | linear h' =>
      refine ⟨_, rfl, Coefficients.mem_addCoefficients.mpr (.inl hl.affine), ?_, ?_⟩
      · intro symbol hIn
        exact (Coefficients.mem_addCoefficients.mp hIn).elim (hl.occurs symbol) (hr.occurs symbol)
      · intro w hOne
        exact (Coefficients.eval_addCoefficients hField h' h).trans
          (congrArg₂ (· + ·) (hl.value w hOne) (hr.value w hOne))
    | quadratic => exact hl.affine.elim
    | nonQuadratic => exact hl.affine.elim
  | quadratic => exact hr.affine.elim
  | nonQuadratic => exact hr.affine.elim

/-- A multiple of an affine expression. -/
theorem Denotes.mul_number (hField : (field : R) = 0) (constant : Int) (hr : Denotes R S r g) :
    Denotes R S (ArithmeticExpression.mul (number constant) r field) fun w => constant * g w := by
  cases r with
  | quadratic => exact hr.affine.elim
  | nonQuadratic => exact hr.affine.elim
  | number value =>
    refine ⟨trivial, fun _ hOccurs => hOccurs.elim, ?_⟩
    intro w hOne
    exact (ModularArithmetic.cast_mul hField _ _).trans
      (congrArg ((constant : R) * ·) (hr.value w hOne))
  | signal symbol =>
    obtain ⟨hEmptyMem, hEmptyEval⟩ := empty_initializeHashmap (C := C) (R := R)
    refine ⟨Coefficients.mem_addSymbol.mpr (.inr hEmptyMem), ?_, ?_⟩
    · intro symbol' hIn
      rcases Coefficients.mem_addSymbol.mp hIn with rfl | hEmpty
      · exact hr.occurs symbol' rfl
      · exact .inl (Coefficients.mem_initializeHashmap_empty.mp hEmpty)
    · intro w hOne
      have hValue : w symbol = g w := hr.value w hOne
      show Coefficients.eval w _ = _
      rw [Coefficients.eval_addSymbol hField, hEmptyEval, zero_add, hValue]
  | linear h =>
    refine ⟨Coefficients.mem_multiplyByConstant.mpr hr.affine, ?_, ?_⟩
    · intro symbol hIn
      exact hr.occurs symbol (Coefficients.mem_multiplyByConstant.mp hIn)
    · intro w hOne
      exact (Coefficients.eval_multiplyByConstant hField constant h).trans
        (congrArg ((constant : R) * ·) (hr.value w hOne))

/-- A number may also be the right factor. -/
theorem Denotes.mul_number_right (hField : (field : R) = 0) (constant : Int)
    (hr : Denotes R S r g) :
    Denotes R S (ArithmeticExpression.mul r (number constant) field) fun w => constant * g w := by
  cases r with
  | quadratic => exact hr.affine.elim
  | nonQuadratic => exact hr.affine.elim
  | number value =>
    refine ⟨trivial, fun _ hOccurs => hOccurs.elim, ?_⟩
    intro w hOne
    rw [mul_comm]
    exact (ModularArithmetic.cast_mul hField _ _).trans
      (congrArg (· * (constant : R)) (hr.value w hOne))
  | signal symbol => exact hr.mul_number hField constant
  | linear h => exact hr.mul_number hField constant

/-- A difference means the difference of the meanings. -/
theorem Denotes.sub (hField : (field : R) = 0) (hl : Denotes R S l f) (hr : Denotes R S r g) :
    ∃ e, ArithmeticExpression.sub l r field = some e ∧ Denotes R S e fun w => f w - g w := by
  obtain ⟨e, hOk, hSum⟩ := hl.add hField (hr.mul_number hField (-1))
  refine ⟨e, hOk, hSum.affine, hSum.occurs, fun w hOne => (hSum.value w hOne).trans ?_⟩
  rw [Int.cast_neg, Int.cast_one, neg_one_mul, sub_eq_add_neg]

/-- What is read back means the same. -/
theorem denotes_hashmapIntoArith (h : Coefficients C) :
    Denotes R (fun symbol => symbol ∈ h) (hashmapIntoArith h) fun w => h.eval w := by
  have hLinear : Denotes R (fun symbol => symbol ∈ h) (linear h.initializeHashmap)
      fun w => h.eval w :=
    ⟨Coefficients.mem_initializeHashmap.mpr (.inl rfl),
      fun _ hIn => Coefficients.mem_initializeHashmap.mp hIn,
      fun _ _ => Coefficients.eval_initializeHashmap⟩
  rw [hashmapIntoArith]
  split
  next hSize =>
    obtain ⟨⟨symbol, value⟩, hList⟩ := List.length_eq_one_iff.mp
      (Std.ExtTreeMap.length_toList.trans hSize)
    have hEval : ∀ w : C → R, h.eval w = value * w symbol := by
      intro w
      rw [Coefficients.eval, Store.total, hList, List.map_singleton, List.sum_singleton]
    have hStored : h[symbol]? = some value := by
      have hMem : (symbol, value) ∈ h.toList := hList ▸ List.mem_singleton_self _
      exact Store.mem_toList.mp hMem
    split
    next value' hConstant =>
      have hMem : (constantCoefficient, value') ∈ h.toList := Store.mem_toList.mpr hConstant
      rw [hList, List.mem_singleton, Prod.mk.injEq] at hMem
      obtain ⟨rfl, rfl⟩ := hMem
      refine ⟨trivial, fun _ hOccurs => hOccurs.elim, ?_⟩
      intro w hOne
      rw [hEval, hOne, mul_one]
      rfl
    next =>
      rw [hList]
      show Denotes R _ (if value = 1 then signal symbol else linear h.initializeHashmap) _
      split
      next hUnit =>
        refine ⟨trivial, ?_, ?_⟩
        · rintro symbol' rfl
          exact .inr (Store.mem_iff.mpr ⟨value, hStored⟩)
        · intro w _
          rw [hEval, hUnit, Int.cast_one, one_mul]
          rfl
      next => exact hLinear
  next => exact hLinear

end ArithmeticExpression

-- ---------------------------------------------------------------------------
-- Constraints
-- ---------------------------------------------------------------------------

/-- `A * B - C = 0`. -/
def Constraint.Holds (w : C → R) (k : Constraint C) : Prop := k.a.eval w * k.b.eval w = k.c.eval w

/-- The symbol occurs in the constraint. -/
def Constraint.Occurs (symbol : C) (k : Constraint C) : Prop :=
  symbol ∈ k.a ∨ symbol ∈ k.b ∨ symbol ∈ k.c

/-- A linear constraint whose coefficients are reduced and not zero. -/
structure Constraint.Linear (field : Int) (k : Constraint C) : Prop where
  a : k.a = ∅
  b : k.b = ∅
  reduced : ∀ (symbol : C) (value : Int), k.c[symbol]? = some value → 0 < value ∧ value < field

namespace Constraint

variable {k : Constraint C}

/-- A linear constraint says that its third part is zero. -/
theorem Linear.holds (h : k.Linear field) : k.Holds w ↔ k.c.eval w = 0 := by
  rw [Holds, h.a, h.b, Coefficients.eval_empty, zero_mul, eq_comm]

/-- A linear expression without its zeros, as a constraint. -/
theorem linear_removeZeroValue {h : Coefficients C} (hRed : h.Reduced field) :
    Linear field (⟨∅, ∅, h.removeZeroValue⟩ : Constraint C) := by
  refine ⟨rfl, rfl, ?_⟩
  intro symbol value hStored
  obtain ⟨hStored', hNe⟩ := Coefficients.get?_removeZeroValue.mp hStored
  have hRange := hRed symbol value hStored'
  exact ⟨lt_of_le_of_ne hRange.1 (Ne.symm hNe), hRange.2⟩

theorem linear_of_toList {h : Coefficients C}
    (hAll : ∀ kv ∈ h.toList, 0 < kv.2 ∧ kv.2 < field) : Linear field (⟨∅, ∅, h⟩ : Constraint C) :=
  ⟨rfl, rfl, fun symbol value hStored => hAll (symbol, value) (Store.mem_toList.mpr hStored)⟩

theorem Linear.toReduced (h : k.Linear field) : k.c.Reduced field :=
  fun symbol value hStored => (h.reduced symbol value hStored).imp_left le_of_lt

/-- The symbols of a linear constraint are those of its third part. -/
theorem Linear.occurs (h : k.Linear field) {symbol : C} : k.Occurs symbol ↔ symbol ∈ k.c := by
  refine ⟨?_, fun hIn => .inr (.inr hIn)⟩
  rintro (hIn | hIn | hIn)
  · rw [h.a] at hIn
    exact absurd hIn Std.ExtTreeMap.not_mem_empty
  · rw [h.b] at hIn
    exact absurd hIn Std.ExtTreeMap.not_mem_empty
  · exact hIn

/-- A constraint depends on the symbols that occur in it only. -/
theorem holds_congr {w' : C → R} (hSame : ∀ symbol, k.Occurs symbol → w' symbol = w symbol) :
    k.Holds w' ↔ k.Holds w := by
  rw [Holds, Holds, Coefficients.eval_congr fun symbol hIn => hSame symbol (.inl hIn),
    Coefficients.eval_congr fun symbol hIn => hSame symbol (.inr (.inl hIn)),
    Coefficients.eval_congr fun symbol hIn => hSame symbol (.inr (.inr hIn))]

/-- Coefficients of zero may go. -/
theorem holds_removeZeroValueCoefficients :
    k.removeZeroValueCoefficients.Holds w ↔ k.Holds w := by
  rw [Holds, Holds, removeZeroValueCoefficients, Coefficients.eval_removeZeroValue,
    Coefficients.eval_removeZeroValue, Coefficients.eval_removeZeroValue]

/-- The signals of a constraint are its symbols, but for the constant. -/
theorem mem_takeClonedSignals {symbol : C} :
    symbol ∈ k.takeClonedSignals ↔ symbol ≠ constantCoefficient ∧ k.Occurs symbol := by
  rw [takeClonedSignals, Std.ExtTreeSet.mem_erase, Std.ExtTreeSet.mem_ofList, List.contains_iff_mem,
    List.mem_append, List.mem_append, Std.ExtTreeMap.mem_keys, Std.ExtTreeMap.mem_keys,
    Std.ExtTreeMap.mem_keys, ne_eq, Std.compare_eq_iff_eq, eq_comm, or_assoc]
  rfl

theorem isEmpty_iff : k.isEmpty = true ↔ k.a = ∅ ∧ k.b = ∅ ∧ k.c = ∅ := by
  rw [isEmpty, Bool.and_eq_true, Bool.and_eq_true, Std.ExtTreeMap.isEmpty_iff,
    Std.ExtTreeMap.isEmpty_iff, Std.ExtTreeMap.isEmpty_iff, and_assoc]

theorem isLinear_iff : k.isLinear = true ↔ k.a = ∅ ∧ k.b = ∅ := by
  rw [isLinear, Bool.and_eq_true, Std.ExtTreeMap.isEmpty_iff, Std.ExtTreeMap.isEmpty_iff]

/-- An empty constraint always holds. -/
theorem holds_of_isEmpty (h : k.isEmpty = true) : k.Holds w := by
  obtain ⟨ha, hb, hc⟩ := isEmpty_iff.mp h
  rw [Holds, ha, hb, hc, Coefficients.eval_empty, zero_mul]

end Constraint

/-- The constraint form of an affine expression, without its zeros. -/
theorem ArithmeticExpression.Denotes.constraint {S : C → Prop} {f : (C → R) → R}
    {e : ArithmeticExpression C} (hField : (field : R) = 0) (hPos : 0 < field)
    (h : Denotes R S e f) : ∃ k, transformExpressionToConstraintForm e field = some k ∧
      k.removeZeroValueCoefficients.Linear field ∧
      (∀ symbol, k.Occurs symbol → symbol = constantCoefficient ∨ S symbol) ∧
      ∀ w : C → R, w constantCoefficient = 1 →
        (k.removeZeroValueCoefficients.Holds w ↔ f w = 0) := by
  let zero : Coefficients C := Coefficients.initializeHashmap ∅
  have hZero : zero.removeZeroValue = ∅ := Coefficients.removeZeroValue_eq_empty
    fun _ _ hStored => (Coefficients.get?_initializeHashmap_empty hStored).2
  -- the shape of every result
  have hForm : ∀ c : Coefficients C, (∀ symbol, symbol ∈ c → symbol = constantCoefficient ∨
      S symbol) → (∀ w : C → R, w constantCoefficient = 1 → c.eval w = f w) →
      let k : Constraint C := ⟨zero, zero, c.multiplyByConstant (-1) field⟩
      k.removeZeroValueCoefficients.Linear field ∧
        (∀ symbol, k.Occurs symbol → symbol = constantCoefficient ∨ S symbol) ∧
        ∀ w : C → R, w constantCoefficient = 1 →
          (k.removeZeroValueCoefficients.Holds w ↔ f w = 0) := by
    intro c hKeys hEval k
    have hLinear : k.removeZeroValueCoefficients.Linear field := by
      have hReduced := Constraint.linear_removeZeroValue
        (Coefficients.reduced_multiplyByConstant hPos (-1) c)
      exact ⟨hZero, hZero, hReduced.reduced⟩
    refine ⟨hLinear, ?_, ?_⟩
    · rintro symbol (hIn | hIn | hIn)
      · exact .inl (Coefficients.mem_initializeHashmap_empty.mp hIn)
      · exact .inl (Coefficients.mem_initializeHashmap_empty.mp hIn)
      · exact hKeys symbol (Coefficients.mem_multiplyByConstant.mp hIn)
    · intro w hOne
      rw [hLinear.holds]
      show (Coefficients.removeZeroValue (c.multiplyByConstant (-1) field)).eval w = 0 ↔ f w = 0
      rw [Coefficients.eval_removeZeroValue, Coefficients.eval_multiplyByConstant hField,
        hEval w hOne, Int.cast_neg, Int.cast_one, neg_one_mul, neg_eq_zero]
  have hInsert : ∀ (symbol : C) (value : Int) (w : C → R),
      Coefficients.eval w (zero.insert symbol value) = value * w symbol := by
    intro symbol value w
    have hRest : Coefficients.eval w (zero.erase symbol) = 0 := Coefficients.eval_eq_zero
      fun _ _ hStored =>
        (Coefficients.get?_initializeHashmap_empty (Store.get?_of_erase hStored).2).2
    rw [Coefficients.eval_insert, hRest, add_zero]
  cases e with
  | quadratic => exact h.affine.elim
  | nonQuadratic => exact h.affine.elim
  | number value =>
    refine ⟨_, rfl, hForm _ ?_ ?_⟩
    · intro symbol hIn
      rcases Store.mem_insert.mp hIn with hConstant | hEmpty
      · exact .inl hConstant
      · exact .inl (Coefficients.mem_initializeHashmap_empty.mp hEmpty)
    · intro w hOne
      rw [hInsert, hOne, mul_one]
      exact h.value w hOne
  | signal symbol =>
    refine ⟨_, rfl, hForm _ ?_ ?_⟩
    · intro symbol' hIn
      rcases Store.mem_insert.mp hIn with rfl | hEmpty
      · exact h.occurs symbol' rfl
      · exact .inl (Coefficients.mem_initializeHashmap_empty.mp hEmpty)
    · intro w hOne
      rw [hInsert, Int.cast_one, one_mul]
      exact h.value w hOne
  | linear coefficients => exact ⟨_, rfl, hForm coefficients h.occurs fun w hOne => h.value w hOne⟩

-- ---------------------------------------------------------------------------
-- Substitutions
-- ---------------------------------------------------------------------------

/-- The assignment gives the symbol the value of the expression. -/
def Substitution.Holds (w : C → R) (s : Substitution C) : Prop := w s.from_ = s.to_.eval w

section Substitution

variable {s : Substitution C} {h : Coefficients C}

/-- A map after a substitution has the value that the map had, were the symbol worth what
the substitution says. -/
theorem eval_rawSubstitution (hField : (field : R) = 0) :
    (rawSubstitution h s field).eval w =
      h.eval (Function.update w s.from_ (s.to_.eval w)) := by
  have hRest : ∀ m : Coefficients C, s.from_ ∉ m →
      m.eval (Function.update w s.from_ (s.to_.eval w)) = m.eval w := by
    intro m hNot
    refine Coefficients.eval_congr ?_
    intro symbol hIn
    refine Function.update_of_ne ?_ _ _
    rintro rfl
    exact hNot hIn
  rw [← Coefficients.eval_initializeHashmap (h := h)]
  simp only [rawSubstitution]
  split
  next value hStored =>
    have hErased : s.from_ ∉ h.initializeHashmap.erase s.from_ :=
      fun hIn => (Store.mem_erase.mp hIn).1 rfl
    rw [Coefficients.eval_addCoefficients hField, Coefficients.eval_multiplyByConstant hField,
      Coefficients.eval_initializeHashmap, Coefficients.eval_erase hStored, Function.update_self,
      hRest _ hErased]
  next hNone => exact (hRest _ (Store.notMem_iff.mpr hNone)).symm

/-- After a substitution its own signal is gone, and those of its right side may have come. -/
theorem mem_rawSubstitution {symbol : C} (hIn : symbol ∈ rawSubstitution h s field) :
    symbol = constantCoefficient ∨ (symbol ∈ h ∧ symbol ≠ s.from_) ∨ symbol ∈ s.to_ := by
  simp only [rawSubstitution] at hIn
  split at hIn
  next value hStored =>
    rcases Coefficients.mem_addCoefficients.mp hIn with hTo | hOld
    · rw [Coefficients.mem_multiplyByConstant, Coefficients.mem_initializeHashmap] at hTo
      exact hTo.elim .inl fun hTo => .inr (.inr hTo)
    · obtain ⟨hne, hOld⟩ := Store.mem_erase.mp hOld
      exact (Coefficients.mem_initializeHashmap.mp hOld).elim .inl fun hOld =>
        .inr (.inl ⟨hOld, hne⟩)
  next hNone =>
    rcases Coefficients.mem_initializeHashmap.mp hIn with hConstant | hOld
    · exact .inl hConstant
    · refine .inr (.inl ⟨hOld, ?_⟩)
      rintro rfl
      exact Store.notMem_iff.mpr hNone hIn

theorem reduced_rawSubstitution (hPos : 0 < field) (hRed : h.Reduced field) :
    (rawSubstitution h s field).Reduced field := by
  have hInit := hRed.initializeHashmap hPos
  simp only [rawSubstitution]
  split
  · refine Coefficients.Reduced.addCoefficients hPos ?_
    exact fun symbol value hStored => hInit symbol value (Store.get?_of_erase hStored).2
  · exact hInit

/-- A substitution that holds changes no value. -/
theorem Substitution.Holds.eval_rawSubstitution (hField : (field : R) = 0) (hs : s.Holds w) :
    (rawSubstitution h s field).eval w = h.eval w := by
  rw [Circom.eval_rawSubstitution hField, ← hs, Function.update_eq_self]

/-- A constraint after a substitution is the constraint with the signal changed. -/
theorem Constraint.holds_applySubstitution (hField : (field : R) = 0) {k : Constraint C} :
    (k.applySubstitution s field).Holds w ↔
      k.Holds (Function.update w s.from_ (s.to_.eval w)) := by
  rw [Constraint.Holds, Constraint.applySubstitution, eval_rawSubstitution hField,
    eval_rawSubstitution hField, eval_rawSubstitution hField]
  rfl

/-- Where the substitution holds, applying it changes nothing. -/
theorem Substitution.Holds.constraint (hField : (field : R) = 0) (hs : s.Holds w)
    {k : Constraint C} : (k.applySubstitution s field).Holds w ↔ k.Holds w := by
  rw [Constraint.holds_applySubstitution hField, ← hs, Function.update_eq_self]

/-- After a substitution its own signal is gone, and those of its right side may have come. -/
theorem Constraint.occurs_applySubstitution {k : Constraint C} {symbol : C}
    (hOccurs : (k.applySubstitution s field).Occurs symbol) :
    symbol = constantCoefficient ∨ (k.Occurs symbol ∧ symbol ≠ s.from_) ∨ symbol ∈ s.to_ := by
  rcases hOccurs with hIn | hIn | hIn
  · rcases mem_rawSubstitution hIn with hConstant | ⟨hOld, hne⟩ | hTo
    · exact .inl hConstant
    · exact .inr (.inl ⟨.inl hOld, hne⟩)
    · exact .inr (.inr hTo)
  · rcases mem_rawSubstitution hIn with hConstant | ⟨hOld, hne⟩ | hTo
    · exact .inl hConstant
    · exact .inr (.inl ⟨.inr (.inl hOld), hne⟩)
    · exact .inr (.inr hTo)
  · rcases mem_rawSubstitution hIn with hConstant | ⟨hOld, hne⟩ | hTo
    · exact .inl hConstant
    · exact .inr (.inl ⟨.inr (.inr hOld), hne⟩)
    · exact .inr (.inr hTo)

/-- The substitution by an affine expression in which the symbol does not occur. -/
theorem Substitution.new_eq_some {e : ArithmeticExpression C} {from_ : C} (hAffine : e.Affine)
    (hNot : ¬ e.Occurs from_) : ∃ s : Substitution C, Substitution.new from_ e = some s ∧
      s.from_ = from_ ∧
      (∀ symbol, symbol ∈ s.to_ → symbol = constantCoefficient ∨ e.Occurs symbol) ∧
      ∀ w : C → R, w constantCoefficient = 1 → s.to_.eval w = e.value w := by
  have hSingle : ∀ (symbol : C) (value : Int) (w : C → R),
      Coefficients.eval w ((∅ : Coefficients C).insert symbol value) = value * w symbol := by
    intro symbol value w
    have hErase : (∅ : Coefficients C).erase symbol = ∅ :=
      Store.erase_of_get?_none (by simp)
    rw [Coefficients.eval_insert, hErase, Coefficients.eval_empty, add_zero]
  cases e with
  | quadratic => exact hAffine.elim
  | nonQuadratic => exact hAffine.elim
  | number value =>
    refine ⟨_, rfl, rfl, ?_, ?_⟩
    · intro symbol hIn
      exact .inl ((Store.mem_insert.mp hIn).resolve_right Std.ExtTreeMap.not_mem_empty)
    · intro w hOne
      rw [hSingle, hOne, mul_one]
      rfl
  | signal symbol =>
    refine ⟨_, rfl, rfl, ?_, ?_⟩
    · intro symbol' hIn
      exact .inr ((Store.mem_insert.mp hIn).resolve_right Std.ExtTreeMap.not_mem_empty)
    · intro w _
      rw [hSingle, Int.cast_one, one_mul]
      rfl
  | linear coefficients =>
    exact ⟨_, if_neg hNot, rfl, fun _ hIn => .inr hIn, fun _ _ => rfl⟩

end Substitution

-- ---------------------------------------------------------------------------
-- Constraints in normal form
-- ---------------------------------------------------------------------------

/-- `k'` says the same as `k`, of no other symbols. -/
structure Constraint.Rewrites (R : Type) [CommRing R] (k k' : Constraint C) : Prop where
  holds : ∀ w : C → R, w constantCoefficient = 1 → (k'.Holds w ↔ k.Holds w)
  occurs : ∀ symbol, k'.Occurs symbol → symbol = constantCoefficient ∨ k.Occurs symbol

section FixConstraint

variable {a b c : Coefficients C}

/-- A constant expression has the value of its constant. -/
theorem Coefficients.isConstantExpression_spec {h : Coefficients C}
    (hConstant : h.isConstantExpression = true) : ∃ value,
      h[(constantCoefficient : C)]? = some value ∧
      ∀ w : C → R, w constantCoefficient = 1 → h.eval w = value := by
  rw [isConstantExpression, decide_eq_true_eq] at hConstant
  obtain ⟨hMem, hSize⟩ := hConstant
  obtain ⟨value, hStored⟩ := Store.mem_iff.mp hMem
  obtain ⟨kv, hList⟩ := List.length_eq_one_iff.mp (Std.ExtTreeMap.length_toList.trans hSize)
  have hIn : (constantCoefficient, value) ∈ h.toList := Store.mem_toList.mpr hStored
  rw [hList, List.mem_singleton] at hIn
  refine ⟨value, hStored, ?_⟩
  intro w hOne
  rw [eval, Store.total, hList, List.map_singleton, List.sum_singleton, ← hIn, hOne, mul_one]

/-- A product with a constant factor. -/
theorem constantLinearLinearReduction_spec (hField : (field : R) = 0) (hPos : 0 < field)
    (hRed : c.Reduced field) (hConstant : a.isConstantExpression = true) :
    ∃ k, constantLinearLinearReduction a b c field = some k ∧ k.Linear field ∧
      (∀ w : C → R, w constantCoefficient = 1 →
        (k.Holds w ↔ a.eval w * b.eval w = c.eval w)) ∧
      ∀ symbol, k.Occurs symbol → symbol = constantCoefficient ∨ symbol ∈ b ∨ symbol ∈ c := by
  obtain ⟨value, hStored, hEval⟩ := Coefficients.isConstantExpression_spec (R := R) hConstant
  let b' := (b.initializeHashmap.multiplyByConstant value field).multiplyByConstant (-1) field
  let c' := b'.addCoefficients c.initializeHashmap field
  have hRed' : c'.Reduced field :=
    Coefficients.Reduced.addCoefficients hPos (hRed.initializeHashmap hPos)
  have hLinear := Constraint.linear_removeZeroValue hRed'
  refine ⟨⟨∅, ∅, c'.removeZeroValue⟩, ?_, hLinear, ?_, ?_⟩
  · rw [constantLinearLinearReduction, hStored]
    rfl
  · intro w hOne
    rw [hLinear.holds, Coefficients.eval_removeZeroValue, Coefficients.eval_addCoefficients hField,
      Coefficients.eval_multiplyByConstant hField, Coefficients.eval_multiplyByConstant hField,
      Coefficients.eval_initializeHashmap, Coefficients.eval_initializeHashmap, hEval w hOne,
      Int.cast_neg, Int.cast_one, neg_one_mul, neg_add_eq_zero]
  · rintro symbol (hIn | hIn | hIn)
    · exact absurd hIn Std.ExtTreeMap.not_mem_empty
    · exact absurd hIn Std.ExtTreeMap.not_mem_empty
    · have hIn' := Coefficients.mem_of_mem_removeZeroValue hIn
      rw [Coefficients.mem_addCoefficients, Coefficients.mem_multiplyByConstant,
        Coefficients.mem_multiplyByConstant, Coefficients.mem_initializeHashmap,
        Coefficients.mem_initializeHashmap] at hIn'
      tauto

/-- `fix_constraint` always succeeds; what it makes linear has reduced coefficients. -/
theorem Constraint.fixConstraint_spec (hField : (field : R) = 0) (hPos : 0 < field)
    {k : Constraint C} (hRed : k.c.Reduced field) :
    ∃ k', k.fixConstraint field = some k' ∧ k.Rewrites R k' ∧ k'.c.Reduced field ∧
      (k'.isLinear = true → k'.Linear field) := by
  let a := k.a.removeZeroValue
  let b := k.b.removeZeroValue
  let c := k.c.removeZeroValue
  have hRedC : c.Reduced field := hRed.removeZeroValue
  have hLinear : Constraint.Linear field ⟨∅, ∅, c⟩ := linear_removeZeroValue hRed
  have hNarrow : ∀ {symbol}, (symbol ∈ a ∨ symbol ∈ b ∨ symbol ∈ c) → k.Occurs symbol :=
    fun hOr => hOr.imp Coefficients.mem_of_mem_removeZeroValue
      (Or.imp Coefficients.mem_of_mem_removeZeroValue Coefficients.mem_of_mem_removeZeroValue)
  have hEval : ∀ w : C → R, (a.eval w * b.eval w = c.eval w ↔ k.Holds w) := by
    intro w
    rw [Coefficients.eval_removeZeroValue, Coefficients.eval_removeZeroValue,
      Coefficients.eval_removeZeroValue]
    rfl
  have hFix : k.fixConstraint field =
      if a.isEmpty || b.isEmpty then some ⟨∅, ∅, c⟩
      else if a.isConstantExpression then constantLinearLinearReduction a b c field
      else if b.isConstantExpression then constantLinearLinearReduction b a c field
      else some ⟨a, b, c⟩ := rfl
  rw [hFix]
  split
  next hEmpty =>
    refine ⟨_, rfl, ⟨?_, ?_⟩, hRedC, fun _ => hLinear⟩
    · intro w _
      have hZero : a.eval w * b.eval w = 0 := by
        rcases (Bool.or_eq_true ..).mp hEmpty with hA | hB
        · rw [Coefficients.eval_of_isEmpty hA, zero_mul]
        · rw [Coefficients.eval_of_isEmpty hB, mul_zero]
      rw [← hEval w, hZero, hLinear.holds, eq_comm]
    · rintro symbol (hIn | hIn | hIn)
      · exact absurd hIn Std.ExtTreeMap.not_mem_empty
      · exact absurd hIn Std.ExtTreeMap.not_mem_empty
      · exact .inr (hNarrow (.inr (.inr hIn)))
  next =>
    split
    next hConstant =>
      obtain ⟨k', hOk, hLin, hHolds, hOccurs⟩ :=
        constantLinearLinearReduction_spec (b := b) hField hPos hRedC hConstant
      refine ⟨k', hOk, ⟨fun w hOne => (hHolds w hOne).trans (hEval w), ?_⟩, ?_, fun _ => hLin⟩
      · intro symbol hIn
        exact (hOccurs symbol hIn).imp_right fun hOr => hNarrow (.inr hOr)
      · exact hLin.toReduced
    next =>
      split
      next hConstant =>
        obtain ⟨k', hOk, hLin, hHolds, hOccurs⟩ :=
          constantLinearLinearReduction_spec (b := a) hField hPos hRedC hConstant
        refine ⟨k', hOk, ⟨fun w hOne => (hHolds w hOne).trans ?_, ?_⟩, ?_, fun _ => hLin⟩
        · rw [mul_comm, hEval w]
        · intro symbol hIn
          refine (hOccurs symbol hIn).imp_right fun hOr => hNarrow ?_
          exact hOr.elim .inl fun hC => .inr (.inr hC)
        · exact hLin.toReduced
      next =>
        refine ⟨_, rfl, ⟨fun w _ => hEval w, fun symbol hIn => .inr (hNarrow hIn)⟩, hRedC, ?_⟩
        intro hIsLinear
        obtain ⟨hA, hB⟩ := isLinear_iff.mp hIsLinear
        have hShape : (⟨a, b, c⟩ : Constraint C) = ⟨∅, ∅, c⟩ := by
          rw [Constraint.mk.injEq]
          exact ⟨hA, hB, rfl⟩
        rw [hShape]
        exact hLinear

end FixConstraint

-- ---------------------------------------------------------------------------
-- Solving for a symbol
-- ---------------------------------------------------------------------------

section Solve

variable {p : Nat} [Fact p.Prime] {k : Constraint C}

/-- A reduced coefficient is not zero in the field. -/
theorem Constraint.Linear.cast_ne_zero (h : k.Linear p) {symbol : C} {value : Int}
    (hStored : k.c[symbol]? = some value) : (value : ZMod p) ≠ 0 := by
  obtain ⟨hPos, hLess⟩ := h.reduced symbol value hStored
  rw [Ne, ZMod.intCast_zmod_eq_zero_iff_dvd]
  intro hDvd
  have hLe := Int.le_of_dvd hPos hDvd
  omega

/-- `coefficient * from = to`, with no `from` in `to`. -/
structure Solves (p : Nat) (coefficient : Int) (s : Substitution C) : Prop where
  coefficient : (coefficient : ZMod p) ≠ 0
  constant : constantCoefficient ∈ s.to_
  notMem : s.from_ ∉ s.to_

/-- The equation of a substitution that is not normalised. -/
def SolvesAt {p : Nat} (w : C → ZMod p) (coefficient : Int) (s : Substitution C) : Prop :=
  (coefficient : ZMod p) * w s.from_ = s.to_.eval w

/-- A linear constraint, solved for one of its symbols. -/
theorem Constraint.Linear.clearSignal (h : k.Linear p) {signal : C} (hIn : signal ∈ k.c)
    (hne : signal ≠ constantCoefficient) : ∃ coefficient s,
      k.clearSignalFromLinearNotNormalized signal p = some (coefficient, s) ∧
      s.from_ = signal ∧ Solves p coefficient s ∧
      (∀ symbol, symbol ∈ s.to_ → symbol = constantCoefficient ∨
        symbol ∈ k.c ∧ symbol ≠ signal) ∧
      ∀ w : C → ZMod p, k.Holds w ↔ SolvesAt w coefficient s := by
  obtain ⟨value, hStored⟩ := Store.mem_iff.mp hIn
  have hPos := (h.reduced signal value hStored).1
  have hOk : k.clearSignalFromLinearNotNormalized signal p =
      some (ModularArithmetic.mul value (-1) p,
        ⟨signal, Coefficients.initializeHashmap (k.c.erase signal)⟩) := by
    rw [clearSignalFromLinearNotNormalized, clearSignalNotNormalized, hStored, Option.bind_eq_bind,
      Option.bind_eq_bind, Option.bind_some, if_neg hPos.ne']
    rfl
  have hCast : ((ModularArithmetic.mul value (-1) p : Int) : ZMod p) = -value := by
    rw [ModularArithmetic.cast_mul ModularArithmetic.cast_field, Int.cast_neg, Int.cast_one,
      mul_neg_one]
  refine ⟨_, _, hOk, rfl, ⟨?_, Coefficients.mem_initializeHashmap.mpr (.inl rfl), ?_⟩, ?_, ?_⟩
  · rw [hCast, neg_ne_zero]
    exact h.cast_ne_zero hStored
  · intro hMem
    rcases Coefficients.mem_initializeHashmap.mp hMem with hConstant | hErased
    · exact hne hConstant
    · exact (Store.mem_erase.mp hErased).1 rfl
  · intro symbol hMem
    rcases Coefficients.mem_initializeHashmap.mp hMem with hConstant | hErased
    · exact .inl hConstant
    · exact .inr (Store.mem_erase.mp hErased).symm
  · intro w
    rw [h.holds, Coefficients.eval_erase hStored, SolvesAt, hCast,
      Coefficients.eval_initializeHashmap, neg_mul, neg_eq_iff_add_eq_zero]

end Solve

-- ---------------------------------------------------------------------------
-- Three linear constraints
-- ---------------------------------------------------------------------------

/-- `x₁ + x₂ = x₃`, `3 x₂ + 5 x₄ + 1 = 0` and `2 x₁ + 4 x₃ + x₄ = 0`. -/
def Sample.linear : List (Constraint Nat) :=
  [⟨∅, ∅, .ofList [(1, 1), (2, 1), (3, 12)] compare⟩,
    ⟨∅, ∅, .ofList [(0, 1), (2, 3), (4, 5)] compare⟩,
    ⟨∅, ∅, .ofList [(1, 2), (3, 4), (4, 1)] compare⟩]

/-- The sample constraints are linear. -/
theorem Sample.linear_linear : ∀ c ∈ Sample.linear, c.Linear (13 : Nat) := by
  simp only [Sample.linear, List.forall_mem_cons]
  exact ⟨Constraint.linear_of_toList (by decide +kernel),
    Constraint.linear_of_toList (by decide +kernel),
    Constraint.linear_of_toList (by decide +kernel), fun c hc => absurd hc List.not_mem_nil⟩

/-- The sample constraints are about five signals. -/
theorem Sample.linear_occurs : ∀ c ∈ Sample.linear, ∀ t, c.Occurs t → t < 5 := by
  have hKeys : ∀ c ∈ Sample.linear, ∀ t ∈ c.c.keys, t < 5 := by
    simp only [Sample.linear, List.forall_mem_cons]
    exact ⟨by decide +kernel, by decide +kernel, by decide +kernel,
      fun c hc => absurd hc List.not_mem_nil⟩
  intro c hc t ht
  exact hKeys c hc t
    (Std.ExtTreeMap.mem_keys.mpr ((Sample.linear_linear c hc).occurs.mp ht))

end Ganc.Circom
