import Mathlib.Algebra.Field.ZMod
import Mathlib.Data.Int.ModEq
import Mathlib.Data.List.Basic
import Mathlib.Data.ZMod.ValMinAbs
import Mathlib.Tactic.LinearCombination
import Mathlib.Tactic.Ring

/-!
# circom — arithmetic modulo the field

`circom_algebra/src/modular_arithmetic.rs`. A `BigInt` is an `Int`; the
remainder and the quotient of the source are the truncating ones. The
inversion `mod_inverse` belongs to the big-number library, so it is a
parameter (`BigNumbers`) with its documented behaviour (`BigNumbers.Lawful`).

The first part holds the definitions. The second says what they compute in
any ring in which the field is zero, and that `multiInv`, which inverts many
numbers with one inversion, does so exactly when all of them have an inverse
(`multiInv_exact`).
-/

namespace Ganc.Circom

inductive ArithmeticError
  | divisionByZero
  | bitOverFlowInShift
deriving DecidableEq, Repr

/-- What the source takes from the library of big numbers. -/
structure BigNumbers where
  modInverse : Int → Int → Option Int
  modPow : Int → Int → Int → Int

/-- An inverse modulo `m` is returned exactly if there is one. -/
structure BigNumbers.Lawful (n : BigNumbers) : Prop where
  inverse : ∀ {a m i : Int}, n.modInverse a m = some i → m ∣ a * i - 1
  exists_inverse : ∀ {a m : Int}, 0 < m → Int.gcd a m = 1 → ∃ i, n.modInverse a m = some i

/-- Powers are powers, as the representative from zero to the modulus. -/
structure BigNumbers.Powers (n : BigNumbers) : Prop where
  power : ∀ {b e m : Int}, 0 ≤ e → 0 < m → m ∣ n.modPow b e m - b ^ e.toNat
  range : ∀ {b e m : Int}, 0 ≤ e → 0 < m → 0 ≤ n.modPow b e m ∧ n.modPow b e m < m

namespace ModularArithmetic

def modulus (a b : Int) : Int := (a.tmod b + b).tmod b

-- ---------------------------------------------------------------------------
-- Arithmetic operations
-- ---------------------------------------------------------------------------

def add (left right field : Int) : Int := modulus (left + right) field

def mul (left right field : Int) : Int := modulus (left * right) field

def div (n : BigNumbers) (left right field : Int) : Except ArithmeticError Int :=
  match n.modInverse right field with
  | some rightInverse => .ok (mul left rightInverse field)
  | none => .error .divisionByZero

def idiv (left right field : Int) : Except ArithmeticError Int :=
  let left := modulus left field
  let right := modulus right field
  if right = 0 then .error .divisionByZero else .ok (left.tdiv right)

/-- The remainder by zero panics; no error is returned. -/
def modOp (left right field : Int) : Option Int :=
  let left := modulus left field
  let right := modulus right field
  if right = 0 then none else some (modulus left right)

/-- The library panics at a negative exponent. -/
def pow (n : BigNumbers) (base exp field : Int) : Option Int :=
  if 0 ≤ exp then some (n.modPow base exp field) else none

def prefixSub (elem field : Int) : Int := mul elem (-1) field

/-- The backward loop of `multi_inv`, from position `i` down. -/
def multiInvLoop (partials values : List Int) (field : Int) : Nat → Int → List Int → List Int
  | 0, _, outputs => outputs
  | i + 1, inverse, outputs =>
    multiInvLoop partials values field i (mul inverse (values.getD i 0) field)
      (outputs.set i (mul (partials.getD i 0) inverse field))

/-- One inversion for all the values. It panics if the product of the values has no
inverse; the last output is not used. -/
def multiInv (n : BigNumbers) (values : List Int) (field : Int) : Option (List Int) :=
  let partials := values.scanl (fun acc value => mul acc value field) 1
  match div n 1 (partials.getLastD 0) field with
  | .ok inverse => some (multiInvLoop partials values field values.length inverse
      (List.replicate partials.length 0))
  | .error _ => none

-- ---------------------------------------------------------------------------
-- Boolean operations
-- ---------------------------------------------------------------------------

/-- The upper half of the field counts as negative. -/
def val (elem field : Int) : Int :=
  let c := field.tdiv 2 + 1
  if c ≤ elem ∧ elem < field then elem - field else elem

def comparableElement (elem field : Int) : Int := val (modulus elem field) field

def normalize (elem field : Int) : Int := if comparableElement elem field = 0 then 0 else 1

def asBool (elem field : Int) : Bool := normalize elem field ≠ 0

def not (elem field : Int) : Int := (normalize elem field + 1).tmod 2

def boolAnd (left right field : Int) : Int := normalize left field * normalize right field

def boolOr (left right field : Int) : Int :=
  (normalize left field + normalize right field + boolAnd left right field).tmod 2

def eq (left right field : Int) : Int := if modulus left field = modulus right field then 1 else 0

def lesser (left right field : Int) : Int :=
  if comparableElement left field < comparableElement right field then 1 else 0

def notEq (left right field : Int) : Int := not (eq left right field) field

def lesserEq (left right field : Int) : Int :=
  boolOr (lesser left right field) (eq left right field) field

def greater (left right field : Int) : Int := not (lesserEq left right field) field

def greaterEq (left right field : Int) : Int :=
  boolOr (greater left right field) (eq left right field) field

-- ---------------------------------------------------------------------------
-- The value of an operation
-- ---------------------------------------------------------------------------

section Cast

variable {R : Type*} [CommRing R] {field : Int}

/-- The remainder has the value of the number. -/
theorem cast_modulus (hField : (field : R) = 0) (a : Int) : ((modulus a field : Int) : R) = a := by
  have hTmod : ∀ x : Int, ((x.tmod field : Int) : R) = x := by
    intro x
    have hDiv := congrArg (Int.cast (R := R)) (Int.mul_tdiv_add_tmod x field)
    rw [Int.cast_add, Int.cast_mul, hField, zero_mul, zero_add] at hDiv
    exact hDiv
  rw [modulus, hTmod, Int.cast_add, hTmod, hField, add_zero]

theorem cast_add (hField : (field : R) = 0) (a b : Int) : ((add a b field : Int) : R) = a + b := by
  rw [add, cast_modulus hField, Int.cast_add]

theorem add_comm (left right field : Int) : add left right field = add right left field := by
  rw [add, add, Int.add_comm]

theorem cast_mul (hField : (field : R) = 0) (a b : Int) : ((mul a b field : Int) : R) = a * b := by
  rw [mul, cast_modulus hField, Int.cast_mul]

/-- A power with an exponent that is not negative. -/
theorem cast_pow {n : BigNumbers} (hPowers : n.Powers) (hField : (field : R) = 0)
    (hPos : 0 < field) (a : Int) {b : Int} (hExp : 0 ≤ b) :
    ∃ c, pow n a b field = some c ∧ 0 ≤ c ∧ c < field ∧ (c : R) = (a : R) ^ b.toNat := by
  have hRange := hPowers.range (b := a) hExp hPos
  refine ⟨n.modPow a b field, if_pos hExp, hRange.1, hRange.2, ?_⟩
  obtain ⟨q, hq⟩ := hPowers.power (b := a) hExp hPos
  have hCast := congrArg (Int.cast (R := R)) hq
  rw [Int.cast_sub, Int.cast_mul, hField, zero_mul, Int.cast_pow] at hCast
  exact sub_eq_zero.mp hCast

/-- A quotient times the divisor is the dividend. -/
theorem cast_div {n : BigNumbers} (hLaw : n.Lawful) (hField : (field : R) = 0) {a b c : Int}
    (h : div n a b field = .ok c) : (b : R) * c = a := by
  unfold div at h
  split at h
  next i hInverse =>
    obtain ⟨q, hq⟩ := hLaw.inverse hInverse
    have hOne : (b : R) * i = 1 := by
      have hCast := congrArg (Int.cast (R := R)) hq
      rw [Int.cast_sub, Int.cast_mul, Int.cast_mul, hField, zero_mul, Int.cast_one] at hCast
      exact sub_eq_zero.mp hCast
    obtain rfl := Except.ok.inj h
    rw [cast_mul hField, mul_left_comm, hOne, mul_one]
  next => cases h

end Cast

-- ---------------------------------------------------------------------------
-- Residues
-- ---------------------------------------------------------------------------

section Residues

variable {field : Int}

/-- The double remainder of the source is the one that is not negative. -/
theorem modulus_eq (hPos : 0 < field) (a : Int) : modulus a field = a % field := by
  have hLow : -field < a.tmod field := Int.lt_tmod_of_pos a hPos
  have hSame : (a.tmod field + field) % field = a % field := by
    rw [Int.add_emod_right, Int.tmod_eq_emod]
    split
    · simp
    · rw [Int.natAbs_of_nonneg hPos.le, Int.sub_emod_right, Int.emod_emod_of_dvd a (dvd_refl field)]
  rw [modulus, Int.tmod_eq_emod_of_nonneg (by omega), hSame]

theorem modulus_range (hPos : 0 < field) (a : Int) :
    0 ≤ modulus a field ∧ modulus a field < field := by
  rw [modulus_eq hPos]
  exact ⟨Int.emod_nonneg a hPos.ne', Int.emod_lt_of_pos a hPos⟩

/-- The representative of a residue that is nearest to zero. -/
theorem comparableElement_spec (hPos : 0 < field) (a : Int) :
    field ∣ comparableElement a field - a ∧ -field < 2 * comparableElement a field ∧
      2 * comparableElement a field ≤ field := by
  have hRange := modulus_range hPos a
  have hMod : field ∣ modulus a field - a := by
    rw [modulus_eq hPos]
    exact ⟨-(a / field), by rw [Int.emod_def]; ring⟩
  rw [comparableElement, val]
  rw [Int.tdiv_eq_ediv_of_nonneg hPos.le]
  split
  next hHigh =>
    refine ⟨?_, by omega, by omega⟩
    have hLess : modulus a field - field - a = modulus a field - a - field := by ring
    rw [hLess]
    exact Int.dvd_sub hMod (dvd_refl field)
  next hLow => exact ⟨hMod, by omega, by omega⟩

end Residues

-- ---------------------------------------------------------------------------
-- Many inversions with one
-- ---------------------------------------------------------------------------

section MultiInv

variable {R : Type*} [CommRing R] {field : Int}

/-- The running product has the value of the product. -/
theorem cast_product (hField : (field : R) = 0) (values : List Int) (a : Int) :
    ((values.foldl (fun acc value => mul acc value field) a : Int) : R) =
      a * (values.map (Int.cast (R := R))).prod := by
  induction values generalizing a with
  | nil => simp
  | cons v values ih =>
    rw [List.foldl_cons, ih, cast_mul hField, List.map_cons, List.prod_cons, mul_assoc]

/-- The partial products are those of the first values. -/
theorem getD_partials (values : List Int) {i : Nat} (hi : i ≤ values.length) :
    (values.scanl (fun acc value => mul acc value field) 1).getD i 0 =
      (values.take i).foldl (fun acc value => mul acc value field) 1 := by
  rw [List.getD_eq_getElem?_getD, List.getElem?_scanl, if_pos hi, Option.getD_some]

/-- The backward loop, started with the inverse of the product of the first `i` values. -/
theorem multiInvLoop_spec (hField : (field : R) = 0) (values : List Int) {i : Nat}
    (hi : i ≤ values.length) {inverse : Int} {outputs : List Int} (hLength : i ≤ outputs.length)
    (hInverse : ((values.take i).map (Int.cast (R := R))).prod * inverse = 1) :
    let result := multiInvLoop (values.scanl (fun acc value => mul acc value field) 1) values field
      i inverse outputs
    result.length = outputs.length ∧
      (∀ j < i, ((result.getD j 0 : Int) : R) * (values.getD j 0 : Int) = 1) ∧
      ∀ j, i ≤ j → result.getD j 0 = outputs.getD j 0 := by
  induction i generalizing inverse outputs with
  | zero => exact ⟨rfl, fun j hj => absurd hj (Nat.not_lt_zero j), fun _ _ => rfl⟩
  | succ i ih =>
    have hValue : values.getD i 0 = values[i] := by
      rw [List.getD_eq_getElem?_getD, List.getElem?_eq_getElem (by omega), Option.getD_some]
    have hProd : ((values.take (i + 1)).map (Int.cast (R := R))).prod =
        ((values.take i).map (Int.cast (R := R))).prod * (values.getD i 0 : Int) := by
      rw [List.take_add_one, List.getElem?_eq_getElem (by omega), Option.toList_some,
        List.map_append, List.prod_append, List.map_singleton, List.prod_singleton, hValue]
    rw [hProd] at hInverse
    have hInverse' : ((values.take i).map (Int.cast (R := R))).prod *
        (mul inverse (values.getD i 0) field : Int) = 1 := by
      rw [cast_mul hField, ← hInverse]
      ring
    have hLength' : i ≤ (outputs.set i (mul ((values.scanl (fun acc value =>
        mul acc value field) 1).getD i 0) inverse field)).length := by
      rw [List.length_set]
      omega
    obtain ⟨hLen, hDone, hRest⟩ := ih (by omega) hLength' hInverse'
    refine ⟨hLen.trans List.length_set, ?_, ?_⟩
    · intro j hj
      by_cases hLast : j = i
      · subst hLast
        rw [multiInvLoop, hRest j (le_refl j), List.getD_eq_getElem?_getD, List.getElem?_set_self
          (by omega), Option.getD_some, cast_mul hField, getD_partials values (by omega),
          cast_product hField, Int.cast_one, one_mul, ← hInverse]
        ring
      · exact hDone j (by omega)
    · intro j hj
      rw [multiInvLoop, hRest j (by omega), List.getD_eq_getElem?_getD,
        List.getElem?_set_ne (by omega), ← List.getD_eq_getElem?_getD]

end MultiInv

section Prime

variable {n : BigNumbers} {p : Nat} [Fact p.Prime]

theorem cast_field : (((p : Int) : Int) : ZMod p) = 0 := by simp

/-- In a prime field everything but zero is coprime to the field. -/
theorem gcd_eq_one_iff {a : Int} : Int.gcd a p = 1 ↔ (a : ZMod p) ≠ 0 := by
  have hNat : Int.gcd a p = Nat.gcd p a.natAbs := by
    rw [Int.gcd_comm]
    rfl
  have hZero : (a : ZMod p) = 0 ↔ p ∣ a.natAbs := by
    rw [ZMod.intCast_zmod_eq_zero_iff_dvd, Int.natCast_dvd]
  rw [hNat, Ne, hZero]
  exact Nat.Prime.coprime_iff_not_dvd Fact.out

/-- The remainder is the representative that the field uses. -/
theorem modulus_eq_val (a : Int) : modulus a p = (a : ZMod p).val := by
  rw [modulus_eq (Int.natCast_pos.mpr (Fact.out : p.Prime).pos), ZMod.val_intCast]

/-- Numbers are compared by their representatives nearest to zero. -/
theorem comparableElement_eq_valMinAbs (a : Int) :
    comparableElement a p = (a : ZMod p).valMinAbs := by
  obtain ⟨hMod, hLow, hHigh⟩ :=
    comparableElement_spec (Int.natCast_pos.mpr (Fact.out : p.Prime).pos) a
  refine ((ZMod.valMinAbs_spec _ _).mpr ⟨?_, ?_, ?_⟩).symm
  · exact (ZMod.intCast_eq_intCast_iff_dvd_sub a _ p).mpr hMod
  · omega
  · omega

/-- A truth value as a number. -/
def bit (P : Prop) [Decidable P] : Int := if P then 1 else 0

section Bits

variable {P Q : Prop} [Decidable P] [Decidable Q]

theorem bit_range : 0 ≤ bit P ∧ bit P < p := by
  have hTwo := (Fact.out : p.Prime).two_le
  rw [bit]
  split
  next => omega
  next => omega

theorem bit_congr (h : P ↔ Q) : bit P = bit Q := if_congr h rfl rfl

theorem cast_bit_eq_zero : ((bit P : Int) : ZMod p) = 0 ↔ ¬ P := by
  rw [bit]
  split
  next hP => simpa using hP
  next hP => simpa using hP

end Bits

/-- Every number but zero counts as true. -/
theorem normalize_eq (a : Int) : normalize a p = bit ((a : ZMod p) ≠ 0) := by
  rw [normalize, comparableElement_eq_valMinAbs, bit, ite_not]
  exact if_congr (ZMod.valMinAbs_eq_zero _) rfl rfl

/-- Every number but zero is true. -/
theorem asBool_eq (a : Int) : asBool a p = true ↔ (a : ZMod p) ≠ 0 := by
  rw [asBool, normalize_eq, decide_eq_true_eq, bit]
  split
  next hNe => exact iff_of_true one_ne_zero hNe
  next hZero => exact iff_of_false (fun h => h rfl) hZero

theorem not_eq_bit (a : Int) : not a p = bit ((a : ZMod p) = 0) := by
  by_cases hZero : (a : ZMod p) = 0
  · rw [not, normalize_eq, bit, bit, if_neg (not_not.mpr hZero), if_pos hZero]
    rfl
  · rw [not, normalize_eq, bit, bit, if_pos hZero, if_neg hZero]
    rfl

theorem boolAnd_eq_bit (a b : Int) :
    boolAnd a b p = bit ((a : ZMod p) ≠ 0 ∧ (b : ZMod p) ≠ 0) := by
  rw [boolAnd, normalize_eq, normalize_eq, bit, bit, bit]
  split <;> split <;> simp_all

theorem boolOr_eq_bit (a b : Int) :
    boolOr a b p = bit ((a : ZMod p) ≠ 0 ∨ (b : ZMod p) ≠ 0) := by
  rw [boolOr, boolAnd, normalize_eq, normalize_eq, bit, bit, bit]
  split <;> split <;> simp_all

theorem eq_eq_bit (a b : Int) : eq a b p = bit ((a : ZMod p) = b) := by
  rw [eq, modulus_eq_val, modulus_eq_val]
  exact if_congr (Nat.cast_inj.trans (ZMod.val_injective p).eq_iff) rfl rfl

theorem lesser_eq_bit (a b : Int) :
    lesser a b p = bit ((a : ZMod p).valMinAbs < (b : ZMod p).valMinAbs) := by
  rw [lesser, comparableElement_eq_valMinAbs, comparableElement_eq_valMinAbs, bit]

theorem notEq_eq_bit (a b : Int) : notEq a b p = bit ((a : ZMod p) ≠ b) := by
  rw [notEq, not_eq_bit, eq_eq_bit]
  exact bit_congr cast_bit_eq_zero

theorem lesserEq_eq_bit (a b : Int) :
    lesserEq a b p = bit ((a : ZMod p).valMinAbs ≤ (b : ZMod p).valMinAbs) := by
  rw [lesserEq, boolOr_eq_bit, lesser_eq_bit, eq_eq_bit]
  refine bit_congr ?_
  rw [Ne, cast_bit_eq_zero, not_not, Ne, cast_bit_eq_zero, not_not, ← ZMod.valMinAbs_inj]
  exact le_iff_lt_or_eq.symm

theorem greater_eq_bit (a b : Int) :
    greater a b p = bit ((b : ZMod p).valMinAbs < (a : ZMod p).valMinAbs) := by
  rw [greater, not_eq_bit, lesserEq_eq_bit]
  refine bit_congr ?_
  rw [cast_bit_eq_zero, not_le]

/-- The comparisons, made of each other, are comparisons. -/
theorem greaterEq_eq_bit (a b : Int) :
    greaterEq a b p = bit ((b : ZMod p).valMinAbs ≤ (a : ZMod p).valMinAbs) := by
  rw [greaterEq, boolOr_eq_bit, greater_eq_bit, eq_eq_bit]
  refine bit_congr ?_
  rw [Ne, cast_bit_eq_zero, not_not, Ne, cast_bit_eq_zero, not_not, ← ZMod.valMinAbs_inj]
  exact le_iff_lt_or_eq.trans (or_congr_right eq_comm) |>.symm

/-- A division succeeds exactly if the divisor is not zero in the field. -/
theorem div_ok_iff (hLaw : n.Lawful) {a b : Int} :
    (∃ c, div n a b p = .ok c) ↔ (b : ZMod p) ≠ 0 := by
  constructor
  · rintro ⟨c, hOk⟩ hZero
    have hInverse : ∃ i, n.modInverse b p = some i := by
      unfold div at hOk
      split at hOk
      next i hInverse => exact ⟨i, hInverse⟩
      next => cases hOk
    obtain ⟨i, hInverse⟩ := hInverse
    have hOne : div n 1 b p = .ok (mul 1 i p) := by rw [div, hInverse]
    have hCast := cast_div hLaw (cast_field (p := p)) hOne
    rw [hZero, zero_mul, Int.cast_one] at hCast
    exact zero_ne_one hCast
  · intro hNe
    obtain ⟨i, hInverse⟩ := hLaw.exists_inverse (Int.natCast_pos.mpr (Fact.out : p.Prime).pos)
      (gcd_eq_one_iff.mpr hNe)
    exact ⟨mul a i p, by rw [div, hInverse]⟩

/-- `multi_inv` on values that are not zero in the field. -/
theorem multiInv_ok (hLaw : n.Lawful) {values : List Int}
    (h : ∀ v ∈ values, (v : ZMod p) ≠ 0) : ∃ outputs, multiInv n values p = some outputs ∧
      outputs.length = values.length + 1 ∧
      ∀ i < values.length, ((outputs.getD i 0 : Int) : ZMod p) * (values.getD i 0 : Int) = 1 := by
  have hLast : (values.scanl (fun acc value => mul acc value p) 1).getLastD 0 =
      values.foldl (fun acc value => mul acc value p) 1 := by
    rw [List.getLastD_eq_getLast?, List.getLast?_scanl, Option.getD_some]
  have hProd : ((values.foldl (fun acc value => mul acc value p) 1 : Int) : ZMod p) =
      (values.map (Int.cast (R := ZMod p))).prod := by
    rw [cast_product cast_field, Int.cast_one, one_mul]
  have hNe : ((values.foldl (fun acc value => mul acc value p) 1 : Int) : ZMod p) ≠ 0 := by
    rw [hProd]
    refine List.prod_ne_zero ?_
    intro hMem
    obtain ⟨v, hv, hZero⟩ := List.mem_map.mp hMem
    exact h v hv hZero
  obtain ⟨inverse, hDiv⟩ := (div_ok_iff (a := 1) hLaw).mpr hNe
  have hInverse := cast_div hLaw (cast_field (p := p)) hDiv
  rw [hProd, Int.cast_one] at hInverse
  have hZeros : values.length ≤ (List.replicate (values.length + 1) (0 : Int)).length := by
    rw [List.length_replicate]
    omega
  have hAll : ((values.take values.length).map (Int.cast (R := ZMod p))).prod * inverse = 1 := by
    rwa [List.take_length]
  obtain ⟨hLength, hDone, -⟩ :=
    multiInvLoop_spec (R := ZMod p) cast_field values (le_refl _) hZeros hAll
  refine ⟨_, ?_, ?_, hDone⟩
  · rw [multiInv, hLast, hDiv, List.length_scanl]
  · rw [hLength, List.length_replicate]

/-- **One inversion for all.** In a prime field `multi_inv` inverts every one of the values,
whatever their number, unless one of them is zero: then it panics. -/
theorem multiInv_exact (hLaw : n.Lawful) (values : List Int) :
    (∀ outputs, multiInv n values p = some outputs → outputs.length = values.length + 1 ∧
      ∀ i < values.length, ((outputs.getD i 0 : Int) : ZMod p) * (values.getD i 0 : Int) = 1) ∧
    (multiInv n values p = none ↔ ∃ v ∈ values, (v : ZMod p) = 0) := by
  have hNone : (∃ v ∈ values, (v : ZMod p) = 0) → multiInv n values p = none := by
    rintro ⟨v, hv, hZero⟩
    have hProd : ((values.foldl (fun acc value => mul acc value p) 1 : Int) : ZMod p) = 0 := by
      rw [cast_product cast_field, Int.cast_one, one_mul]
      exact List.prod_eq_zero (List.mem_map.mpr ⟨v, hv, hZero⟩)
    rw [multiInv, List.getLastD_eq_getLast?, List.getLast?_scanl, Option.getD_some]
    split
    next inverse hDiv => exact absurd hProd ((div_ok_iff hLaw).mp ⟨inverse, hDiv⟩)
    next => rfl
  have hAll : ¬ (∃ v ∈ values, (v : ZMod p) = 0) → ∀ v ∈ values, (v : ZMod p) ≠ 0 :=
    fun hNot v hv hZero => hNot ⟨v, hv, hZero⟩
  refine ⟨?_, ?_, hNone⟩
  · intro outputs hOk
    by_cases hZero : ∃ v ∈ values, (v : ZMod p) = 0
    · rw [hNone hZero] at hOk
      cases hOk
    · obtain ⟨outputs', hOk', hSpec⟩ := multiInv_ok hLaw (hAll hZero)
      obtain rfl : outputs' = outputs := Option.some.inj (hOk'.symm.trans hOk)
      exact hSpec
  · intro hPanic
    by_contra hZero
    obtain ⟨outputs, hOk, -⟩ := multiInv_ok hLaw (hAll hZero)
    rw [hPanic] at hOk
    cases hOk

end Prime

end ModularArithmetic

-- ---------------------------------------------------------------------------
-- A small field
-- ---------------------------------------------------------------------------

namespace Sample

/-- Inverses are found by trial. -/
def bigNumbers : BigNumbers where
  modInverse a m := ((List.range m.toNat).map Int.ofNat).find? fun i => decide (m ∣ a * i - 1)
  modPow b e m := b ^ e.toNat % m

/-- Trial finds the inverses. -/
theorem lawful : bigNumbers.Lawful where
  inverse := by
    intro a m i h
    have hFound := List.find?_some (p := fun i => decide (m ∣ a * i - 1)) h
    exact of_decide_eq_true hFound
  exists_inverse := by
    intro a m hPos hGcd
    have hBezout : a * Int.gcdA a m + m * Int.gcdB a m = 1 := by
      rw [← Int.gcd_eq_gcd_ab, hGcd, Nat.cast_one]
    have hLow := Int.emod_nonneg (Int.gcdA a m) hPos.ne'
    have hHigh := Int.emod_lt_of_pos (Int.gcdA a m) hPos
    refine Option.isSome_iff_exists.mp (List.find?_isSome.mpr ⟨Int.gcdA a m % m, ?_, ?_⟩)
    · rw [List.mem_map]
      exact ⟨(Int.gcdA a m % m).toNat, List.mem_range.mpr (by omega), Int.toNat_of_nonneg hLow⟩
    · rw [decide_eq_true_eq]
      refine ⟨-Int.gcdB a m - a * (Int.gcdA a m / m), ?_⟩
      rw [Int.emod_def]
      linear_combination hBezout

instance prime_thirteen : Fact (Nat.Prime 13) := ⟨by decide⟩

end Sample

section Sample

open Sample

theorem ModularArithmetic.multiInv_exact_sample :
    (∀ outputs, multiInv bigNumbers [3, 5, 12] (13 : Nat) = some outputs →
      outputs.length = [(3 : Int), 5, 12].length + 1 ∧
      ∀ i < [(3 : Int), 5, 12].length,
        ((outputs.getD i 0 : Int) : ZMod 13) * ([(3 : Int), 5, 12].getD i 0 : Int) = 1) ∧
    (multiInv bigNumbers [3, 5, 12] (13 : Nat) = none ↔
      ∃ v ∈ [(3 : Int), 5, 12], (v : ZMod 13) = 0) :=
  multiInv_exact lawful [3, 5, 12]

end Sample

end Ganc.Circom
