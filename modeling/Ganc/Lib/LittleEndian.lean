import Mathlib.Data.Nat.Digits.Lemmas

/-!
# Numbers as bytes

The bytes of a number with the least significant first: `digits n` has no zeros
at the end. `value` reads bytes back, and does not see zeros at the end.
-/

namespace LittleEndian

/-- The number that the bytes stand for. -/
def value (bytes : List UInt8) : Nat := Nat.ofDigits 256 (bytes.map UInt8.toNat)

/-- The bytes of a number; zero has none. -/
def digits (n : Nat) : List UInt8 := (Nat.digits 256 n).map UInt8.ofNat

/-- The bytes are the digits to the base 256. -/
theorem toNat_map_digits (n : Nat) : (digits n).map UInt8.toNat = Nat.digits 256 n := by
  have hByte : ∀ d ∈ Nat.digits 256 n, (UInt8.toNat ∘ UInt8.ofNat) d = id d := by
    intro d hd
    exact UInt8.toNat_ofNat_of_lt (Nat.digits_lt_base (by norm_num) hd)
  rw [digits, List.map_map, List.map_congr_left hByte, List.map_id]

/-- The digits of a number have its value. -/
theorem value_digits (n : Nat) : value (digits n) = n := by
  rw [value, toNat_map_digits, Nat.ofDigits_digits]

/-- Leading zeros do not change the value. -/
theorem value_append_zeros (bytes : List UInt8) (k : Nat) :
    value (bytes ++ List.replicate k 0) = value bytes := by
  rw [value, List.map_append, List.map_replicate]
  exact Nat.ofDigits_append_replicate_zero _

end LittleEndian
