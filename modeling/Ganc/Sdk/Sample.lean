import Ganc.Sdk.Core

/-!
# A concrete SDK

`Sdk.sample` parses decimal integers and coins without a fraction, and knows
three accounts by their Bech32 strings. On such inputs it answers as the
libraries do, and it is lawful, so statements about every lawful SDK can be
tried on it.
-/

namespace Ganc

namespace Sample

def parseDigits (ds : List Char) : Option Nat :=
  if ds ≠ [] ∧ ds.all Char.isDigit then some (Nat.ofDigitChars 10 ds 0) else none

def parseSigned : List Char → Option Int
  | '-' :: ds => Option.map (fun n : Nat => -(n : Int)) (parseDigits ds)
  | ds => Option.map (fun n : Nat => (n : Int)) (parseDigits ds)

/-- A decimal literal of at most 256 bits. -/
def parseInt (t : String) : MathInt :=
  (parseSigned t.toList).filter fun i => decide (MathInt.Fits i)

def isDenomChar (c : Char) : Bool :=
  c.isAlphanum || c ∈ ['/', ':', '.', '_', '-']

/-- `[a-zA-Z][a-zA-Z0-9/:._-]{2,127}`. -/
def validDenom (d : String) : Bool :=
  match d.toList with
  | [] => false
  | c :: cs => c.isAlpha && cs.all isDenomChar && decide (2 ≤ cs.length ∧ cs.length ≤ 127)

def alice : String := "cosmos1qyqszqgpqyqszqgpqyqszqgpqyqszqgpjnp7du"
def bob : String := "cosmos1qgpqyqszqgpqyqszqgpqyqszqgpqyqszrh8mx2"
def carol : String := "cosmos1qvpsxqcrqvpsxqcrqvpsxqcrqvpsxqcrz8x6vt"

/-- The accounts and the bytes their Bech32 strings decode to. -/
def accounts : List (String × AccAddress) :=
  [(alice, List.replicate 20 1), (bob, List.replicate 20 2), (carol, List.replicate 20 3)]

/-- The bytes behind one of the three strings. -/
def address (t : String) : Option AccAddress := accounts.lookup t

/-- Digits, then a denom. -/
def parseCoin (t : String) : Except String Coin :=
  let digits := t.toList.takeWhile Char.isDigit
  let denom := String.ofList (t.toList.dropWhile Char.isDigit)
  match parseDigits digits with
  | some n => if validDenom denom then .ok ⟨denom, n⟩ else .error "invalid decimal coin expression"
  | none => .error "invalid decimal coin expression"

end Sample

open Sample in
def Sdk.sample : Sdk where
  newIntFromString := parseInt
  validateDenom := validDenom
  accAddressFromBech32 := address
  stringToBytes t := match address t with
    | some a => .ok a
    | none => .error "decoding bech32 failed"
  bytesToString a := ((accounts.find? fun acc => acc.2 = a).map Prod.fst).getD ""
  parseCoinNormalized := parseCoin

namespace Sample

/-- Decimal digits are read back. -/
theorem parseDigits_toDigits (n : Nat) : parseDigits (Nat.toDigits 10 n) = some n := by
  have hDigits : (Nat.toDigits 10 n).all Char.isDigit := by
    rw [List.all_eq_true]
    intro c hc
    exact Nat.isDigit_of_mem_toDigits (by decide) (by decide) hc
  rw [parseDigits, if_pos ⟨Nat.toDigits_ne_nil, hDigits⟩, Nat.ofDigitChars_ten_toDigits]

theorem parseSigned_of_digits {ds : List Char} {n : Nat} (h : parseDigits ds = some n) :
    parseSigned ds = some (n : Int) := by
  unfold parseSigned
  split
  · -- a minus sign is no digit
    simp [parseDigits] at h
  · simp [h]

/-- An integer that fits is read back from its text. -/
theorem parseInt_toString {i : Int} (h : MathInt.Fits i) : parseInt (toString i) = some i := by
  have hSigned : parseSigned (toString i).toList = some i := by
    rw [Int.toString_eq_repr, Int.repr_eq_if]
    split
    · rw [Nat.toList_repr, parseSigned_of_digits (parseDigits_toDigits _)]
      simp only [Option.some.injEq]
      omega
    · rw [String.toList_append, Nat.toList_repr]
      show Option.map _ (parseDigits (Nat.toDigits 10 _)) = _
      rw [parseDigits_toDigits]
      simp only [Option.map_some, Option.some.injEq]
      omega
  rw [parseInt, hSigned, Option.filter_eq_some_iff]
  exact ⟨rfl, by simpa using h⟩

/-- What is read is signed digits, and fits. -/
theorem parseInt_eq_some {t : String} {i : Int} (h : parseInt t = some i) :
    parseSigned t.toList = some i ∧ MathInt.Fits i := by
  rw [parseInt, Option.filter_eq_some_iff] at h
  exact ⟨h.1, by simpa using h.2⟩

theorem literal_of_isDigit {c : Char} (h : c.isDigit) : c ∈ literalChars := by
  obtain ⟨hLo, hHi⟩ := Char.isDigit_iff_toNat.mp h
  have hAll : ∀ n : Fin 10, Char.ofNat ('0'.toNat + n) ∈ literalChars := by decide
  have hc := hAll ⟨c.toNat - '0'.toNat, by simp at *; omega⟩
  rwa [Nat.add_sub_cancel' hLo, Char.ofNat_toNat] at hc

theorem literal_of_parseDigits {ds : List Char} {n : Nat} (h : parseDigits ds = some n) :
    ds ≠ [] ∧ ∀ c ∈ ds, c ∈ literalChars := by
  unfold parseDigits at h
  split at h
  next hDigits =>
    refine ⟨hDigits.1, ?_⟩
    intro c hc
    have hDigit := List.all_eq_true.mp hDigits.2 c hc
    exact literal_of_isDigit hDigit
  next => cases h

/-- A text that is read holds characters of literals only, and at least one. -/
theorem literal_of_parseInt {t : String} {i : Int} (h : parseInt t = some i) :
    t.toList ≠ [] ∧ ∀ c ∈ t.toList, c ∈ literalChars := by
  have hSigned := (parseInt_eq_some h).1
  revert hSigned
  generalize t.toList = cs
  intro hSigned
  unfold parseSigned at hSigned
  split at hSigned
  next ds =>
    obtain ⟨n, hn, -⟩ := Option.map_eq_some_iff.mp hSigned
    refine ⟨List.cons_ne_nil _ _, ?_⟩
    intro c hc
    rcases List.mem_cons.mp hc with rfl | hMem
    · decide
    · exact (literal_of_parseDigits hn).2 c hMem
  next =>
    obtain ⟨n, hn, -⟩ := Option.map_eq_some_iff.mp hSigned
    exact literal_of_parseDigits hn

/-- A valid denomination holds no bar. -/
theorem bar_notMem_of_validDenom {d : String} (h : validDenom d) : '|' ∉ d.toList := by
  unfold validDenom at h
  revert h
  cases d.toList with
  | nil => simp
  | cons c cs =>
    intro h hmem
    simp only [Bool.and_eq_true, List.all_eq_true] at h
    rcases List.mem_cons.mp hmem with rfl | hcs
    · exact absurd h.1.1 (by decide)
    · exact absurd (h.1.2 _ hcs) (by decide)

/-- An address of the sample has at least six characters. -/
theorem six_le_of_address {t : String} {a : AccAddress} (h : address t = some a) :
    6 ≤ t.toList.length := by
  have hMem : (t, a) ∈ accounts := by
    rw [address, List.lookup_eq_some_iff] at h
    obtain ⟨l₁, l₂, hEq, -⟩ := h
    rw [hEq]
    simp
  have hAll : ∀ acc ∈ accounts, 6 ≤ acc.1.toList.length := by decide
  exact hAll _ hMem

end Sample

/-- The sample SDK meets every assumption on the real one. -/
theorem Sdk.sample_lawful : Sdk.sample.Lawful where
  newInt_fits h := (Sample.parseInt_eq_some h).2
  newInt_toString h := Sample.parseInt_toString h
  newInt_literal h := Sample.literal_of_parseInt h
  denom_charset h := Sample.bar_notMem_of_validDenom h
  bech32_length h := Sample.six_le_of_address h

end Ganc
