import Mathlib.Order.Basic
import Mathlib.Tactic.SplitIfs

/-!
# Texts as bytes

`toUTF8` writes a text character by character, each in one to four bytes.

* `toUTF8_inj` — the bytes of a text determine it;
* `toUTF8_lt` — texts in the order of their characters are in the order of
  their bytes.
-/

namespace Utf8

theorem byteArray_loop (b : ByteArray) (i : Nat) (r : List UInt8) :
    ByteArray.toList.loop b i r = r.reverse ++ b.data.toList.drop i := by
  fun_induction ByteArray.toList.loop b i r with
  | case1 i r h ih =>
    have hLen : i < b.data.toList.length := by simpa using h
    rw [ih, List.drop_eq_getElem_cons hLen, List.reverse_cons, List.append_assoc,
      List.singleton_append]
    congr 2
    rw [Array.getElem_toList]
    exact getElem!_pos b.data i (by simpa using hLen)
  | case2 i r h =>
    have hLen : b.data.toList.length ≤ i := by simpa using h
    rw [List.drop_eq_nil_of_le hLen, List.append_nil]

/-- The bytes of an array, as a list, are its data. -/
theorem byteArray_toList (b : ByteArray) : b.toList = b.data.toList := by
  rw [ByteArray.toList, byteArray_loop]
  rfl

/-- The bytes of a text determine it. -/
theorem toUTF8_inj {s t : String} (h : s.toUTF8.toList = t.toUTF8.toList) : s = t := by
  rw [byteArray_toList, byteArray_toList] at h
  exact String.toByteArray_inj.mp (ByteArray.ext (Array.toList_inj.mp h))

/-- The bytes of a text are those of its characters, one after the other. -/
theorem toUTF8_toList (s : String) :
    s.toUTF8.toList = s.toList.flatMap String.utf8EncodeChar := by
  rw [byteArray_toList, String.toUTF8_eq_toByteArray, ← String.utf8Encode_toList,
    List.utf8Encode, List.toList_data_toByteArray]

/-- Lists of bytes are compared byte by byte. -/
theorem byte_cons_lt_iff {a b : Nat} {as bs : List UInt8} (ha : a < 256) (hb : b < 256) :
    UInt8.ofNat a :: as < UInt8.ofNat b :: bs ↔ a < b ∨ a = b ∧ as < bs := by
  rw [List.cons_lt_cons_iff, UInt8.lt_iff_toNat_lt, ← UInt8.toNat_inj,
    UInt8.toNat_ofNat_of_lt' ha, UInt8.toNat_ofNat_of_lt' hb]

/-- The bytes of a smaller character are smaller, and do not begin those of the
other one. -/
theorem utf8EncodeChar_append_lt {c d : Char} (h : c < d) (xs ys : List UInt8) :
    String.utf8EncodeChar c ++ xs < String.utf8EncodeChar d ++ ys := by
  have hLt : c.val.toNat < d.val.toNat := h
  have hMax : d.val.toNat < 0x110000 := by
    rcases d.valid with hd | hd <;> omega
  -- by the number of bytes of each; the six bits of a byte are digits to the base 64
  delta String.utf8EncodeChar
  generalize c.val.toNat = v at *
  generalize d.val.toNat = w at *
  have hDigits : ∀ n, n / 4096 = n / 64 / 64 ∧ n / 262144 = n / 64 / 64 / 64 := by omega
  simp only [hDigits]
  split_ifs <;>
    simp (disch := omega) only [List.cons_append, List.nil_append, byte_cons_lt_iff] <;> omega

/-- UTF-8 keeps the order of the code points. -/
theorem flatMap_utf8EncodeChar_lt {cs ds : List Char} (h : cs < ds) :
    cs.flatMap String.utf8EncodeChar < ds.flatMap String.utf8EncodeChar := by
  induction h with
  | @nil d ds =>
    obtain ⟨b, bs, hBytes⟩ :=
      List.exists_cons_of_ne_nil (String.utf8EncodeChar_ne_nil (c := d))
    rw [List.flatMap_nil, List.flatMap_cons, hBytes, List.cons_append]
    exact List.nil_lt_cons ..
  | rel hChar =>
    rw [List.flatMap_cons, List.flatMap_cons]
    exact utf8EncodeChar_append_lt hChar _ _
  | cons _ ih =>
    rw [List.flatMap_cons, List.flatMap_cons]
    exact List.append_left_lt ih

/-- Texts in the order of their characters are in the order of their bytes. -/
theorem toUTF8_lt {s t : String} (h : s < t) : s.toUTF8.toList < t.toUTF8.toList := by
  rw [toUTF8_toList, toUTF8_toList]
  exact flatMap_utf8EncodeChar_lt h

end Utf8
