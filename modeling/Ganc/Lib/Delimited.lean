import Mathlib.Data.List.Basic
import Mathlib.Tactic.Common

/-!
# Fields joined by a delimiter

When a key is made by writing fields one after another with a delimiter
between them, the fields can be read back from the key as long as the
delimiter cannot stand inside them:

* `cons_inj_left` — up to the first delimiter, when it is not in the field
  before it;
* `cons_inj_right` — from the last delimiter on, when it is not in the field
  after it.

A last field of known length needs no delimiter (`List.append_inj'`), nor does
a field of one class of elements before one that starts with another
(`class_inj_left`). A field that is written twice, before and after the others,
may hold any delimiters (`echo_inj`): it is the number of delimiters that tells
where it ends.
-/

namespace Delimited

variable {α : Type*} {d : α}

/-- What stands before the first delimiter is determined. -/
theorem cons_inj_left {x x' z z' : List α} (hx : d ∉ x) (hx' : d ∉ x')
    (h : x ++ d :: z = x' ++ d :: z') : x = x' ∧ z = z' := by
  induction x generalizing x' with
  | nil =>
    cases x' with
    | nil => exact ⟨rfl, (List.cons.inj h).2⟩
    | cons a x' =>
      obtain ⟨rfl, -⟩ := List.cons.inj h
      exact absurd (List.mem_cons_self ..) hx'
  | cons a x ih =>
    cases x' with
    | nil =>
      obtain ⟨rfl, -⟩ := List.cons.inj h
      exact absurd (List.mem_cons_self ..) hx
    | cons a' x' =>
      obtain ⟨rfl, hRest⟩ := List.cons.inj h
      have hTail := ih (fun hMem => hx (List.mem_cons_of_mem _ hMem))
        (fun hMem => hx' (List.mem_cons_of_mem _ hMem)) hRest
      exact ⟨by rw [hTail.1], hTail.2⟩

/-- What stands after the last delimiter is determined. -/
theorem cons_inj_right {x x' z z' : List α} (hz : d ∉ z) (hz' : d ∉ z')
    (h : x ++ d :: z = x' ++ d :: z') : x = x' ∧ z = z' := by
  have hRev : z.reverse ++ d :: x.reverse = z'.reverse ++ d :: x'.reverse := by
    simpa using congrArg List.reverse h
  obtain ⟨hTail, hHead⟩ := cons_inj_left (by simpa using hz) (by simpa using hz') hRev
  exact ⟨List.reverse_injective hHead, List.reverse_injective hTail⟩

/-- A field whose elements satisfy `p`, followed by something that does not start
with such an element. -/
theorem class_inj_left {p : α → Bool} {x x' z z' : List α} (hx : ∀ a ∈ x, p a)
    (hx' : ∀ a ∈ x', p a) (hz : ∀ a ∈ z.head?, p a = false) (hz' : ∀ a ∈ z'.head?, p a = false)
    (h : x ++ z = x' ++ z') : x = x' ∧ z = z' := by
  have hStop : ∀ z : List α, (∀ a ∈ z.head?, p a = false) → z.takeWhile p = [] := by
    intro z hz
    cases z with
    | nil => rfl
    | cons a z => exact List.takeWhile_cons_of_neg (by simp [hz a rfl])
  have hSpan := congrArg (List.takeWhile p) h
  rw [List.takeWhile_append_of_pos hx, List.takeWhile_append_of_pos hx', hStop z hz, hStop z' hz',
    List.append_nil, List.append_nil] at hSpan
  subst hSpan
  exact ⟨rfl, List.append_cancel_left h⟩

/-- Of two such texts the first field of the one does not go beyond that of the other. -/
theorem echo_rest_nil [BEq α] [LawfulBEq α] {x y y' r : List α} (hCount : y.count d = y'.count d)
    (h : d :: (y ++ x) = r ++ d :: (y' ++ (x ++ r))) : r = [] := by
  have hCounts := congrArg (List.count d) h
  cases r with
  | nil => rfl
  | cons a r =>
    obtain ⟨rfl, -⟩ := List.cons.inj h
    simp only [List.cons_append, List.count_cons_self, List.count_append] at hCounts
    omega

/-- A field on both sides of a middle with a known number of delimiters. -/
theorem echo_inj [BEq α] [LawfulBEq α] {x x' y y' : List α} (hCount : y.count d = y'.count d)
    (h : x ++ d :: (y ++ x) = x' ++ d :: (y' ++ x')) : x = x' ∧ y = y' := by
  have hSame : x = x' := by
    rcases List.append_eq_append_iff.mp h with ⟨r, rfl, hRest⟩ | ⟨r, rfl, hRest⟩
    · rw [echo_rest_nil hCount hRest, List.append_nil]
    · rw [echo_rest_nil hCount.symm hRest, List.append_nil]
  subst hSame
  exact ⟨rfl, List.append_cancel_right (List.cons.inj (List.append_cancel_left h)).2⟩

-- A decimal numeral is a field free of dashes.

/-- A numeral holds no dash. -/
theorem dash_notMem_toString (n : Nat) : '-' ∉ (toString n).toList := by
  rw [Nat.toString_eq_repr, Nat.toList_repr]
  intro hMem
  exact absurd (Nat.isDigit_of_mem_toDigits (by decide) (by decide) hMem) (by decide)

/-- Numerals are told apart. -/
theorem toString_inj {m n : Nat} (h : toString m = toString n) : m = n := by
  have hDigits := congrArg String.toList h
  rw [Nat.toString_eq_repr, Nat.toString_eq_repr, Nat.toList_repr, Nat.toList_repr] at hDigits
  rw [← Nat.ofDigitChars_ten_toDigits (n := m), hDigits, Nat.ofDigitChars_ten_toDigits]

end Delimited
