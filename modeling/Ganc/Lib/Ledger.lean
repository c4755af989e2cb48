import Mathlib.Algebra.BigOperators.Group.List.Basic
import Mathlib.Algebra.Order.Ring.Int
import Mathlib.Tactic.Common

/-!
# Multi-denomination ledgers

Accounts `α` hold amounts of denominations `δ`. `move` transfers one amount
and is refused when the sender lacks it; `moveAll` transfers a list of
amounts, all or nothing. The lemmas say what a successful transfer does to
the two parties.
-/

namespace Ledger

variable {α δ : Type} [DecidableEq α] [DecidableEq δ]

/-- How much of each denomination each account holds. -/
abbrev Balances (α δ : Type) := α → δ → ℕ

/-- The amount of denomination `d` in a list of amounts. -/
def amountOf (cs : List (δ × ℕ)) (d : δ) : ℕ :=
  (cs.map fun c => if c.1 = d then c.2 else 0).sum

/-- Takes `n` of `d` from `src` and gives it to `dst`. -/
def move (b : Balances α δ) (src dst : α) (d : δ) (n : ℕ) : Option (Balances α δ) :=
  if n ≤ b src d then
    let taken : Balances α δ := fun a e => if a = src ∧ e = d then b a e - n else b a e
    some fun a e => if a = dst ∧ e = d then taken a e + n else taken a e
  else
    none

/-- Moves the amounts one after the other; refused when one of them is. -/
def moveAll (b : Balances α δ) (src dst : α) : List (δ × ℕ) → Option (Balances α δ)
  | [] => some b
  | c :: cs => (move b src dst c.1 c.2).bind fun b' => moveAll b' src dst cs

-- ---------------------------------------------------------------------------
-- One amount
-- ---------------------------------------------------------------------------

/-- A move needs that the amount is there. -/
theorem move_isSome_iff {b : Balances α δ} {src dst : α} {d : δ} {n : ℕ} :
    (move b src dst d n).isSome ↔ n ≤ b src d := by
  unfold move
  split <;> simp_all

section Move

variable {b b' : Balances α δ} {src dst : α} {d : δ} {n : ℕ}

theorem move_le (h : move b src dst d n = some b') : n ≤ b src d := by
  have hSome : (move b src dst d n).isSome := by rw [h]; rfl
  exact move_isSome_iff.mp hSome

/-- What a transfer does to any account, the two parties or another. -/
theorem move_balance (h : move b src dst d n = some b') (a : α) (e : δ) :
    (b' a e : Int) = b a e + (if dst = a then ((if d = e then n else 0 : ℕ) : Int) else 0) -
      if src = a then ((if d = e then n else 0 : ℕ) : Int) else 0 := by
  have hle := move_le h
  rw [move, if_pos hle] at h
  obtain rfl := Option.some.inj h
  by_cases hd : d = e
  · subst hd
    by_cases hSrc : src = a
    · subst hSrc
      by_cases hDst : dst = src
      · subst hDst
        simp only [and_self, if_true]
        omega
      · simp only [and_self, and_true, if_true, if_neg hDst, if_neg (Ne.symm hDst)]
        omega
    · by_cases hDst : dst = a
      · subst hDst
        simp [hSrc, Ne.symm hSrc]
      · simp [hSrc, hDst, Ne.symm hSrc, Ne.symm hDst]
  · simp [hd, Ne.symm hd]

end Move

-- ---------------------------------------------------------------------------
-- A list of amounts
-- ---------------------------------------------------------------------------

@[simp] theorem amountOf_nil (d : δ) : amountOf ([] : List (δ × ℕ)) d = 0 := rfl

@[simp] theorem amountOf_cons (c : δ × ℕ) (cs : List (δ × ℕ)) (d : δ) :
    amountOf (c :: cs) d = (if c.1 = d then c.2 else 0) + amountOf cs d := by
  simp [amountOf]

theorem moveAll_cons {b b' : Balances α δ} {src dst : α} {c : δ × ℕ} {cs : List (δ × ℕ)} :
    moveAll b src dst (c :: cs) = some b' ↔
      ∃ b₁, move b src dst c.1 c.2 = some b₁ ∧ moveAll b₁ src dst cs = some b' := by
  simp [moveAll, Option.bind_eq_some_iff]

/-- The balances after a list of moves. -/
theorem moveAll_balance {b b' : Balances α δ} {src dst : α} {cs : List (δ × ℕ)}
    (h : moveAll b src dst cs = some b') (a : α) (e : δ) :
    (b' a e : Int) = b a e + (if dst = a then (amountOf cs e : Int) else 0) -
      if src = a then (amountOf cs e : Int) else 0 := by
  induction cs generalizing b with
  | nil =>
    obtain rfl := Option.some.inj h
    simp
  | cons c cs ih =>
    obtain ⟨b₁, hMove, hRest⟩ := moveAll_cons.mp h
    have h₁ := move_balance hMove a e
    have h₂ := ih hRest
    rw [amountOf_cons, Nat.cast_add]
    by_cases hDst : dst = a <;> by_cases hSrc : src = a <;>
      simp only [hDst, hSrc, if_true, if_false] at h₁ h₂ ⊢ <;> omega

/-- The source has lost exactly the coins. -/
theorem moveAll_src {b b' : Balances α δ} {src dst : α} {cs : List (δ × ℕ)}
    (h : moveAll b src dst cs = some b') (hne : src ≠ dst) (e : δ) :
    b' src e + amountOf cs e = b src e := by
  have hBalance := moveAll_balance h src e
  rw [if_neg hne.symm, if_pos rfl] at hBalance
  omega

/-- The destination has gained exactly the coins. -/
theorem moveAll_dst {b b' : Balances α δ} {src dst : α} {cs : List (δ × ℕ)}
    (h : moveAll b src dst cs = some b') (hne : src ≠ dst) (e : δ) :
    b' dst e = b dst e + amountOf cs e := by
  have hBalance := moveAll_balance h dst e
  rw [if_pos rfl, if_neg hne] at hBalance
  omega

/-- A single amount is moved exactly when the sender holds it. -/
theorem moveAll_singleton_isSome {b : Balances α δ} {src dst : α} {c : δ × ℕ} :
    (moveAll b src dst [c]).isSome ↔ c.2 ≤ b src c.1 := by
  have hMove : (move b src dst c.1 c.2).isSome ↔ c.2 ≤ b src c.1 := move_isSome_iff
  rw [← hMove]
  simp only [moveAll]
  cases move b src dst c.1 c.2 <;> rfl

end Ledger
