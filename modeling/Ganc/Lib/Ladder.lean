import Mathlib.Algebra.Order.BigOperators.Group.Finset
import Mathlib.Data.Finsupp.Basic
import Ganc.Lib.Greedy

/-!
# Ladders

A ladder says how much there is at each price, and no longer whose it is. What a
best-first allocation takes at each price is a function of the ladder of the
capacities alone (`BestFirst.ladder_eq`): `sweep` takes a quantity from a ladder,
lower levels first. A larger quantity on a longer ladder takes no less anywhere
(`sweep_mono`).
-/

namespace Greedy

variable {α π ι : Type*}

-- ---------------------------------------------------------------------------
-- Ladders and their parts
-- ---------------------------------------------------------------------------

/-- What the items have together at each price. -/
noncomputable def ladder (price : α → π) (f : α → Int) (as : List α) : π →₀ Int :=
  (as.map fun a => Finsupp.single (price a) (f a)).sum

/-- What the prices in `D` have together. -/
noncomputable def within (D : π → Prop) [DecidablePred D] (d : π →₀ Int) : Int :=
  d.sum fun p n => if D p then n else 0

section Parts

variable {price : α → π} {f : α → Int} {as : List α} {D : π → Prop} [DecidablePred D]

/-- A ladder depends on the prices and amounts of the list only. -/
theorem ladder_congr {price' : α → π} {g : α → Int} (hPrice : ∀ a ∈ as, price' a = price a)
    (hEq : ∀ a ∈ as, g a = f a) : ladder price' g as = ladder price f as := by
  refine congrArg List.sum (List.map_congr_left ?_)
  intro a ha
  rw [hPrice a ha, hEq a ha]

/-- A ladder does not depend on the order of the list. -/
theorem ladder_perm {bs : List α} (h : as.Perm bs) : ladder price f as = ladder price f bs :=
  (h.map _).sum_eq

theorem ladder_cons (a : α) (as : List α) :
    ladder price f (a :: as) = Finsupp.single (price a) (f a) + ladder price f as := rfl

theorem ladder_append (as bs : List α) :
    ladder price f (as ++ bs) = ladder price f as + ladder price f bs := by
  rw [ladder, List.map_append, List.sum_append, ladder, ladder]

theorem ladder_sub (f g : α → Int) :
    ladder price (fun a => f a - g a) as = ladder price f as - ladder price g as := by
  induction as with
  | nil => simp [ladder]
  | cons a as ih =>
    rw [ladder_cons, ladder_cons, ladder_cons, ih, Finsupp.single_sub, add_sub_add_comm]

/-- Items without anything can be left out. -/
theorem ladder_filter {p : α → Bool} (h : ∀ a ∈ as, p a = false → f a = 0) :
    ladder price f (as.filter p) = ladder price f as := by
  induction as with
  | nil => rfl
  | cons a as ih =>
    have hRest := ih fun b hb => h b (List.mem_cons_of_mem _ hb)
    cases hp : p a with
    | true => rw [List.filter_cons_of_pos hp, ladder_cons, ladder_cons, hRest]
    | false =>
      rw [List.filter_cons_of_neg (by simp [hp]), hRest, ladder_cons,
        h a (List.mem_cons_self ..) hp, Finsupp.single_zero, zero_add]

/-- The prices in `D` are those of some of the items. -/
theorem filter_ladder (D : π → Prop) [DecidablePred D] :
    (ladder price f as).filter D = ladder price f (as.filter fun a => D (price a)) := by
  induction as with
  | nil => exact Finsupp.filter_zero D
  | cons a as ih =>
    rw [ladder_cons, Finsupp.filter_add, ih]
    by_cases hIn : D (price a)
    · rw [Finsupp.filter_single_of_pos _ hIn, List.filter_cons_of_pos (by simpa using hIn),
        ladder_cons]
    · rw [Finsupp.filter_single_of_neg _ hIn, List.filter_cons_of_neg (by simpa using hIn),
        zero_add]

theorem within_add (d d' : π →₀ Int) : within D (d + d') = within D d + within D d' := by
  refine Finsupp.sum_add_index' ?_ ?_
  · intro p
    exact ite_self 0
  · intro p n n'
    split
    · rfl
    · rfl

/-- Within a set of prices, a ladder holds the amounts at those prices. -/
theorem within_ladder : within D (ladder price f as) = sumOn (fun a => D (price a)) f as := by
  induction as with
  | nil => exact Finsupp.sum_zero_index
  | cons a as ih =>
    have hOwn : within D (Finsupp.single (price a) (f a)) = if D (price a) then f a else 0 :=
      Finsupp.sum_single_index (ite_self 0)
    rw [ladder_cons, within_add, ih, hOwn]
    rfl

/-- At a price, a ladder holds the amounts at that price. -/
theorem ladder_apply [DecidableEq π] (p : π) :
    ladder price f as p = sumOn (fun a => price a = p) f as := by
  induction as with
  | nil => rfl
  | cons a as ih =>
    rw [ladder_cons, Finsupp.add_apply, ih, Finsupp.single_apply]
    rfl

/-- The whole ladder. -/
theorem sum_ladder : ((ladder price f as).sum fun _ n => n) = (as.map f).sum := by
  have hAll : within (fun _ => True) (ladder price f as) = sumOn (fun _ => True) f as :=
    within_ladder
  simpa [within, sumOn] using hAll

/-- Only the prices of the set matter. -/
theorem within_congr {d d' : π →₀ Int} (h : ∀ p, D p → d' p = d p) : within D d' = within D d := by
  classical
  let part : π → Int → Int := fun p n => if D p then n else 0
  have hZero : ∀ p ∈ d.support ∪ d'.support, part p 0 = 0 := fun p _ => ite_self 0
  refine (Finsupp.sum_of_support_subset d' Finset.subset_union_right part hZero).trans ?_
  refine Eq.trans ?_ (Finsupp.sum_of_support_subset d Finset.subset_union_left part hZero).symm
  refine Finset.sum_congr rfl ?_
  intro p _
  show (if D p then d' p else 0) = if D p then d p else 0
  split
  next hIn => exact h p hIn
  next => rfl

end Parts

-- ---------------------------------------------------------------------------
-- Sweeping a ladder
-- ---------------------------------------------------------------------------

section Sweep

variable [LinearOrder ι] {lev : π → ι}

/-- What a quantity takes at each price, lower levels first. -/
noncomputable def sweep (lev : π → ι) (d : π →₀ Int) (q : Int) : π →₀ Int :=
  Finsupp.onFinset d.support
    (fun p => if d p = 0 then 0 else
      min q (within (fun p' => lev p' ≤ lev p) d) - min q (within (fun p' => lev p' < lev p) d))
    fun p hp => by
      rw [Finsupp.mem_support_iff]
      intro hNone
      exact hp (if_pos hNone)

/-- Up to a price is below the price and at it. -/
theorem within_le_level (hInj : Function.Injective lev) (d : π →₀ Int) (p : π) :
    within (fun p' => lev p' ≤ lev p) d = within (fun p' => lev p' < lev p) d + d p := by
  classical
  have hOwn : d p = d.sum fun p' n => if p' = p then n else 0 := by
    rw [Finsupp.sum_ite_self_eq' d p]
  rw [within, within, hOwn, ← Finsupp.sum_add]
  refine Finsupp.sum_congr ?_
  intro p' _
  rcases lt_trichotomy (lev p') (lev p) with hLess | hEq | hMore
  · have hne : p' ≠ p := by
      rintro rfl
      exact lt_irrefl _ hLess
    simp [hLess, hLess.le, hne]
  · simp [hInj hEq]
  · have hne : p' ≠ p := by
      rintro rfl
      exact lt_irrefl _ hMore
    simp [hMore.not_ge, hMore.not_gt, hne]

/-- A sweep takes at a price what it takes up to the price and not below it. -/
theorem sweep_apply (hInj : Function.Injective lev) (d : π →₀ Int) (q : Int) (p : π) :
    sweep lev d q p = min q (within (fun p' => lev p' ≤ lev p) d) -
      min q (within (fun p' => lev p' < lev p) d) := by
  rw [sweep, Finsupp.onFinset_apply]
  split
  next hNone =>
    rw [within_le_level hInj, hNone, add_zero, sub_self]
  next => rfl

/-- **What an allocation takes at each price** is what a sweep takes. -/
theorem BestFirst.ladder_eq {price : α → π} {cap f : α → Int} {as : List α} {q : Int}
    (h : BestFirst cap (fun a b => lev (price a) < lev (price b)) as q f)
    (hInj : Function.Injective lev) :
    ladder price f as = sweep lev (ladder price cap as) q := by
  classical
  ext p
  have hUpTo := h.sumOn_closed (D := fun a => lev (price a) ≤ lev p)
    fun a _ b _ ha hb => ha.trans_lt (not_le.mp hb)
  have hBelow := h.sumOn_closed (D := fun a => lev (price a) < lev p)
    fun a _ b _ ha hb => ha.trans_le (not_lt.mp hb)
  have hLevel : sumOn (fun a => lev (price a) ≤ lev p) f as =
      sumOn (fun a => lev (price a) < lev p) f as + sumOn (fun a => lev (price a) = lev p) f as :=
    sumOn_le_level f as (lev p)
  have hOwn : sumOn (fun a => price a = p) f as = sumOn (fun a => lev (price a) = lev p) f as :=
    sumOn_iff fun a _ => hInj.eq_iff.symm
  rw [ladder_apply, sweep_apply hInj, within_ladder, within_ladder, hOwn]
  omega

/-- **A larger quantity takes no less anywhere**, also from a ladder that goes on where the
other one ends. -/
theorem sweep_mono (hInj : Function.Injective lev) {d d' : π →₀ Int} {q q' : Int} (hq : q ≤ q')
    (hNonneg : ∀ p, 0 ≤ d' p) (hSame : ∀ p, d p ≠ 0 → ∀ p', lev p' ≤ lev p → d' p' = d p') (p : π) :
    sweep lev d q p ≤ sweep lev d' q' p := by
  have hUpTo := within_le_level hInj d' p
  have hOwn := hNonneg p
  by_cases hNone : d p = 0
  · have hZero : sweep lev d q p = 0 := by
      rw [sweep, Finsupp.onFinset_apply, if_pos hNone]
    rw [hZero, sweep_apply hInj]
    omega
  · have hUpTo' : within (fun p' => lev p' ≤ lev p) d' = within (fun p' => lev p' ≤ lev p) d :=
      within_congr (hSame p hNone)
    have hBelow : within (fun p' => lev p' < lev p) d' = within (fun p' => lev p' < lev p) d :=
      within_congr fun p' hLess => hSame p hNone p' hLess.le
    rw [sweep_apply hInj, sweep_apply hInj, hUpTo', hBelow]
    omega

/-- Prices at which the two ladders agree, with all better ones, get the same. -/
theorem sweep_congr (hInj : Function.Injective lev) {d d' : π →₀ Int} (q : Int) {p : π}
    (hSame : ∀ p', lev p' ≤ lev p → d' p' = d p') : sweep lev d' q p = sweep lev d q p := by
  rw [sweep_apply hInj, sweep_apply hInj, within_congr hSame,
    within_congr fun p' (hLess : lev p' < lev p) => hSame p' hLess.le]

end Sweep

end Greedy
