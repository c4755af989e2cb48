import Mathlib.Algebra.BigOperators.Finsupp.Basic
import Mathlib.Algebra.BigOperators.Group.List.Basic
import Mathlib.Algebra.Order.BigOperators.Group.List
import Mathlib.Algebra.Order.Ring.Int
import Mathlib.Data.List.Nodup
import Mathlib.Data.List.Pairwise

/-!
# Greedy allocation

A quantity is handed out to items with capacities. `BestFirst` says what an
allocation has to satisfy to be the best one: as much as possible is handed out,
an item gets something only when every better item is full, and at most one item
is cut short. `serve` hands out along a list, each item as much as it takes, and
is best-first whenever no item of the list comes after a worse one
(`bestFirst_serve`), whatever the order of equal items is.

Which of several equal items get something is not determined, but how much the
items of one level get is: a quantity that is handed out in two parts, the second
one to what the first one has left, leaves the same at every level
(`BestFirst.level_split`).
-/

namespace Greedy

variable {α : Type*} {cap : α → Int} {as : List α} {q : Int}

/-- `f` hands `q` out to the items, better ones first. -/
structure BestFirst (cap : α → Int) (better : α → α → Prop) (as : List α) (q : Int)
    (f : α → Int) : Prop where
  bounds : ∀ a ∈ as, 0 ≤ f a ∧ f a ≤ cap a
  total : (as.map f).sum = min q (as.map cap).sum
  best : ∀ a ∈ as, ∀ b ∈ as, better b a → 0 < f a → f b = cap b
  single : ∀ a ∈ as, ∀ b ∈ as, 0 < f a → f a < cap a → 0 < f b → f b < cap b → a = b

/-- The order of the list does not matter, only what is better than what. -/
theorem BestFirst.perm {better : α → α → Prop} {bs : List α} {f : α → Int}
    (h : BestFirst cap better as q f) (hPerm : as.Perm bs) : BestFirst cap better bs q f where
  bounds a ha := h.bounds a (hPerm.mem_iff.mpr ha)
  total := by rw [← (hPerm.map f).sum_eq, ← (hPerm.map cap).sum_eq, h.total]
  best a ha b hb := h.best a (hPerm.mem_iff.mpr ha) b (hPerm.mem_iff.mpr hb)
  single a ha b hb := h.single a (hPerm.mem_iff.mpr ha) b (hPerm.mem_iff.mpr hb)

/-- Capacities and the order matter on the list only. -/
theorem BestFirst.congr {cap' : α → Int} {better better' : α → α → Prop} {f : α → Int}
    (h : BestFirst cap better as q f) (hCap : ∀ a ∈ as, cap' a = cap a)
    (hBetter : ∀ a ∈ as, ∀ b ∈ as, better' b a → better b a) : BestFirst cap' better' as q f where
  bounds a ha := by
    rw [hCap a ha]
    exact h.bounds a ha
  total := by rw [h.total, List.map_congr_left hCap]
  best a ha b hb hLess := by
    rw [hCap b hb]
    exact h.best a ha b hb (hBetter a ha b hb hLess)
  single a ha b hb := by
    rw [hCap a ha, hCap b hb]
    exact h.single a ha b hb

/-- When there is enough for all, every item gets all it can take. -/
theorem BestFirst.full {better : α → α → Prop} {f : α → Int} (h : BestFirst cap better as q f)
    (hEnough : (as.map cap).sum ≤ q) {a : α} (ha : a ∈ as) : f a = cap a := by
  have hSum : (as.map cap).sum = (as.map f).sum + (as.map fun b => cap b - f b).sum := by
    rw [← List.sum_map_add]
    exact congrArg List.sum (List.map_congr_left fun b _ => by omega)
  have hTotal := h.total
  have hZero : (as.map fun b => cap b - f b).sum = 0 := by omega
  have hNonneg : ∀ x ∈ as.map fun b => cap b - f b, 0 ≤ x := by
    intro x hx
    obtain ⟨b, hb, rfl⟩ := List.mem_map.mp hx
    have hBounds := h.bounds b hb
    omega
  have hNone := List.all_zero_of_le_zero_le_of_sum_eq_zero hNonneg hZero
    (List.mem_map_of_mem (f := fun b => cap b - f b) ha)
  omega

-- ---------------------------------------------------------------------------
-- The amounts of some of the items
-- ---------------------------------------------------------------------------

/-- What the items in `D` have together. -/
def sumOn (D : α → Prop) [DecidablePred D] (f : α → Int) (as : List α) : Int :=
  (as.map fun a => if D a then f a else 0).sum

section SumOn

variable {D : α → Prop} [DecidablePred D] {f g : α → Int} {bs : List α}

theorem sumOn_perm (h : as.Perm bs) : sumOn D f as = sumOn D f bs :=
  (h.map _).sum_eq

theorem sumOn_append (as bs : List α) : sumOn D f (as ++ bs) = sumOn D f as + sumOn D f bs := by
  rw [sumOn, List.map_append, List.sum_append, sumOn, sumOn]

theorem sumOn_congr (h : ∀ a ∈ as, D a → f a = g a) : sumOn D f as = sumOn D g as := by
  refine congrArg List.sum (List.map_congr_left ?_)
  intro a ha
  split
  next hIn => exact h a ha hIn
  next => rfl

/-- The sum depends on which of the elements satisfy the predicate only. -/
theorem sumOn_iff {E : α → Prop} [DecidablePred E] (h : ∀ a ∈ as, D a ↔ E a) :
    sumOn D f as = sumOn E f as := by
  refine congrArg List.sum (List.map_congr_left ?_)
  intro a ha
  exact if_congr (h a ha) rfl rfl

theorem sumOn_mono (h : ∀ a ∈ as, f a ≤ g a) : sumOn D f as ≤ sumOn D g as := by
  refine List.sum_le_sum ?_
  intro a ha
  split
  next => exact h a ha
  next => exact le_refl 0

theorem sumOn_zero (h : ∀ a ∈ as, D a → f a = 0) : sumOn D f as = 0 := by
  rw [sumOn_congr h]
  simp [sumOn]

theorem sumOn_nonneg (h : ∀ a ∈ as, 0 ≤ f a) : 0 ≤ sumOn D f as := by
  rw [← sumOn_zero (D := D) (f := fun _ => 0) fun _ (_ : _ ∈ as) _ => rfl]
  exact sumOn_mono h

/-- The sum of differences is the difference of the sums. -/
theorem sumOn_sub : sumOn D (fun a => f a - g a) as = sumOn D f as - sumOn D g as := by
  have hSum : sumOn D f as = sumOn D (fun a => f a - g a) as + sumOn D g as := by
    rw [sumOn, sumOn, sumOn, ← List.sum_map_add]
    refine congrArg List.sum (List.map_congr_left ?_)
    intro a _
    split <;> omega
  omega

/-- The items in `D`, and the others. -/
theorem sum_eq_sumOn (D : α → Prop) [DecidablePred D] (f : α → Int) (as : List α) :
    (as.map f).sum = sumOn D f as + sumOn (fun a => ¬ D a) f as := by
  rw [sumOn, sumOn, ← List.sum_map_add]
  refine congrArg List.sum (List.map_congr_left ?_)
  intro a _
  by_cases hIn : D a <;> simp [hIn]

/-- Items without anything can be left out. -/
theorem sumOn_filter {p : α → Bool} (h : ∀ a ∈ as, p a = false → f a = 0) :
    sumOn D f (as.filter p) = sumOn D f as := by
  induction as with
  | nil => rfl
  | cons a as ih =>
    have hRest := ih fun b hb => h b (List.mem_cons_of_mem _ hb)
    cases hp : p a with
    | true =>
      rw [List.filter_cons_of_pos hp]
      simp only [sumOn, List.map_cons, List.sum_cons] at hRest ⊢
      rw [hRest]
    | false =>
      rw [List.filter_cons_of_neg (by simp [hp]), hRest]
      simp [sumOn, h a (List.mem_cons_self ..) hp]

end SumOn

/-- **The better items come first.** When every item in `D` is better than every other,
the items in `D` get what there is, up to what they can take. -/
theorem BestFirst.sumOn_closed {better : α → α → Prop} {f : α → Int} {D : α → Prop}
    [DecidablePred D] (h : BestFirst cap better as q f)
    (hD : ∀ a ∈ as, ∀ b ∈ as, D a → ¬ D b → better a b) :
    sumOn D f as = min q (sumOn D cap as) := by
  have hTotal := h.total
  rw [sum_eq_sumOn D f, sum_eq_sumOn D cap] at hTotal
  have hLow : 0 ≤ sumOn (fun a => ¬ D a) f as := sumOn_nonneg fun a ha => (h.bounds a ha).1
  have hHigh : sumOn D f as ≤ sumOn D cap as := sumOn_mono fun a ha => (h.bounds a ha).2
  have hHigh' : sumOn (fun a => ¬ D a) f as ≤ sumOn (fun a => ¬ D a) cap as :=
    sumOn_mono fun a ha => (h.bounds a ha).2
  by_cases hOther : ∃ b ∈ as, ¬ D b ∧ 0 < f b
  · -- something is left for the others, so the items in `D` are full
    obtain ⟨b, hb, hNot, hServed⟩ := hOther
    have hFull : sumOn D f as = sumOn D cap as :=
      sumOn_congr fun a ha hIn => h.best b hb a ha (hD a ha b hb hIn hNot) hServed
    omega
  · have hNone : sumOn (fun a => ¬ D a) f as = 0 := by
      refine sumOn_zero ?_
      intro b hb hNot
      have hLow := (h.bounds b hb).1
      by_contra hne
      exact hOther ⟨b, hb, hNot, by omega⟩
    omega

-- ---------------------------------------------------------------------------
-- Levels
-- ---------------------------------------------------------------------------

section Levels

variable {ι : Type*} [LinearOrder ι] {lev : α → ι} {bs : List α} {q₁ q₂ : Int}
variable {f f₁ f₂ : α → Int}

/-- Up to a level is below the level and at it. -/
theorem sumOn_le_level (f : α → Int) (as : List α) (x : ι) :
    sumOn (fun a => lev a ≤ x) f as =
      sumOn (fun a => lev a < x) f as + sumOn (fun a => lev a = x) f as := by
  rw [sumOn, sumOn, sumOn, ← List.sum_map_add]
  refine congrArg List.sum (List.map_congr_left ?_)
  intro a _
  rcases lt_trichotomy (lev a) x with hLess | hEq | hMore
  · simp [hLess, hLess.le, hLess.ne]
  · simp [hEq]
  · simp [hMore.not_ge, hMore.not_gt, hMore.ne']

/-- **Handing out in two parts.** What is handed out at once, and what is handed out in
two parts, `bs` being the items the first part leaves, is the same on every set of items
that holds with an item the ones of its level and of better levels. -/
theorem BestFirst.sumOn_split {D : α → Prop} [DecidablePred D]
    (h : BestFirst cap (fun a b => lev a < lev b) as (q₁ + q₂) f)
    (h₁ : BestFirst cap (fun a b => lev a < lev b) as q₁ f₁)
    (h₂ : BestFirst (fun a => cap a - f₁ a) (fun a b => lev a < lev b) bs q₂ f₂)
    (hLeft : bs.Perm (as.filter fun a => f₁ a ≠ cap a)) (hq₂ : 0 ≤ q₂)
    (hD : ∀ a b, lev a ≤ lev b → D b → D a) :
    sumOn D f as = sumOn D f₁ as + sumOn D f₂ bs := by
  have hClosed : ∀ a b, D a → ¬ D b → lev a < lev b := by
    intro a b ha hb
    by_contra hNot
    exact hb (hD b a (not_lt.mp hNot) ha)
  have hOnce := h.sumOn_closed (D := D) fun a _ b _ => hClosed a b
  have hFirst := h₁.sumOn_closed (D := D) fun a _ b _ => hClosed a b
  have hSecond := h₂.sumOn_closed (D := D) fun a _ b _ => hClosed a b
  have hCap : sumOn D (fun a => cap a - f₁ a) bs = sumOn D cap as - sumOn D f₁ as := by
    rw [sumOn_perm hLeft, sumOn_filter, sumOn_sub]
    intro a _ hFull
    have hEq : f₁ a = cap a := by simpa using hFull
    omega
  have hNonneg : 0 ≤ sumOn D cap as :=
    sumOn_nonneg fun a ha => (h₁.bounds a ha).1.trans (h₁.bounds a ha).2
  omega

/-- Two services one after the other give each level what one service gives it. -/
theorem BestFirst.level_split
    (h : BestFirst cap (fun a b => lev a < lev b) as (q₁ + q₂) f)
    (h₁ : BestFirst cap (fun a b => lev a < lev b) as q₁ f₁)
    (h₂ : BestFirst (fun a => cap a - f₁ a) (fun a b => lev a < lev b) bs q₂ f₂)
    (hLeft : bs.Perm (as.filter fun a => f₁ a ≠ cap a)) (hq₂ : 0 ≤ q₂) (x : ι) :
    sumOn (fun a => lev a = x) f as =
      sumOn (fun a => lev a = x) f₁ as + sumOn (fun a => lev a = x) f₂ bs := by
  have hUpTo := h.sumOn_split h₁ h₂ hLeft hq₂ (D := fun a => lev a ≤ x)
    fun a b hab hb => hab.trans hb
  have hBelow := h.sumOn_split h₁ h₂ hLeft hq₂ (D := fun a => lev a < x)
    fun a b hab hb => hab.trans_lt hb
  simp only [sumOn_le_level] at hUpTo
  omega

end Levels

section Worth

variable {β ι : Type*} {lev : α → ι} {f : α → Int}

/-- The amounts of a list by their levels. -/
noncomputable def byLevel (lev : α → ι) (f : α → Int) (as : List α) : ι →₀ Int :=
  (as.map fun a => Finsupp.single (lev a) (f a)).sum

/-- The table of levels holds the sum over each level. -/
theorem byLevel_apply [DecidableEq ι] (as : List α) (x : ι) :
    byLevel lev f as x = sumOn (fun a => lev a = x) f as := by
  have hMap : Finsupp.applyAddHom x (byLevel lev f as) = _ := map_list_sum _ _
  rw [List.map_map] at hMap
  refine hMap.trans (congrArg List.sum (List.map_congr_left ?_))
  intro a _
  exact Finsupp.single_apply

/-- The worth of the amounts depends on the levels alone. -/
theorem sum_mul_eq_byLevel (w : ι → Int) (as : List α) :
    (as.map fun a => f a * w (lev a)).sum =
      Finsupp.liftAddHom (fun x => AddMonoidHom.mulRight (w x)) (byLevel lev f as) := by
  rw [byLevel, map_list_sum, List.map_map]
  refine congrArg List.sum (List.map_congr_left ?_)
  intro a _
  show f a * w (lev a) = Finsupp.liftAddHom _ (Finsupp.single (lev a) (f a))
  rw [Finsupp.liftAddHom_apply_single, AddMonoidHom.coe_mulRight]

/-- Amounts that are the same at every level have the same sum, whatever a level is worth. -/
theorem sum_mul_eq_of_levels [DecidableEq ι] {lev' : β → ι} {g : β → Int} {as : List α}
    {bs : List β}
    (h : ∀ x, sumOn (fun a => lev a = x) f as = sumOn (fun b => lev' b = x) g bs) (w : ι → Int) :
    (as.map fun a => f a * w (lev a)).sum = (bs.map fun b => g b * w (lev' b)).sum := by
  have hSame : byLevel lev f as = byLevel lev' g bs :=
    Finsupp.ext fun x => by rw [byLevel_apply, byLevel_apply, h]
  rw [sum_mul_eq_byLevel, sum_mul_eq_byLevel, hSame]

end Worth

-- ---------------------------------------------------------------------------
-- Handing out along a list
-- ---------------------------------------------------------------------------

variable [DecidableEq α]

/-- What an item gets when `q` is handed out along the list. -/
def serve (cap : α → Int) : Int → List α → α → Int
  | _, [], _ => 0
  | q, a :: as, b => if b = a then min q (cap a) else serve cap (q - min q (cap a)) as b

/-- The first takes what it can. -/
theorem serve_head (q : Int) (a : α) (as : List α) : serve cap q (a :: as) a = min q (cap a) :=
  if_pos rfl

/-- The others are served with what the first leaves. -/
theorem serve_tail {a b : α} (q : Int) (as : List α) (hne : b ≠ a) :
    serve cap q (a :: as) b = serve cap (q - min q (cap a)) as b :=
  if_neg hne

/-- Nobody is served more than it can take. -/
theorem serve_bounds (hq : 0 ≤ q) (hCap : ∀ a ∈ as, 0 ≤ cap a) :
    ∀ a ∈ as, 0 ≤ serve cap q as a ∧ serve cap q as a ≤ cap a := by
  induction as generalizing q with
  | nil =>
    intro a ha
    cases ha
  | cons a as ih =>
    have hHead := hCap a (List.mem_cons_self ..)
    intro b hb
    by_cases hEq : b = a
    · subst hEq
      rw [serve_head]
      omega
    · rw [serve_tail _ _ hEq]
      exact ih (by omega) (fun c hc => hCap c (List.mem_cons_of_mem _ hc)) b
        ((List.mem_cons.mp hb).resolve_left hEq)

/-- Nothing is left to hand out. -/
theorem serve_zero (hCap : ∀ a ∈ as, 0 ≤ cap a) : ∀ a ∈ as, serve cap 0 as a = 0 := by
  induction as with
  | nil =>
    intro a ha
    cases ha
  | cons a as ih =>
    have hHead := hCap a (List.mem_cons_self ..)
    have hMin : min 0 (cap a) = 0 := by omega
    intro b hb
    by_cases hEq : b = a
    · rw [hEq, serve_head, hMin]
    · rw [serve_tail _ _ hEq, hMin, sub_zero]
      exact ih (fun c hc => hCap c (List.mem_cons_of_mem _ hc)) b
        ((List.mem_cons.mp hb).resolve_left hEq)

/-- The rest of the list shares what the first item leaves. -/
theorem map_serve_tail {a : α} (hNotMem : a ∉ as) (q : Int) :
    as.map (serve cap q (a :: as)) = as.map (serve cap (q - min q (cap a)) as) := by
  refine List.map_congr_left ?_
  intro b hb
  refine serve_tail q as ?_
  rintro rfl
  exact hNotMem hb

/-- In all, either everything is handed out or everybody is full. -/
theorem sum_serve (hNodup : as.Nodup) (hq : 0 ≤ q) (hCap : ∀ a ∈ as, 0 ≤ cap a) :
    (as.map (serve cap q as)).sum = min q (as.map cap).sum := by
  induction as generalizing q with
  | nil => simp [hq]
  | cons a as ih =>
    obtain ⟨hNotMem, hRest⟩ := List.nodup_cons.mp hNodup
    have hTail : ∀ b ∈ as, 0 ≤ cap b := fun b hb => hCap b (List.mem_cons_of_mem _ hb)
    have hHead := hCap a (List.mem_cons_self ..)
    have hSum : 0 ≤ (as.map cap).sum := by
      refine List.sum_nonneg ?_
      intro x hx
      obtain ⟨b, hb, rfl⟩ := List.mem_map.mp hx
      exact hTail b hb
    have hLeft : 0 ≤ q - min q (cap a) := by omega
    rw [List.map_cons, List.sum_cons, map_serve_tail hNotMem, ih hRest hLeft hTail, serve_head,
      List.map_cons, List.sum_cons]
    omega

/-- An item gets something only when every item before it is full. -/
theorem serve_before (hNodup : as.Nodup) (hq : 0 ≤ q) (hCap : ∀ a ∈ as, 0 ≤ cap a) :
    as.Pairwise fun a b => 0 < serve cap q as b → serve cap q as a = cap a := by
  induction as generalizing q with
  | nil => exact .nil
  | cons a as ih =>
    obtain ⟨hNotMem, hRest⟩ := List.nodup_cons.mp hNodup
    have hTail : ∀ b ∈ as, 0 ≤ cap b := fun b hb => hCap b (List.mem_cons_of_mem _ hb)
    have hHead := hCap a (List.mem_cons_self ..)
    have hne : ∀ b ∈ as, b ≠ a := by
      rintro b hb rfl
      exact hNotMem hb
    refine List.pairwise_cons.mpr ⟨?_, ?_⟩
    · intro b hb hServed
      rw [serve_tail _ _ (hne b hb)] at hServed
      rw [serve_head]
      by_contra hShort
      have hNone : q - min q (cap a) = 0 := by omega
      rw [hNone, serve_zero hTail b hb] at hServed
      exact lt_irrefl _ hServed
    · refine List.Pairwise.imp_of_mem ?_ (ih hRest (by omega : 0 ≤ q - min q (cap a)) hTail)
      intro b c hb hc hBefore
      rw [serve_tail _ _ (hne b hb), serve_tail _ _ (hne c hc)]
      exact hBefore

/-- **Serving a sorted list is best-first.** -/
theorem bestFirst_serve {better : α → α → Prop} (hIrrefl : ∀ a, ¬ better a a)
    (hNodup : as.Nodup) (hSorted : as.Pairwise fun a b => ¬ better b a) (hq : 0 ≤ q)
    (hCap : ∀ a ∈ as, 0 ≤ cap a) : BestFirst cap better as q (serve cap q as) := by
  -- of two items one comes first, and it is full if the other one gets something
  let R : α → α → Prop := fun a b =>
    (¬ better b a ∧ (0 < serve cap q as b → serve cap q as a = cap a)) ∨
    (¬ better a b ∧ (0 < serve cap q as a → serve cap q as b = cap b))
  have : Std.Symm R := ⟨fun _ _ => Or.symm⟩
  have hOrder : as.Pairwise R :=
    (hSorted.and (serve_before hNodup hq hCap)).imp fun h => .inl h
  constructor
  case bounds => exact serve_bounds hq hCap
  case total => exact sum_serve hNodup hq hCap
  case best =>
    intro a ha b hb hBetter hServed
    have hne : a ≠ b := by
      rintro rfl
      exact hIrrefl a hBetter
    rcases hOrder.forall ha hb hne with ⟨hWorse, -⟩ | ⟨-, hFull⟩
    · exact absurd hBetter hWorse
    · exact hFull hServed
  case single =>
    intro a ha b hb hServed hShort hServed' hShort'
    by_contra hne
    rcases hOrder.forall ha hb hne with ⟨-, hFull⟩ | ⟨-, hFull⟩
    · exact absurd (hFull hServed') hShort.ne
    · exact absurd (hFull hServed) hShort'.ne

end Greedy
