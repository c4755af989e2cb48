import Mathlib.Data.List.Forall2
import Mathlib.Order.Filter.AtTopBot.Basic

/-!
# Loops with fuel

A loop without a bound is a function of the fuel it may use: `none` if it runs
out, and then also if it fails. `Settles f a` says that the loop ends, and
with `a`: from some amount of fuel on the result is `a`, whatever is added.

* `settles_succ` — one round of the loop;
* `Settles.bind` — one loop after another;
* `exists_settles_foldlM` — a loop in every step of a fold, with an invariant
  of the state and of the items that are left; `exists_foldlM` without loops;
* `exists_settles_mapM` — a loop for every item of a list; `exists_mapM`
  without loops.
-/

namespace Fuel

variable {α β σ ι : Type*}

/-- With enough fuel the result is `a`. -/
def Settles (f : Nat → Option α) (a : α) : Prop := ∀ᶠ fuel in Filter.atTop, f fuel = some a

variable {f g : Nat → Option α} {a b : α}

/-- What does not depend on the fuel settles. -/
theorem settles_of_eq (h : ∀ fuel, f fuel = some a) : Settles f a := Filter.Eventually.of_forall h

theorem Settles.congr (h : Settles f a) (hSame : ∀ fuel, g fuel = f fuel) : Settles g a :=
  h.mono fun fuel hOk => (hSame fuel).trans hOk

/-- A computation settles if both of its parts do. -/
theorem Settles.bind {k : Nat → α → Option β} {c : β} (hf : Settles f a)
    (hk : Settles (fun fuel => k fuel a) c) :
    Settles (fun fuel => (f fuel).bind (k fuel)) c := by
  filter_upwards [hf, hk] with fuel hOk hNext
  rw [hOk, Option.bind_some, hNext]

/-- A round that uses one unit of fuel. -/
theorem settles_succ (hStep : ∀ fuel, f (fuel + 1) = g fuel) (h : Settles g a) : Settles f a := by
  obtain ⟨enough, hEnough⟩ := Filter.eventually_atTop.mp h
  refine Filter.eventually_atTop.mpr ⟨enough + 1, ?_⟩
  intro fuel hLe
  obtain ⟨rest, rfl⟩ : ∃ rest, fuel = rest + 1 := ⟨fuel - 1, by omega⟩
  rw [hStep, hEnough rest (by omega)]

/-- A computation settles at one value only. -/
theorem Settles.unique (h : Settles f a) (h' : Settles f b) : a = b := by
  obtain ⟨fuel, hOk, hOk'⟩ := (h.and h').exists
  exact Option.some.inj (hOk.symm.trans hOk')

/-- A fold whose steps are loops. -/
theorem exists_settles_foldlM (step : Nat → σ → ι → Option σ) (Inv : σ → List ι → Prop)
    (s : σ) (items : List ι)
    (hStep : ∀ s x rest, Inv s (x :: rest) →
      ∃ s', Settles (fun fuel => step fuel s x) s' ∧ Inv s' rest)
    (hInv : Inv s items) :
    ∃ s', Settles (fun fuel => items.foldlM (step fuel) s) s' ∧ Inv s' [] := by
  induction items generalizing s with
  | nil => exact ⟨s, settles_of_eq fun _ => rfl, hInv⟩
  | cons x rest ih =>
    obtain ⟨s₁, hFirst, hInv₁⟩ := hStep s x rest hInv
    obtain ⟨s₂, hRest, hInv₂⟩ := ih s₁ hInv₁
    exact ⟨s₂, (hFirst.bind hRest).congr fun _ => List.foldlM_cons .., hInv₂⟩

/-- The same without loops. -/
theorem exists_foldlM (step : σ → ι → Option σ) (Inv : σ → List ι → Prop)
    (s : σ) (items : List ι)
    (hStep : ∀ s x rest, Inv s (x :: rest) → ∃ s', step s x = some s' ∧ Inv s' rest)
    (hInv : Inv s items) :
    ∃ s', items.foldlM step s = some s' ∧ Inv s' [] := by
  induction items generalizing s with
  | nil => exact ⟨s, rfl, hInv⟩
  | cons x rest ih =>
    obtain ⟨s₁, hFirst, hInv₁⟩ := hStep s x rest hInv
    obtain ⟨s₂, hRest, hInv₂⟩ := ih s₁ hInv₁
    refine ⟨s₂, ?_, hInv₂⟩
    rw [List.foldlM_cons, hFirst, Option.bind_eq_bind, Option.bind_some, hRest]

/-- A loop for every item. -/
theorem exists_settles_mapM (step : Nat → ι → Option β) (R : ι → β → Prop) (items : List ι)
    (hStep : ∀ x ∈ items, ∃ y, Settles (fun fuel => step fuel x) y ∧ R x y) :
    ∃ ys, Settles (fun fuel => items.mapM (step fuel)) ys ∧ List.Forall₂ R items ys := by
  induction items with
  | nil => exact ⟨[], settles_of_eq fun _ => rfl, .nil⟩
  | cons x rest ih =>
    rw [List.forall_mem_cons] at hStep
    obtain ⟨y, hFirst, hy⟩ := hStep.1
    obtain ⟨ys, hRest, hys⟩ := ih hStep.2
    have hTail : Settles (fun fuel => (rest.mapM (step fuel)).bind fun ys => some (y :: ys))
        (y :: ys) := hRest.bind (settles_of_eq fun _ => rfl)
    exact ⟨y :: ys, (hFirst.bind hTail).congr fun _ => List.mapM_cons .., .cons hy hys⟩

/-- The same without loops. -/
theorem exists_mapM (step : ι → Option β) (R : ι → β → Prop) (items : List ι)
    (hStep : ∀ x ∈ items, ∃ y, step x = some y ∧ R x y) :
    ∃ ys, items.mapM step = some ys ∧ List.Forall₂ R items ys := by
  induction items with
  | nil => exact ⟨[], rfl, .nil⟩
  | cons x rest ih =>
    rw [List.forall_mem_cons] at hStep
    obtain ⟨y, hFirst, hy⟩ := hStep.1
    obtain ⟨ys, hRest, hys⟩ := ih hStep.2
    refine ⟨y :: ys, ?_, .cons hy hys⟩
    rw [List.mapM_cons, hFirst, hRest]
    rfl

/-- Every item of a related list has its result. -/
theorem exists_result {R : ι → β → Prop} {items : List ι} {ys : List β}
    (h : List.Forall₂ R items ys) {x : ι} (hx : x ∈ items) : ∃ y ∈ ys, R x y := by
  induction h with
  | nil => exact absurd hx List.not_mem_nil
  | cons hFirst _ ih =>
    rcases List.mem_cons.mp hx with rfl | hx
    · exact ⟨_, List.mem_cons_self, hFirst⟩
    · obtain ⟨y, hy, hR⟩ := ih hx
      exact ⟨y, List.mem_cons_of_mem _ hy, hR⟩

/-- Every result of a related list has its item. -/
theorem exists_item {R : ι → β → Prop} {items : List ι} {ys : List β}
    (h : List.Forall₂ R items ys) {y : β} (hy : y ∈ ys) : ∃ x ∈ items, R x y :=
  exists_result (R := flip R) h.flip hy

/-- One result may be replaced by another that is related to the same item. -/
theorem forall₂_set {R : ι → β → Prop} {items : List ι} {ys : List β}
    (h : List.Forall₂ R items ys) {i : Nat} {y : β} (hR : ∀ x, items[i]? = some x → R x y) :
    List.Forall₂ R items (ys.set i y) := by
  induction h generalizing i with
  | nil => exact .nil
  | cons hFirst hRest ih =>
    cases i with
    | zero => exact .cons (hR _ rfl) hRest
    | succ i => exact .cons hFirst (ih hR)

theorem forall₂_getElem? {R : ι → β → Prop} {items : List ι} {ys : List β}
    (h : List.Forall₂ R items ys) {i : Nat} {x : ι} {y : β} (hx : items[i]? = some x)
    (hy : ys[i]? = some y) : R x y := by
  induction h generalizing i with
  | nil => cases hx
  | cons hFirst _ ih =>
    cases i with
    | zero => exact Option.some.inj hx ▸ Option.some.inj hy ▸ hFirst
    | succ i => exact ih hx hy

/-- Relations between lists compose position by position. -/
theorem forall₂_comp {γ : Type*} {R : ι → β → Prop} {S : β → γ → Prop} {items : List ι}
    {ys : List β} {zs : List γ} (h : List.Forall₂ R items ys) (h' : List.Forall₂ S ys zs) :
    List.Forall₂ (Relation.Comp R S) items zs := by
  induction h generalizing zs with
  | nil =>
    cases h'
    exact .nil
  | cons hFirst _ ih =>
    cases h' with
    | cons hFirst' hRest' => exact .cons ⟨_, hFirst, hFirst'⟩ (ih hRest')

end Fuel
