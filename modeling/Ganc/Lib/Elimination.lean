import Mathlib.Data.Set.Piecewise

/-!
# Elimination of unknowns

A system of equations in unknowns `ι` with values in `α` is the set of its
solutions. `Eliminates S S' X` says that `S'` is what is left of `S` when the
unknowns `X` are solved for and removed: the solutions of `S'` are those of
`S`, with anything at all for the unknowns in `X`, and every one of them comes
from exactly one solution of `S`.

* `eliminates_refl`, `Eliminates.trans` — no step, and one step after another;
* `eliminates_of_definitions` — a system in which the unknowns of `X` are
  defined by the others and do not occur otherwise.
-/

namespace Elimination

variable {ι α : Type*}

/-- Removing the unknowns `X` from the system `S` leaves `S'`. -/
structure Eliminates (S S' : Set (ι → α)) (X : Set ι) : Prop where
  subset : S ⊆ S'
  free : ∀ ⦃v w : ι → α⦄, Set.EqOn v w Xᶜ → v ∈ S' → w ∈ S'
  extend : ∀ ⦃w : ι → α⦄, w ∈ S' → ∃ v ∈ S, Set.EqOn v w Xᶜ
  determined : ∀ ⦃v w : ι → α⦄, v ∈ S → w ∈ S → Set.EqOn v w Xᶜ → v = w

variable {S S' S'' : Set (ι → α)} {X Y : Set ι}

/-- Nothing is eliminated from a set to itself. -/
theorem eliminates_refl (S : Set (ι → α)) : Eliminates S S ∅ := by
  have hEq : ∀ {v w : ι → α}, Set.EqOn v w ∅ᶜ → v = w :=
    fun hOff => funext fun x => hOff (Set.notMem_empty x)
  exact ⟨subset_rfl, fun _ _ hOff hv => hEq hOff ▸ hv, fun w hw => ⟨w, hw, fun _ _ => rfl⟩,
    fun _ _ _ _ hOff => hEq hOff⟩

/-- Every solution of what is left comes from one solution of the system, and only one. -/
theorem Eliminates.existsUnique (h : Eliminates S S' X) {w : ι → α} (hw : w ∈ S') :
    ∃! v, v ∈ S ∧ Set.EqOn v w Xᶜ := by
  obtain ⟨v, hv, hOff⟩ := h.extend hw
  refine ⟨v, ⟨hv, hOff⟩, ?_⟩
  rintro v' ⟨hv', hOff'⟩
  exact h.determined hv' hv (hOff'.trans hOff.symm)

/-- Eliminations one after the other eliminate both sets of variables. -/
theorem Eliminates.trans (h : Eliminates S S' X) (h' : Eliminates S' S'' Y) :
    Eliminates S S'' (X ∪ Y) := by
  classical
  have hLeft : ∀ {v w : ι → α}, Set.EqOn v w Xᶜ → Set.EqOn v w (X ∪ Y)ᶜ :=
    fun hOff => hOff.mono (Set.compl_subset_compl.mpr Set.subset_union_left)
  have hRight : ∀ {v w : ι → α}, Set.EqOn v w Yᶜ → Set.EqOn v w (X ∪ Y)ᶜ :=
    fun hOff => hOff.mono (Set.compl_subset_compl.mpr Set.subset_union_right)
  -- between two assignments that differ in `X ∪ Y`: one that differs from each in one of them
  have hMiddle : ∀ {v w : ι → α}, Set.EqOn v w (X ∪ Y)ᶜ →
      Set.EqOn v (X.piecewise w v) Xᶜ ∧ Set.EqOn (X.piecewise w v) w Yᶜ := by
    intro v w hOff
    refine ⟨fun x hx => (Set.piecewise_eq_of_notMem X w v hx).symm, ?_⟩
    intro x hx
    by_cases hX : x ∈ X
    · exact Set.piecewise_eq_of_mem X w v hX
    · rw [Set.piecewise_eq_of_notMem X w v hX]
      exact hOff fun hUnion => hUnion.elim hX hx
  refine ⟨h.subset.trans h'.subset, ?_, ?_, ?_⟩
  · intro v w hOff hv
    obtain ⟨u, hu, huv⟩ := h'.extend hv
    obtain ⟨hX, hY⟩ := hMiddle ((hRight huv).trans hOff)
    exact h'.free hY (h'.subset (h.free hX hu))
  · intro w hw
    obtain ⟨u, hu, huw⟩ := h'.extend hw
    obtain ⟨v, hv, hvu⟩ := h.extend hu
    exact ⟨v, hv, (hLeft hvu).trans (hRight huw)⟩
  · intro v w hv hw hOff
    obtain ⟨hX, hY⟩ := hMiddle hOff
    rw [h'.determined (h.free hX (h.subset hv)) (h.subset hw) hY] at hX
    exact h.determined hv hw hX

/-- The unknowns of `X` are given by the others and occur nowhere else. -/
theorem eliminates_of_definitions {g : ι → (ι → α) → α}
    (hS : ∀ w, w ∈ S ↔ w ∈ S' ∧ ∀ x ∈ X, w x = g x w)
    (hFree : ∀ ⦃v w : ι → α⦄, Set.EqOn v w Xᶜ → v ∈ S' → w ∈ S')
    (hOthers : ∀ x ∈ X, ∀ ⦃v w : ι → α⦄, Set.EqOn v w Xᶜ → g x v = g x w) :
    Eliminates S S' X := by
  classical
  refine ⟨fun w hw => ((hS w).mp hw).1, hFree, ?_, ?_⟩
  · intro w hw
    have hOff : Set.EqOn w (X.piecewise (fun x => g x w) w) Xᶜ :=
      fun x hx => (Set.piecewise_eq_of_notMem X _ w hx).symm
    refine ⟨X.piecewise (fun x => g x w) w, (hS _).mpr ⟨hFree hOff hw, ?_⟩, hOff.symm⟩
    intro x hx
    rw [Set.piecewise_eq_of_mem X _ _ hx]
    exact hOthers x hx hOff
  · intro v w hv hw hOff
    funext x
    by_cases hX : x ∈ X
    · rw [((hS v).mp hv).2 x hX, ((hS w).mp hw).2 x hX]
      exact hOthers x hX hOff
    · exact hOff hX

end Elimination
