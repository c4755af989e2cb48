import Ganc.Circom.AlgebraSpec

/-!
# circom — signals under other numbers

A template's constraints are about names, which become the numbers of a node,
and the signals of a subcircuit are shifted by an offset. Both rename the
symbols of a map without making two of them the same: the value is that of the
old map at the renamed assignment, and the symbols that occur are the renamed
ones.
-/

set_option linter.unusedSectionVars false

namespace Ganc.Circom

namespace Coefficients

section Rename

variable {C K : Type} [Ord C] [Std.TransOrd C] [Std.LawfulEqOrd C] [DecidableEq C] [Inhabited C]
variable [Ord K] [Std.TransOrd K] [Std.LawfulEqOrd K] [DecidableEq K] [Inhabited K]
variable {R : Type} [CommRing R] {h : Coefficients C} {f g : C → K}

theorem nodup_renamed (hInj : Set.InjOn f {symbol | symbol ∈ h}) :
    ((h.toList.map fun entry => (f entry.1, entry.2)).map Prod.fst).Nodup := by
  rw [List.map_map]
  refine List.Nodup.map_on ?_ (Store.nodup_toList h)
  rintro ⟨s, v⟩ hs ⟨s', v'⟩ hs' hEq
  rw [Store.mem_toList] at hs hs'
  obtain rfl := hInj (Store.mem_iff.mpr ⟨v, hs⟩) (Store.mem_iff.mpr ⟨v', hs'⟩) hEq
  obtain rfl := Option.some.inj (hs.symm.trans hs')
  rfl

/-- The coefficient of a new name is that of its old one. -/
theorem get?_rename (hInj : Set.InjOn f {symbol | symbol ∈ h}) {symbol : K} {value : Int} :
    (h.rename f)[symbol]? = some value ↔ ∃ s, f s = symbol ∧ h[s]? = some value := by
  rw [rename]
  constructor
  · intro hStored
    rcases Store.get?_of_insertMany hStored with hIn | ⟨-, hEmpty⟩
    · obtain ⟨entry, hEntry, hEq⟩ := List.mem_map.mp hIn
      rw [Store.mem_toList] at hEntry
      injection hEq with hSymbol hValue
      exact ⟨entry.1, hSymbol, hValue ▸ hEntry⟩
    · simp at hEmpty
  · rintro ⟨s, rfl, hStored⟩
    exact Store.get?_insertMany_of_mem (nodup_renamed hInj)
      (List.mem_map.mpr ⟨(s, value), Store.mem_toList.mpr hStored, rfl⟩)

theorem mem_rename (hInj : Set.InjOn f {symbol | symbol ∈ h}) {symbol : K} :
    symbol ∈ h.rename f ↔ ∃ s, f s = symbol ∧ s ∈ h := by
  simp only [Store.mem_iff, get?_rename hInj]
  exact ⟨fun ⟨v, s, hEq, hStored⟩ => ⟨s, hEq, v, hStored⟩,
    fun ⟨s, hEq, v, hStored⟩ => ⟨v, s, hEq, hStored⟩⟩

/-- The value of a renamed expression takes the values through the names. -/
theorem eval_rename (hInj : Set.InjOn f {symbol | symbol ∈ h}) (w : K → R) :
    (h.rename f).eval w = h.eval (w ∘ f) := by
  rw [eval, rename, Store.total_insertMany_of_fresh _ (nodup_renamed hInj) (by simp),
    Store.total_empty, add_zero, List.map_map]
  rfl

theorem rename_congr (hSame : ∀ s ∈ h, f s = g s) : h.rename f = h.rename g := by
  rw [rename, rename]
  refine congrArg _ (List.map_congr_left ?_)
  intro entry hEntry
  have hIn : entry.1 ∈ h := Store.mem_iff.mpr ⟨entry.2, Store.mem_toList.mp hEntry⟩
  rw [hSame entry.1 hIn]

/-- Zeros may go before or after a renaming. -/
theorem removeZeroValue_rename (hInj : Set.InjOn f {symbol | symbol ∈ h}) :
    (h.rename f).removeZeroValue = h.removeZeroValue.rename f := by
  have hLess : Set.InjOn f {symbol | symbol ∈ h.removeZeroValue} :=
    hInj.mono fun _ hIn => mem_of_mem_removeZeroValue hIn
  refine Std.ExtTreeMap.ext_getElem? fun s => Option.ext fun value => ?_
  rw [get?_removeZeroValue, get?_rename hInj, get?_rename hLess]
  constructor
  · rintro ⟨⟨s', hs', hStored⟩, hne⟩
    exact ⟨s', hs', get?_removeZeroValue.mpr ⟨hStored, hne⟩⟩
  · rintro ⟨s', hs', hStored⟩
    obtain ⟨hOld, hne⟩ := get?_removeZeroValue.mp hStored
    exact ⟨⟨s', hs', hOld⟩, hne⟩

-- ---------------------------------------------------------------------------
-- The numbers of a map
-- ---------------------------------------------------------------------------

variable {map map' : Store C K} {h' : Coefficients K}

/-- What the numbers of the map make of a symbol. -/
def numbered (map : Store C K) (symbol : C) : K :=
  if symbol = constantCoefficient then constantCoefficient else map[symbol]?.getD default

/-- The map knows the symbol, which may also be that of the constant. -/
def Known (map : Store C K) (symbol : C) : Prop := symbol = constantCoefficient ∨ symbol ∈ map

theorem correspond_eq_some {entry : C × Int} {entry' : K × Int} :
    correspond map entry = some entry' ↔
      Known map entry.1 ∧ entry' = (numbered map entry.1, entry.2) := by
  rw [correspond, numbered, Known]
  by_cases hConstant : entry.1 = constantCoefficient
  · rw [if_pos hConstant, if_pos hConstant, Option.some.injEq, eq_comm]
    exact ⟨fun hEq => ⟨.inl hConstant, hEq⟩, fun h => h.2⟩
  · rw [if_neg hConstant, if_neg hConstant, Option.map_eq_some_iff]
    constructor
    · rintro ⟨id, hStored, rfl⟩
      rw [hStored]
      exact ⟨.inr (Store.mem_iff.mpr ⟨id, hStored⟩), rfl⟩
    · rintro ⟨hKnown, rfl⟩
      obtain ⟨id, hStored⟩ := Store.mem_iff.mp (hKnown.resolve_left hConstant)
      exact ⟨id, hStored, by rw [hStored]; rfl⟩

/-- The symbols of a map get their numbers, if all of them are known. -/
theorem applyRawCorrespondence_eq_some :
    h.applyRawCorrespondence map = some h' ↔
      (∀ s ∈ h, Known map s) ∧ h' = h.rename (numbered map) := by
  have hEach : ∀ (entries : List (C × Int)) (entries' : List (K × Int)),
      entries.mapM (correspond map) = some entries' ↔
        (∀ entry ∈ entries, Known map entry.1) ∧
          entries' = entries.map fun entry => (numbered map entry.1, entry.2) := by
    intro entries
    induction entries with
    | nil => simp [eq_comm]
    | cons entry entries ih =>
      intro entries'
      rw [List.mapM_cons, List.forall_mem_cons, List.map_cons]
      simp only [Option.bind_eq_bind, Option.bind_eq_some_iff, correspond_eq_some, ih,
        Option.pure_def, Option.some.injEq]
      constructor
      · rintro ⟨_, ⟨hKnown, rfl⟩, _, ⟨hAll, rfl⟩, rfl⟩
        exact ⟨⟨hKnown, hAll⟩, rfl⟩
      · rintro ⟨⟨hKnown, hAll⟩, rfl⟩
        exact ⟨_, ⟨hKnown, rfl⟩, _, ⟨hAll, rfl⟩, rfl⟩
  have hSymbols : (∀ entry ∈ h.toList, Known map entry.1) ↔ ∀ s ∈ h, Known map s := by
    constructor
    · intro hAll s hs
      obtain ⟨value, hStored⟩ := Store.mem_iff.mp hs
      exact hAll (s, value) (Store.mem_toList.mpr hStored)
    · exact fun hAll entry hEntry =>
        hAll entry.1 (Store.mem_iff.mpr ⟨entry.2, Store.mem_toList.mp hEntry⟩)
  simp only [applyRawCorrespondence, Option.bind_eq_bind, Option.bind_eq_some_iff, hEach,
    Option.pure_def, Option.some.injEq, rename, hSymbols]
  constructor
  · rintro ⟨_, ⟨hAll, rfl⟩, rfl⟩
    exact ⟨hAll, rfl⟩
  · rintro ⟨hAll, rfl⟩
    exact ⟨_, ⟨hAll, rfl⟩, rfl⟩

/-- Symbols that are known keep their numbers in a larger map. -/
theorem Known.numbered_eq {symbol : C} (hKnown : Known map symbol)
    (hMore : ∀ (s : C) (number : K), map[s]? = some number → map'[s]? = some number) :
    Known map' symbol ∧ numbered map' symbol = numbered map symbol := by
  rcases hKnown with rfl | hIn
  · exact ⟨.inl rfl, by rw [numbered, numbered, if_pos rfl, if_pos rfl]⟩
  · obtain ⟨number, hStored⟩ := Store.mem_iff.mp hIn
    have hStored' := hMore symbol number hStored
    exact ⟨.inr (Store.mem_iff.mpr ⟨number, hStored'⟩),
      by rw [numbered, numbered, hStored, hStored']⟩

/-- No two symbols with the same number, and none with that of the constant. -/
theorem numbered_injOn
    (hInj : ∀ (s s' : C) (number : K), map[s]? = some number → map[s']? = some number → s = s')
    (hNe : ∀ (s : C) (number : K), map[s]? = some number → number ≠ constantCoefficient) :
    Set.InjOn (numbered map) {symbol | Known map symbol} := by
  -- a known symbol is the constant, or has a number of its own
  have hCases : ∀ {s : C}, Known map s → s = constantCoefficient ∨
      (s ≠ constantCoefficient ∧ map[s]? = some (numbered map s)) := by
    intro s hKnown
    by_cases hConstant : s = constantCoefficient
    · exact .inl hConstant
    · obtain ⟨number, hStored⟩ := Store.mem_iff.mp (hKnown.resolve_left hConstant)
      refine .inr ⟨hConstant, ?_⟩
      rw [numbered, if_neg hConstant, hStored]
      rfl
  have hConstant : numbered map constantCoefficient = constantCoefficient := if_pos rfl
  intro s hs s' hs' hEq
  rcases hCases hs with rfl | ⟨-, hStored⟩
  · rcases hCases hs' with rfl | ⟨-, hStored'⟩
    · rfl
    · exact absurd (hEq.symm.trans hConstant) (hNe s' _ hStored')
  · rcases hCases hs' with rfl | ⟨-, hStored'⟩
    · exact absurd (hEq.trans hConstant) (hNe s _ hStored)
    · exact hInj s s' _ hStored (hEq ▸ hStored')

end Rename

-- ---------------------------------------------------------------------------
-- The numbers of a subcircuit
-- ---------------------------------------------------------------------------

/-- An offset keeps the signals apart. -/
theorem shift_injective (offset : Nat) : Function.Injective (shift offset) := by
  intro s s' hEq
  have hDefault : (default : Nat) = 0 := rfl
  simp only [shift, constantCoefficient, hDefault] at hEq
  split at hEq <;> split at hEq <;> omega

theorem shift_zero (symbol : Nat) : shift 0 symbol = symbol := by
  rw [shift, Nat.add_zero, ite_self]

theorem applyRawOffset_zero (h : Coefficients Nat) : h.applyRawOffset 0 = h := by
  refine Std.ExtTreeMap.ext_getElem? ?_
  intro symbol
  refine Option.ext ?_
  intro value
  rw [applyRawOffset, get?_rename (shift_injective 0).injOn]
  simp only [shift_zero, exists_eq_left]

end Coefficients

namespace Constraint

open Coefficients

section Rename

variable {C K : Type} [Ord C] [Std.TransOrd C] [Std.LawfulEqOrd C] [DecidableEq C] [Inhabited C]
variable [Ord K] [Std.TransOrd K] [Std.LawfulEqOrd K] [DecidableEq K] [Inhabited K]
variable {R : Type} [CommRing R] {k : Constraint C} {f g : C → K} {w : K → R}

/-- A constraint about other symbols. -/
def rename (f : C → K) (k : Constraint C) : Constraint K :=
  ⟨k.a.rename f, k.b.rename f, k.c.rename f⟩

theorem injOn_sides (hInj : Set.InjOn f {s | k.Occurs s}) :
    Set.InjOn f {s | s ∈ k.a} ∧ Set.InjOn f {s | s ∈ k.b} ∧ Set.InjOn f {s | s ∈ k.c} :=
  ⟨hInj.mono fun _ hIn => .inl hIn, hInj.mono fun _ hIn => .inr (.inl hIn),
    hInj.mono fun _ hIn => .inr (.inr hIn)⟩

/-- A renamed constraint holds of the values that the old one has under the new names. -/
theorem holds_rename (hInj : Set.InjOn f {s | k.Occurs s}) :
    (k.rename f).Holds w ↔ k.Holds (w ∘ f) := by
  obtain ⟨hInjA, hInjB, hInjC⟩ := injOn_sides hInj
  rw [Holds, Holds, rename, eval_rename hInjA, eval_rename hInjB, eval_rename hInjC]

/-- The new names are those of the old ones. -/
theorem occurs_rename (hInj : Set.InjOn f {s | k.Occurs s}) {symbol : K} :
    (k.rename f).Occurs symbol ↔ ∃ s, f s = symbol ∧ k.Occurs s := by
  obtain ⟨hInjA, hInjB, hInjC⟩ := injOn_sides hInj
  simp only [Occurs, rename, mem_rename hInjA, mem_rename hInjB, mem_rename hInjC]
  grind

theorem rename_congr (hSame : ∀ s, k.Occurs s → f s = g s) : k.rename f = k.rename g := by
  rw [rename, rename, Coefficients.rename_congr fun s hs => hSame s (.inl hs),
    Coefficients.rename_congr fun s hs => hSame s (.inr (.inl hs)),
    Coefficients.rename_congr fun s hs => hSame s (.inr (.inr hs))]

theorem occurs_of_removeZeroValueCoefficients {symbol : C}
    (h : k.removeZeroValueCoefficients.Occurs symbol) : k.Occurs symbol :=
  h.imp mem_of_mem_removeZeroValue (Or.imp mem_of_mem_removeZeroValue mem_of_mem_removeZeroValue)

/-- Zeros may go before or after a renaming. -/
theorem removeZeroValueCoefficients_rename (hInj : Set.InjOn f {s | k.Occurs s}) :
    (k.rename f).removeZeroValueCoefficients = k.removeZeroValueCoefficients.rename f := by
  obtain ⟨hInjA, hInjB, hInjC⟩ := injOn_sides hInj
  rw [removeZeroValueCoefficients, rename, removeZeroValue_rename hInjA,
    removeZeroValue_rename hInjB, removeZeroValue_rename hInjC]
  rfl

variable {map map' : Store C K} {k' : Constraint K}

/-- A constraint gets the numbers of the map, if all its symbols are known. -/
theorem applyCorrespondence_eq_some :
    k.applyCorrespondence map = some k' ↔
      (∀ s, k.Occurs s → Known map s) ∧ k' = k.rename (numbered map) := by
  simp only [applyCorrespondence, Option.bind_eq_bind, Option.bind_eq_some_iff,
    applyRawCorrespondence_eq_some, Option.pure_def, Option.some.injEq]
  constructor
  · rintro ⟨_, ⟨hA, rfl⟩, _, ⟨hB, rfl⟩, _, ⟨hC, rfl⟩, rfl⟩
    refine ⟨?_, rfl⟩
    rintro s (hIn | hIn | hIn)
    · exact hA s hIn
    · exact hB s hIn
    · exact hC s hIn
  · rintro ⟨hAll, rfl⟩
    exact ⟨_, ⟨fun s hs => hAll s (.inl hs), rfl⟩, _, ⟨fun s hs => hAll s (.inr (.inl hs)), rfl⟩,
      _, ⟨fun s hs => hAll s (.inr (.inr hs)), rfl⟩, rfl⟩

/-- A larger map gives the same numbers. -/
theorem applyCorrespondence_mono (h : k.applyCorrespondence map = some k')
    (hMore : ∀ (s : C) (number : K), map[s]? = some number → map'[s]? = some number) :
    k.applyCorrespondence map' = some k' := by
  obtain ⟨hAll, rfl⟩ := applyCorrespondence_eq_some.mp h
  refine applyCorrespondence_eq_some.mpr ⟨fun s hs => ((hAll s hs).numbered_eq hMore).1, ?_⟩
  exact rename_congr fun s hs => ((hAll s hs).numbered_eq hMore).2.symm

end Rename

variable {R : Type} [CommRing R] {k : Constraint Nat} {w : Nat → R} {offset : Nat} {field : Int}

/-- A constraint at an offset says the same of the shifted signals. -/
theorem holds_applyOffset : (k.applyOffset offset).Holds w ↔ k.Holds (w ∘ shift offset) :=
  holds_rename (shift_injective offset).injOn

theorem occurs_applyOffset {symbol : Nat} :
    (k.applyOffset offset).Occurs symbol ↔ ∃ s, shift offset s = symbol ∧ k.Occurs s :=
  occurs_rename (shift_injective offset).injOn

theorem applyOffset_zero : k.applyOffset 0 = k := by
  rw [applyOffset, applyRawOffset_zero, applyRawOffset_zero, applyRawOffset_zero]

theorem applyRawOffset_eq_empty_iff {h : Coefficients Nat} :
    h.applyRawOffset offset = ∅ ↔ h = ∅ := by
  simp only [Std.ExtTreeMap.eq_empty_iff_forall_not_mem, applyRawOffset,
    mem_rename (shift_injective offset).injOn]
  exact ⟨fun hAll s hs => hAll _ ⟨s, rfl, hs⟩, fun hAll s ⟨t, _, ht⟩ => hAll t ht⟩

theorem isLinear_applyOffset : (k.applyOffset offset).isLinear = k.isLinear := by
  rw [Bool.eq_iff_iff, isLinear_iff, isLinear_iff, applyOffset, applyRawOffset_eq_empty_iff,
    applyRawOffset_eq_empty_iff]

end Constraint

end Ganc.Circom
