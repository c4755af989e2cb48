import Ganc.Circom.ClusterSimplification

/-!
# circom — signals that are constant

A constraint of a single signal (`Pins`) stays one when signals that are equal
are replaced by one of them: a solution of the equalities may give all signals
one value, and only one value solves the constraint. It is solved for its
signal; if the signal is forbidden, it is kept.

Of two substitutions for one signal only the last one is kept, so that a
contradiction of two constants is lost; nothing is if there is a solution.
-/

set_option linter.unusedSectionVars false

namespace Ganc.Circom

open Elimination Fuel

variable {p : Nat} [Fact p.Prime] {forbidden : SignalSet Nat} {c c' : Constraint Nat} {x : Nat}

/-- A linear constraint of one signal. -/
structure Pins (p : Nat) (c : Constraint Nat) (x : Nat) : Prop where
  linear : c.Linear p
  ne : x ≠ constantCoefficient
  mem : x ∈ c.c
  only : ∀ t ∈ c.c, t = constantCoefficient ∨ t = x

/-- What counts as a constant equality pins one signal. -/
theorem isConstantEquality_spec (hLinear : c.Linear p) (hEquality : c.isConstantEquality = true) :
    ∃ x, Pins p c x := by
  -- without the constant there is one entry
  have hRest : (c.c.erase constantCoefficient).size = 1 := by
    simp only [Constraint.isConstantEquality, Bool.and_eq_true, Bool.or_eq_true,
      decide_eq_true_eq] at hEquality
    rcases hEquality.2 with ⟨hIn, hSize⟩ | ⟨hNot, hSize⟩
    · rw [Std.ExtTreeMap.size_erase, if_pos (Std.ExtTreeMap.contains_iff_mem.mpr hIn), hSize]
    · rw [Std.ExtTreeMap.size_erase, if_neg (hNot ∘ Std.ExtTreeMap.contains_iff_mem.mp), hSize]
  obtain ⟨⟨x, v⟩, hList⟩ := List.length_eq_one_iff.mp (Std.ExtTreeMap.length_toList.trans hRest)
  have hOnly : ∀ t, t ∈ c.c.erase constantCoefficient ↔ t = x := by
    intro t
    rw [← Std.ExtTreeMap.mem_keys, ← Std.ExtTreeMap.map_fst_toList_eq_keys, hList]
    exact List.mem_singleton
  obtain ⟨hne, hMem⟩ := Store.mem_erase.mp ((hOnly x).mpr rfl)
  refine ⟨x, hLinear, hne, hMem, ?_⟩
  intro t ht
  exact or_iff_not_imp_left.mpr fun hne' => (hOnly t).mp (Store.mem_erase.mpr ⟨hne', ht⟩)

-- ---------------------------------------------------------------------------
-- Under equalities
-- ---------------------------------------------------------------------------

/-- Every expression is a signal. -/
def SEncoded.Renames (enc : SEncoded) : Prop :=
  ∀ (k : Nat) (e : ArithmeticExpression Nat), enc[k]? = some e →
    ∃ y, y ≠ constantCoefficient ∧ e = .signal y

/-- The substitution by a signal is read back as the signal. -/
theorem hashmapIntoArith_toSignal {rh k : Nat} (hne : rh ≠ constantCoefficient) :
    ArithmeticExpression.hashmapIntoArith (toSignal rh k).to_ = .signal rh := by
  have hSize : (toSignal rh k).to_.size = 1 := by
    rw [toSignal, Store.size_insert_of_notMem Std.ExtTreeMap.not_mem_empty,
      Std.ExtTreeMap.size_empty]
  have hNone : (toSignal rh k).to_[(constantCoefficient : Nat)]? = none := by
    rw [← Store.notMem_iff, mem_toSignal]
    exact fun hEq => hne hEq.symm
  obtain ⟨⟨t, v⟩, hList⟩ := List.length_eq_one_iff.mp (Std.ExtTreeMap.length_toList.trans hSize)
  have hEntry : (rh, (1 : Int)) ∈ (toSignal rh k).to_.toList :=
    Store.mem_toList.mpr (Std.ExtTreeMap.getElem?_insert_self ..)
  rw [hList, List.mem_singleton, Prod.mk.injEq] at hEntry
  obtain ⟨rfl, rfl⟩ := hEntry
  simp only [ArithmeticExpression.hashmapIntoArith, hSize, hNone, hList, if_true]

/-- Renaming substitutions are encoded as a renaming. -/
theorem Encodes.renames {enc : SEncoded} {subs : List (Substitution Nat)} (h : Encodes enc subs)
    (hRenames : Renames subs) : enc.Renames := by
  intro k e hStored
  obtain ⟨s, hs, -, rfl⟩ := h.entries k e hStored
  obtain ⟨rh, hne, hSignal⟩ := hRenames s hs
  exact ⟨rh, hne, by rw [hSignal, hashmapIntoArith_toSignal hne]⟩

/-- All signals have one value. -/
def level (a : ZMod p) (t : Nat) : ZMod p := if t = constantCoefficient then 1 else a

/-- A renaming holds where all signals are equal. -/
theorem SEncoded.Renames.holds_level {enc : SEncoded} (h : enc.Renames)
    (hConstant : constantCoefficient ∉ enc) (a : ZMod p) : enc.Holds (level a) := by
  intro k e hStored
  obtain ⟨y, hne, rfl⟩ := h k e hStored
  have hk : k ≠ constantCoefficient := by
    rintro rfl
    exact hConstant (Store.mem_iff.mpr ⟨_, hStored⟩)
  rw [level, if_neg hk, ArithmeticExpression.value, level, if_neg hne]

theorem Pins.holds (h : Pins p c x) {v : Int} (hStored : c.c[x]? = some v) {w : Nat → ZMod p}
    (hOne : w constantCoefficient = 1) :
    c.Holds w ↔ (v : ZMod p) * w x + Coefficients.eval (level 0) (c.c.erase x) = 0 := by
  have hRest : Coefficients.eval w (c.c.erase x) = Coefficients.eval (level 0) (c.c.erase x) := by
    refine Coefficients.eval_congr fun t ht => ?_
    obtain ⟨hne, hMem⟩ := Store.mem_erase.mp ht
    rw [(h.only t hMem).resolve_right hne, hOne, level, if_pos rfl]
  rw [h.linear.holds, Coefficients.eval_erase hStored, hRest]

/-- The signal may have become another one, but it has not gone. -/
theorem Pins.substituted (h : Pins p c x) {enc : SEncoded} (hClosed : enc.Closed)
    (hRenames : enc.Renames) (hSub : Substituted p enc c c') (hLinear : c'.Linear p) :
    ∃ y, Pins p c' y := by
  obtain ⟨v, hStored⟩ := Store.mem_iff.mp h.mem
  have hUnit : (v : ZMod p) ≠ 0 := h.linear.cast_ne_zero hStored
  have hOf : ∀ t, c.Occurs t → t = constantCoefficient ∨ t = x :=
    fun t ht => h.only t (h.linear.occurs.mp ht)
  -- one signal at most is left
  obtain ⟨y, hne, hOnly⟩ : ∃ y, y ≠ constantCoefficient ∧
      ∀ t, c'.Occurs t → t = constantCoefficient ∨ t = y := by
    cases hx : enc[x]? with
    | none =>
      refine ⟨x, h.ne, ?_⟩
      intro t ht
      rcases hSub.occurs t ht with hEq | ⟨hOld, -⟩ | ⟨k, e, hOld, hEntry, -⟩
      · exact .inl hEq
      · exact hOf t hOld
      · rcases hOf k hOld with rfl | rfl
        · exact absurd (Store.mem_iff.mpr ⟨e, hEntry⟩) hClosed.constant
        · rw [hx] at hEntry
          cases hEntry
    | some e =>
      obtain ⟨y, hne, rfl⟩ := hRenames x e hx
      refine ⟨y, hne, ?_⟩
      intro t ht
      rcases hSub.occurs t ht with hEq | ⟨hOld, hNot⟩ | ⟨k, e, hOld, hEntry, hOccurs⟩
      · exact .inl hEq
      · refine (hOf t hOld).imp_right ?_
        rintro rfl
        exact absurd (Store.mem_iff.mpr ⟨_, hx⟩) hNot
      · rcases hOf k hOld with rfl | rfl
        · exact absurd (Store.mem_iff.mpr ⟨e, hEntry⟩) hClosed.constant
        · obtain rfl := Option.some.inj (hx.symm.trans hEntry)
          exact .inr hOccurs
  refine ⟨y, hLinear, hne, ?_, fun t ht => hOnly t (hLinear.occurs.mpr ht)⟩
  -- without it, the constraint would hold of every value or of none
  by_contra hGone
  let rest : ZMod p := Coefficients.eval (level 0) (c.c.erase x)
  have hAt : ∀ a : ZMod p, c'.Holds (level a) ↔ (v : ZMod p) * a + rest = 0 := by
    intro a
    have hOne : (level a : Nat → ZMod p) constantCoefficient = 1 := if_pos rfl
    rw [hSub.holds _ hOne (hRenames.holds_level hClosed.constant a), h.holds hStored hOne, level,
      if_neg h.ne]
  have hSame : ∀ a b : ZMod p, c'.Holds (level a) ↔ c'.Holds (level b) := by
    intro a b
    refine Constraint.holds_congr fun t ht => ?_
    rcases hOnly t ht with rfl | rfl
    · rfl
    · exact absurd (hLinear.occurs.mp ht) hGone
  have hRoot : (v : ZMod p) * (-rest / v) + rest = 0 := by
    rw [mul_div_cancel₀ _ hUnit, neg_add_cancel]
  have hNext := (hAt (-rest / v + 1)).mp ((hSame _ _).mp ((hAt (-rest / v)).mpr hRoot))
  rw [mul_add, mul_one, add_right_comm, hRoot, zero_add] at hNext
  exact hUnit hNext

-- ---------------------------------------------------------------------------
-- Solving for the signal
-- ---------------------------------------------------------------------------

variable {D kept : List (Constraint Nat)} {subs : List (Substitution Nat)} {n : BigNumbers}

/-- A pinned signal can be solved for, without other signals. -/
theorem Pins.clearSignal (h : Pins p c x) (hLaw : n.Lawful) :
    ∃ s, c.clearSignalFromLinear n x p = some s ∧ s.from_ = x ∧
      (∀ t ∈ s.to_, t = constantCoefficient) ∧
      ∀ w : Nat → ZMod p, w constantCoefficient = 1 → (c.Holds w ↔ s.Holds w) := by
  obtain ⟨v, hStored⟩ := Store.mem_iff.mp h.mem
  have hUnit : (v : ZMod p) ≠ 0 := h.linear.cast_ne_zero hStored
  have hPos := (h.linear.reduced x v hStored).1
  have hCast : ((ModularArithmetic.mul v (-1) p : Int) : ZMod p) = -v := by
    rw [ModularArithmetic.cast_mul ModularArithmetic.cast_field, Int.cast_neg, Int.cast_one,
      mul_neg_one]
  let rest := Coefficients.initializeHashmap (c.c.erase x)
  obtain ⟨inverse, hDiv⟩ := (ModularArithmetic.div_ok_iff hLaw (a := 1)
    (b := ModularArithmetic.mul v (-1) p)).mpr (by rwa [hCast, neg_ne_zero])
  let divided := rest.multiplyByConstant inverse p
  have hDivide : rest.divideByConstant n (ModularArithmetic.mul v (-1) p) p = .ok divided := by
    rw [Coefficients.divideByConstant, hDiv]
    rfl
  refine ⟨⟨x, divided.removeZeroValue⟩, ?_, rfl, ?_, ?_⟩
  · simp only [Constraint.clearSignalFromLinear, Constraint.clearSignal, hStored,
      Option.bind_eq_bind, Option.bind_some, if_neg hPos.ne']
    rw [hDivide]
    rfl
  · intro t ht
    have hMem := Coefficients.mem_multiplyByConstant.mp (Coefficients.mem_of_mem_removeZeroValue ht)
    refine (Coefficients.mem_initializeHashmap.mp hMem).elim id fun hErased => ?_
    obtain ⟨hne, hIn⟩ := Store.mem_erase.mp hErased
    exact (h.only t hIn).resolve_right hne
  · intro w _
    obtain ⟨hEval, -⟩ :=
      Coefficients.eval_divideByConstant (w := w) hLaw ModularArithmetic.cast_field hDivide
    rw [hCast, Coefficients.eval_initializeHashmap] at hEval
    rw [h.linear.holds, Coefficients.eval_erase hStored, Substitution.Holds,
      Coefficients.eval_removeZeroValue, ← hEval, neg_mul, ← sub_eq_add_neg, sub_eq_zero,
      mul_right_inj' hUnit]

/-- Constraints of one signal, as constants and what is left for forbidden signals. -/
structure Constants (p : Nat) (forbidden : SignalSet Nat) (D : List (Constraint Nat))
    (substitutions : List (Substitution Nat)) (kept : List (Constraint Nat)) : Prop where
  free : ∀ s ∈ substitutions, s.from_ ∉ forbidden ∧ Mentions D s.from_
  constant : ∀ s ∈ substitutions, ∀ t ∈ s.to_, t = constantCoefficient
  reduced : ∀ c ∈ kept, c.c.Reduced p
  left : ∀ t, Mentions kept t → t = constantCoefficient ∨ (t ∈ forbidden ∧ Mentions D t)
  holds : ∀ w : Nat → ZMod p, w constantCoefficient = 1 →
    ((∀ c ∈ D, c.Holds w) ↔ (∀ c ∈ kept, c.Holds w) ∧ ∀ s ∈ substitutions, s.Holds w)

/-- One more constant equality is substituted or kept. -/
theorem Constants.constantEqConstraint (h : Constants p forbidden D subs kept) (hLaw : n.Lawful)
    (hPins : Pins p c x) : ∃ s', constantEqConstraint n forbidden p (subs, kept) c = some s' ∧
      Constants p forbidden (D ++ [c]) s'.1 s'.2 := by
  have hSignals : c.takeClonedSignals.toList = [x] := by
    refine List.perm_singleton.mp ((List.perm_ext_iff_of_nodup (nodup_toList _)
      (List.nodup_singleton x)).mpr fun t => ?_)
    rw [Std.ExtTreeSet.mem_toList, Constraint.mem_takeClonedSignals, List.mem_singleton,
      hPins.linear.occurs]
    refine ⟨fun ⟨hne, ht⟩ => (hPins.only t ht).resolve_left hne, ?_⟩
    rintro rfl
    exact ⟨hPins.ne, hPins.mem⟩
  have hMentions : ∀ t, Mentions D t → Mentions (D ++ [c]) t :=
    fun t ht => mentions_append.mpr (.inl ht)
  have hNew : ∀ t, c.Occurs t → Mentions (D ++ [c]) t :=
    fun t ht => mentions_append.mpr (.inr ⟨c, List.mem_cons_self, ht⟩)
  have hSplit : ∀ w : Nat → ZMod p, w constantCoefficient = 1 → ((∀ c' ∈ D ++ [c], c'.Holds w) ↔
      ((∀ c' ∈ kept, c'.Holds w) ∧ ∀ s ∈ subs, s.Holds w) ∧ c.Holds w) := by
    intro w hOne
    rw [List.forall_mem_append, List.forall_mem_singleton, h.holds w hOne]
  simp only [Circom.constantEqConstraint, hSignals, List.getLast?_singleton, Option.bind_eq_bind,
    Option.bind_some]
  split
  next hForbidden =>
    refine ⟨_, rfl, fun s hs => (h.free s hs).imp_right (hMentions _), h.constant, ?_, ?_, ?_⟩
    · exact List.forall_mem_append.mpr ⟨h.reduced, by simpa using hPins.linear.toReduced⟩
    · intro t ht
      rcases mentions_append.mp ht with hOld | ⟨c', hc', ht'⟩
      · exact (h.left t hOld).imp_right (And.imp_right (hMentions t))
      · rw [List.mem_singleton.mp hc'] at ht'
        refine (hPins.only t (hPins.linear.occurs.mp ht')).imp_right ?_
        rintro rfl
        exact ⟨hForbidden, hNew t ht'⟩
    · intro w hOne
      rw [hSplit w hOne, List.forall_mem_append, List.forall_mem_singleton]
      tauto
  next hFree =>
    obtain ⟨s, hOk, hFrom, hTo, hHolds⟩ := hPins.clearSignal hLaw
    have hIn : c.Occurs s.from_ := hFrom ▸ hPins.linear.occurs.mpr hPins.mem
    rw [hOk]
    refine ⟨_, rfl, ?_, ?_, h.reduced, ?_, ?_⟩
    · exact List.forall_mem_append.mpr ⟨fun s hs => (h.free s hs).imp_right (hMentions _),
        List.forall_mem_singleton.mpr ⟨hFrom ▸ hFree, hNew _ hIn⟩⟩
    · exact List.forall_mem_append.mpr ⟨h.constant, List.forall_mem_singleton.mpr hTo⟩
    · exact fun t ht => (h.left t ht).imp_right (And.imp_right (hMentions t))
    · intro w hOne
      rw [hSplit w hOne, List.forall_mem_append, List.forall_mem_singleton, hHolds w hOne,
        and_assoc]

/-- Every constant equality is substituted or kept. -/
theorem constantEqSimplification_spec (forbidden : SignalSet Nat) (hLaw : n.Lawful)
    {cEq : List (Constraint Nat)} (hPins : ∀ c ∈ cEq, ∃ x, Pins p c x) :
    ∃ subs cons, constantEqSimplification n cEq forbidden p = some (subs, cons) ∧
      Constants p forbidden cEq subs cons := by
  obtain ⟨⟨subs, cons⟩, hOk, done, hDone, hConstants⟩ := exists_foldlM
    (constantEqConstraint n forbidden (p : Int))
    (fun s rest => ∃ done, cEq = done ++ rest ∧ Constants p forbidden done s.1 s.2)
    ([], []) cEq (by
      rintro ⟨subs, kept⟩ c rest ⟨done, hList, hConstants⟩
      obtain ⟨x, hx⟩ := hPins c (hList ▸ List.mem_append_right _ List.mem_cons_self)
      obtain ⟨s', hOk, hNext⟩ := hConstants.constantEqConstraint hLaw hx
      exact ⟨s', hOk, done ++ [c], by rw [hList, List.append_assoc, List.singleton_append], hNext⟩)
    ⟨[], rfl, by simp, by simp, by simp, by simp [Mentions], by simp⟩
  rw [List.append_nil] at hDone
  exact ⟨subs, cons, hOk, hDone ▸ hConstants⟩

end Ganc.Circom
