import Ganc.Circom.FullSimplification
import Ganc.Circom.ConstraintSimplification

/-!
# circom — substitutions put to use

Substitutions are encoded as a map from signals to expressions, in which no
expression mentions a signal that is replaced (`SEncoded.Closed`). Replacing
the signals of a constraint once then removes all of them, and does not change
what the constraint says where the substitutions hold (`Substituted`). What is
left of a system when its substitutions are put to use is its projection to
the other signals (`eliminates_of_encoded`).
-/

set_option linter.unusedSectionVars false

namespace Ganc.Circom

open Elimination Fuel

variable {p : Nat} [Fact p.Prime]

-- ---------------------------------------------------------------------------
-- Products of nothing but zeros
-- ---------------------------------------------------------------------------

namespace Coefficients

/-- There is at most a constant of zero. -/
def Blank (h : Coefficients Nat) : Prop :=
  ∀ (t : Nat) (value : Int), h[t]? = some value → t = constantCoefficient ∧ value = 0

theorem blank_empty : Blank ∅ := fun _ _ hStored => by simp at hStored

theorem Blank.removeZeroValue {h : Coefficients Nat} (hBlank : h.Blank) :
    h.removeZeroValue = ∅ := removeZeroValue_eq_empty fun t v hStored => (hBlank t v hStored).2

/-- What has no signals has nothing to substitute. -/
theorem Blank.rawSubstitution {h : Coefficients Nat} (hBlank : h.Blank) {s : Substitution Nat}
    (hne : s.from_ ≠ constantCoefficient) (field : Int) : (rawSubstitution h s field).Blank := by
  have hInit : h.initializeHashmap.Blank := by
    intro t value hStored
    rw [Coefficients.initializeHashmap] at hStored
    split at hStored
    next => exact hBlank t value hStored
    next =>
      rw [Store.get?_insert] at hStored
      split at hStored
      next hEq => exact ⟨hEq, (Option.some.inj hStored).symm⟩
      next => exact hBlank t value hStored
  have hNone : h.initializeHashmap[s.from_]? = none := by
    cases hStored : h.initializeHashmap[s.from_]? with
    | none => rfl
    | some value => exact absurd (hInit s.from_ value hStored).1 hne
  have hSame : Circom.rawSubstitution h s field = h.initializeHashmap := by
    simp only [Circom.rawSubstitution, hNone]
  rw [hSame]
  exact hInit

end Coefficients

/-- A constraint that is linear up to zeros. -/
def Constraint.Flat (c : Constraint Nat) : Prop := c.a.Blank ∧ c.b.Blank

theorem Constraint.Linear.flat {c : Constraint Nat} {field : Int} (h : c.Linear field) :
    c.Flat := by
  rw [Constraint.Flat, h.a, h.b]
  exact ⟨Coefficients.blank_empty, Coefficients.blank_empty⟩

/-- A flat constraint becomes linear. -/
theorem Constraint.Flat.fixConstraint {c c' : Constraint Nat} {field : Int} (h : c.Flat)
    (hFix : c.fixConstraint field = some c') : c'.isLinear = true := by
  have hEmpty : (∅ : Coefficients Nat).isEmpty = true := Std.ExtTreeMap.isEmpty_empty
  rw [Constraint.fixConstraint, fixRawConstraint, h.1.removeZeroValue, hEmpty, Bool.true_or,
    if_pos rfl] at hFix
  obtain rfl := Option.some.inj hFix
  exact isLinear_iff.mpr ⟨rfl, rfl⟩

-- ---------------------------------------------------------------------------
-- Encoded substitutions
-- ---------------------------------------------------------------------------

namespace SEncoded

/-- Every signal that is replaced has the value of its expression. -/
def Holds (w : Nat → ZMod p) (enc : SEncoded) : Prop :=
  ∀ (k : Nat) (e : ArithmeticExpression Nat), enc[k]? = some e → w k = e.value w

/-- No expression mentions a signal that is replaced. -/
structure Closed (enc : SEncoded) : Prop where
  constant : constantCoefficient ∉ enc
  affine : ∀ (k : Nat) (e : ArithmeticExpression Nat), enc[k]? = some e → e.Affine
  apart : ∀ (k : Nat) (e : ArithmeticExpression Nat), enc[k]? = some e →
    ∀ t, e.Occurs t → t ∉ enc

/-- `t` is mentioned by what a signal of the constraint is replaced by. -/
def Brings (enc : SEncoded) (c : Constraint Nat) (t : Nat) : Prop :=
  ∃ (k : Nat) (e : ArithmeticExpression Nat), c.Occurs k ∧ enc[k]? = some e ∧ e.Occurs t

end SEncoded

/-- The constraint after the substitutions. -/
structure Substituted (p : Nat) (enc : SEncoded) (c c' : Constraint Nat) : Prop where
  reduced : c'.c.Reduced p
  holds : ∀ w : Nat → ZMod p, w constantCoefficient = 1 → enc.Holds w → (c'.Holds w ↔ c.Holds w)
  occurs : ∀ t, c'.Occurs t → t = constantCoefficient ∨ (c.Occurs t ∧ t ∉ enc) ∨ enc.Brings c t

variable {enc : SEncoded} {c c' c'' : Constraint Nat}

/-- A constraint without the signals stays. -/
theorem substituted_self (hRed : c.c.Reduced p) (hNone : ∀ t, c.Occurs t → t ∉ enc) :
    Substituted p enc c c :=
  ⟨hRed, fun _ _ _ => Iff.rfl, fun t ht => .inr (.inl ⟨ht, hNone t ht⟩)⟩

/-- Nothing is left of what is replaced. -/
theorem Substituted.notMem (h : Substituted p enc c c') (hClosed : enc.Closed) {t : Nat}
    (ht : c'.Occurs t) : t ∉ enc := by
  rcases h.occurs t ht with rfl | ⟨-, hNot⟩ | ⟨k, e, -, hStored, hOccurs⟩
  · exact hClosed.constant
  · exact hNot
  · exact hClosed.apart k e hStored t hOccurs

/-- After the substitution the constraint can be fixed. -/
theorem Substituted.fixConstraint (h : Substituted p enc c c') :
    ∃ c'', c'.fixConstraint p = some c'' ∧ Substituted p enc c c'' ∧
      (c''.isLinear = true → c''.Linear p) := by
  obtain ⟨c'', hFix, hRewrites, hRed, hLinear⟩ :=
    Constraint.fixConstraint_spec (R := ZMod p) ModularArithmetic.cast_field field_pos h.reduced
  refine ⟨c'', hFix, ⟨hRed, ?_, ?_⟩, hLinear⟩
  · exact fun w hOne hEnc => (hRewrites.holds w hOne).trans (h.holds w hOne hEnc)
  · exact fun t ht => (hRewrites.occurs t ht).elim .inl (h.occurs t)

/-- One signal of the constraint is replaced. -/
theorem exists_substitution (hClosed : enc.Closed) {k : Nat} {e : ArithmeticExpression Nat}
    (hStored : enc[k]? = some e) : ∃ s : Substitution Nat, Substitution.new k e = some s ∧
      s.from_ = k ∧ (∀ t ∈ s.to_, t = constantCoefficient ∨ e.Occurs t) ∧
      ∀ w : Nat → ZMod p, w constantCoefficient = 1 → enc.Holds w → s.Holds w := by
  have hMem : k ∈ enc := Store.mem_iff.mpr ⟨e, hStored⟩
  obtain ⟨s, hNew, hFrom, hKeys, hEval⟩ := Substitution.new_eq_some (R := ZMod p)
    (hClosed.affine k e hStored) fun hOccurs => hClosed.apart k e hStored k hOccurs hMem
  refine ⟨s, hNew, hFrom, hKeys, ?_⟩
  intro w hOne hEnc
  rw [Substitution.Holds, hFrom, hEval w hOne]
  exact hEnc k e hStored

/-- A flat constraint stays flat. -/
theorem Constraint.Flat.applySubstitution {c : Constraint Nat} (h : c.Flat) {s : Substitution Nat}
    (hne : s.from_ ≠ constantCoefficient) (field : Int) : (c.applySubstitution s field).Flat :=
  ⟨h.1.rawSubstitution hne field, h.2.rawSubstitution hne field⟩

/-- Some of the signals of the constraint have been replaced, and those in `rest` have not. -/
structure Substituting (p : Nat) (enc : SEncoded) (c : Constraint Nat)
    (s : Constraint Nat × Bool) (rest : List Nat) : Prop where
  reduced : s.1.c.Reduced p
  holds : ∀ w : Nat → ZMod p, w constantCoefficient = 1 → enc.Holds w → (s.1.Holds w ↔ c.Holds w)
  occurs : ∀ t, s.1.Occurs t →
    t = constantCoefficient ∨ (c.Occurs t ∧ (t ∈ enc → t ∈ rest)) ∨ enc.Brings c t
  rest : ∀ t ∈ rest, c.Occurs t
  unchanged : s.2 = false → s.1 = c
  flat : c.Flat → s.1.Flat

/-- One more signal is substituted. -/
theorem Substituting.step {s : Constraint Nat × Bool} {k : Nat} {rest : List Nat}
    (h : Substituting p enc c s (k :: rest)) (hClosed : enc.Closed) :
    ∃ s', substituteSignal enc p s k = some s' ∧ Substituting p enc c s' rest := by
  have hRest : ∀ t ∈ rest, c.Occurs t := fun t ht => h.rest t (List.mem_cons_of_mem k ht)
  cases hStored : enc[k]? with
  | none =>
    refine ⟨s, by rw [substituteSignal, hStored], h.reduced, h.holds, ?_, hRest, h.unchanged,
      h.flat⟩
    intro t ht
    refine (h.occurs t ht).imp_right (Or.imp_left (And.imp_right fun hIn hEnc => ?_))
    refine (List.mem_cons.mp (hIn hEnc)).resolve_left ?_
    rintro rfl
    exact Store.notMem_iff.mpr hStored hEnc
  | some e =>
    obtain ⟨sub, hNew, hFrom, hTo, hHolds⟩ := exists_substitution (p := p) hClosed hStored
    have hne : sub.from_ ≠ constantCoefficient := by
      rintro hEq
      exact hClosed.constant (Store.mem_iff.mpr ⟨e, by rw [← hEq, hFrom, hStored]⟩)
    refine ⟨(s.1.applySubstitution sub p, true), ?_, ?_, ?_, ?_, hRest, ?_, ?_⟩
    · rw [substituteSignal, hStored]
      exact congrArg (Option.bind · _) hNew
    · exact reduced_rawSubstitution field_pos h.reduced
    · intro w hOne hEnc
      exact ((hHolds w hOne hEnc).constraint ModularArithmetic.cast_field).trans
        (h.holds w hOne hEnc)
    · intro t ht
      rcases Constraint.occurs_applySubstitution ht with rfl | ⟨hOld, hOther⟩ | hMem
      · exact .inl rfl
      · rw [hFrom] at hOther
        exact (h.occurs t hOld).imp_right (Or.imp_left (And.imp_right fun hIn hEnc =>
          (List.mem_cons.mp (hIn hEnc)).resolve_left hOther))
      · exact (hTo t hMem).imp_right fun hOccurs =>
          .inr ⟨k, e, h.rest k List.mem_cons_self, hStored, hOccurs⟩
    · exact fun hFalse => absurd hFalse (by simp)
    · exact fun hFlat => (h.flat hFlat).applySubstitution hne p

/-- All signals of the constraint are gone through once. -/
theorem fastEncodedConstraintSubstitution_spec (order : HashOrder) (hClosed : enc.Closed)
    (hRed : c.c.Reduced p) :
    ∃ c' applied, fastEncodedConstraintSubstitution order c enc p = some (c', applied) ∧
      Substituted p enc c c' ∧ (applied = false → c' = c) ∧ (c.Flat → c'.Flat) := by
  have hArranged : ∀ t, t ∈ order.arrange c.takeClonedSignals.toList ↔
      t ≠ constantCoefficient ∧ c.Occurs t := by
    intro t
    rw [(order.perm _).mem_iff, Std.ExtTreeSet.mem_toList, Constraint.mem_takeClonedSignals]
  obtain ⟨⟨c', applied⟩, hOk, hDone⟩ := exists_foldlM (substituteSignal enc p)
    (Substituting p enc c) (c, false)
    (order.arrange c.takeClonedSignals.toList) (fun _ _ _ h => h.step hClosed)
    ⟨hRed, fun _ _ _ => Iff.rfl, by
      intro t ht
      refine or_iff_not_imp_left.mpr fun hne => .inl ⟨ht, fun _ => ?_⟩
      exact (hArranged t).mpr ⟨hne, ht⟩,
      fun t ht => ((hArranged t).mp ht).2, fun _ => rfl, id⟩
  refine ⟨c', applied, hOk, ⟨hDone.reduced, hDone.holds, ?_⟩, hDone.unchanged, hDone.flat⟩
  intro t ht
  exact (hDone.occurs t ht).imp_right (Or.imp_left (And.imp_right fun hIn hEnc =>
    absurd (hIn hEnc) List.not_mem_nil))

/-- A constraint is substituted into and fixed; what was linear stays so. -/
theorem substituteAndFix_spec (order : HashOrder) (hClosed : enc.Closed) (hRed : c.c.Reduced p) :
    ∃ c', substituteAndFix order enc p c = some c' ∧ Substituted p enc c c' ∧
      (c.Linear p → c'.Linear p) := by
  obtain ⟨c', applied, hOk, hSub, hUnchanged, hFlat⟩ :=
    fastEncodedConstraintSubstitution_spec order hClosed hRed
  have hSame : substituteAndFix order enc p c =
      if applied then c'.fixConstraint p else some c' := by
    rw [substituteAndFix, hOk]
    rfl
  rw [hSame]
  cases applied with
  | false =>
    refine ⟨c', rfl, hSub, ?_⟩
    rw [hUnchanged rfl]
    exact id
  | true =>
    obtain ⟨c'', hFix, hSub', hLinear⟩ := hSub.fixConstraint
    refine ⟨c'', hFix, hSub', fun hGiven => hLinear ?_⟩
    exact (hFlat hGiven.flat).fixConstraint hFix

-- ---------------------------------------------------------------------------
-- Encoding substitutions
-- ---------------------------------------------------------------------------

/-- The map holds one of the substitutions for every signal there is one for. -/
structure Encodes (enc : SEncoded) (substitutions : List (Substitution Nat)) : Prop where
  keys : ∀ k, k ∈ enc ↔ k ∈ replaced substitutions
  entries : ∀ (k : Nat) (e : ArithmeticExpression Nat), enc[k]? = some e →
    ∃ s ∈ substitutions, s.from_ = k ∧ ArithmeticExpression.hashmapIntoArith s.to_ = e

theorem replaced_append (subs subs' : List (Substitution Nat)) :
    replaced (subs ++ subs') = replaced subs ∪ replaced subs' := by
  ext k
  simp [replaced, or_and_right, exists_or]

/-- The encoding holds the last substitution of each signal. -/
theorem encodes_build (substitutions : List (Substitution Nat)) :
    Encodes (buildEncodedFastSubstitutions substitutions) substitutions := by
  induction substitutions using List.reverseRecOn with
  | nil =>
    refine ⟨fun k => iff_of_false Std.ExtTreeMap.not_mem_empty ?_, fun k e hStored => ?_⟩
    · rintro ⟨s, hs, -⟩
      exact List.not_mem_nil hs
    · simp [buildEncodedFastSubstitutions] at hStored
  | append_singleton subs s ih =>
    have hLast : buildEncodedFastSubstitutions (subs ++ [s]) =
        (buildEncodedFastSubstitutions subs).insert s.from_
          (ArithmeticExpression.hashmapIntoArith s.to_) := by
      rw [buildEncodedFastSubstitutions, List.foldl_append]
      rfl
    rw [hLast]
    refine ⟨?_, ?_⟩
    · intro k
      rw [Store.mem_insert, ih.keys, replaced_append, Set.mem_union, or_comm]
      refine or_congr_right ⟨fun hEq => ⟨s, List.mem_singleton_self s, hEq.symm⟩, ?_⟩
      rintro ⟨s', hs', hEq⟩
      rw [List.mem_singleton.mp hs'] at hEq
      exact hEq.symm
    · intro k e hStored
      rw [Store.get?_insert] at hStored
      split at hStored
      next hEq => exact ⟨s, by simp, hEq.symm, Option.some.inj hStored⟩
      next =>
        obtain ⟨s', hs', hRest⟩ := ih.entries k e hStored
        exact ⟨s', List.mem_append_left _ hs', hRest⟩

namespace Encodes

variable {subs : List (Substitution Nat)}

theorem closed (h : Encodes enc subs) (hZero : constantCoefficient ∉ replaced subs)
    (hApart : ∀ s ∈ subs, ∀ t ∈ s.to_, t ∉ replaced subs) : enc.Closed := by
  refine ⟨fun hMem => hZero ((h.keys _).mp hMem), ?_, ?_⟩
  · intro k e hStored
    obtain ⟨s, -, -, rfl⟩ := h.entries k e hStored
    exact (ArithmeticExpression.denotes_hashmapIntoArith (R := Int) s.to_).affine
  · intro k e hStored t hOccurs hMem
    obtain ⟨s, hs, -, rfl⟩ := h.entries k e hStored
    have hIn := (h.keys t).mp hMem
    rcases (ArithmeticExpression.denotes_hashmapIntoArith (R := Int) s.to_).occurs t hOccurs with
      rfl | hTo
    · exact hZero hIn
    · exact hApart s hs t hTo hIn

/-- What an entry says is what its substitution says. -/
theorem holds (h : Encodes enc subs) {w : Nat → ZMod p} (hOne : w constantCoefficient = 1)
    (hAll : ∀ s ∈ subs, s.Holds w) : enc.Holds w := by
  intro k e hStored
  obtain ⟨s, hs, rfl, rfl⟩ := h.entries k e hStored
  exact (hAll s hs).trans
    ((ArithmeticExpression.denotes_hashmapIntoArith s.to_).value w hOne).symm

/-- If there is a substitution for every signal, and one only. -/
theorem holds_iff (h : Encodes enc subs) (hNodup : (subs.map Substitution.from_).Nodup)
    {w : Nat → ZMod p} (hOne : w constantCoefficient = 1) :
    enc.Holds w ↔ ∀ s ∈ subs, s.Holds w := by
  refine ⟨?_, h.holds hOne⟩
  intro hEnc s hs
  obtain ⟨e, hStored⟩ := Store.mem_iff.mp ((h.keys s.from_).mpr ⟨s, hs, rfl⟩)
  obtain ⟨s', hs', hSame, rfl⟩ := h.entries s.from_ e hStored
  obtain rfl := List.inj_on_of_nodup_map hNodup hs' hs hSame
  exact (hEnc _ _ hStored).trans
    ((ArithmeticExpression.denotes_hashmapIntoArith s'.to_).value w hOne)

end Encodes

-- ---------------------------------------------------------------------------
-- What is left
-- ---------------------------------------------------------------------------

/-- An expression depends on the symbols that occur in it only. -/
theorem ArithmeticExpression.value_congr {e : ArithmeticExpression Nat} {v w : Nat → ZMod p}
    (hAffine : e.Affine) (hSame : ∀ t, e.Occurs t → v t = w t) : e.value v = e.value w := by
  cases e with
  | number value => rfl
  | signal symbol => exact hSame symbol rfl
  | linear h => exact Coefficients.eval_congr hSame
  | quadratic => exact hAffine.elim
  | nonQuadratic => exact hAffine.elim

/-- The signals that are replaced are not mentioned by what is left, and what is left and their
expressions say together what the system said. -/
theorem eliminates_of_encoded {T T' : List (Constraint Nat)} (hClosed : enc.Closed)
    (hSays : ∀ w : Nat → ZMod p, w constantCoefficient = 1 →
      ((∀ c ∈ T, c.Holds w) ↔ (∀ c ∈ T', c.Holds w) ∧ enc.Holds w))
    (hGone : ∀ c ∈ T', ∀ t, c.Occurs t → t ∉ enc) :
    Eliminates (solutions p T) (solutions p T') {k | k ∈ enc} := by
  refine eliminates_of_definitions (g := fun k w => enc[k]?.elim 0 fun e => e.value w) ?_ ?_ ?_
  · intro w
    have hEnc : enc.Holds w ↔ ∀ k ∈ {k | k ∈ enc}, w k = enc[k]?.elim 0 fun e => e.value w := by
      constructor
      · rintro hHolds k hMem
        obtain ⟨e, hStored⟩ := Store.mem_iff.mp hMem
        rw [hStored]
        exact hHolds k e hStored
      · intro hAll k e hStored
        have hValue := hAll k (Store.mem_iff.mpr ⟨e, hStored⟩)
        rw [hStored] at hValue
        exact hValue
    show w constantCoefficient = 1 ∧ _ ↔ (w constantCoefficient = 1 ∧ _) ∧ _
    rw [and_assoc, ← hEnc]
    exact and_congr_right fun hOne => hSays w hOne
  · rintro v w hOff ⟨hOne, hAll⟩
    refine ⟨(hOff hClosed.constant).symm.trans hOne, ?_⟩
    intro c hc
    exact (Constraint.holds_congr fun t ht => hOff (hGone c hc t ht)).mp (hAll c hc)
  · intro k hMem v w hOff
    obtain ⟨e, hStored⟩ := Store.mem_iff.mp hMem
    rw [hStored]
    exact ArithmeticExpression.value_congr (hClosed.affine k e hStored)
      fun t ht => hOff (hClosed.apart k e hStored t ht)

end Ganc.Circom
