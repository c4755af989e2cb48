import Ganc.Circom.ConstantSimplification

/-!
# circom — systems that lose signals

The simplification goes through several systems of constraints. In every step
some of the constraints are turned into substitutions (`Resolves`), which are
then put to use in the others. `Remains` relates a system to the one it comes
from: it is what is left of it when the removed signals are eliminated, and
mentions none of them. The steps compose (`Remains.resolve`).
-/

set_option linter.unusedSectionVars false

namespace Ganc.Circom

open Elimination Fuel

variable {p : Nat} [Fact p.Prime] {forbidden : SignalSet Nat} {consistent : Prop}
variable {D T T' R R' T₀ kept : List (Constraint Nat)} {subs : List (Substitution Nat)}
variable {enc : SEncoded} {removed : Set Nat}

-- ---------------------------------------------------------------------------
-- Constraints as substitutions
-- ---------------------------------------------------------------------------

/-- The constraints say what the encoded substitutions and the constraints that are kept say,
if they do not contradict each other. -/
structure Resolves (p : Nat) (forbidden : SignalSet Nat) (consistent : Prop)
    (D : List (Constraint Nat)) (enc : SEncoded) (kept : List (Constraint Nat)) : Prop where
  closed : enc.Closed
  free : ∀ k ∈ enc, k ∉ forbidden ∧ Mentions D k
  brings : ∀ (k : Nat) (e : ArithmeticExpression Nat), enc[k]? = some e →
    ∀ t, e.Occurs t → t = constantCoefficient ∨ Mentions D t
  reduced : ∀ c ∈ kept, c.c.Reduced p
  left : ∀ t, Mentions kept t → t = constantCoefficient ∨ (t ∈ forbidden ∧ Mentions D t)
  forth : ∀ w : Nat → ZMod p, w constantCoefficient = 1 → (∀ c ∈ D, c.Holds w) →
    (∀ c ∈ kept, c.Holds w) ∧ enc.Holds w
  back : consistent → ∀ w : Nat → ZMod p, w constantCoefficient = 1 →
    (∀ c ∈ kept, c.Holds w) → enc.Holds w → ∀ c ∈ D, c.Holds w

/-- A split resolves its constraints. -/
theorem Splits.resolves (h : Splits p forbidden D subs kept)
    (hZero : constantCoefficient ∈ forbidden) (consistent : Prop) :
    Resolves p forbidden consistent D (buildEncodedFastSubstitutions subs) kept := by
  have hEnc := encodes_build subs
  refine ⟨hEnc.closed (fun hIn => (h.free _ hIn).1 hZero) h.separate.apart,
    fun k hk => h.free k ((hEnc.keys k).mp hk), ?_, h.reduced, h.left, ?_, ?_⟩
  · intro k e hStored t ht
    obtain ⟨s, hs, -, rfl⟩ := hEnc.entries k e hStored
    exact ((ArithmeticExpression.denotes_hashmapIntoArith (R := Int) s.to_).occurs t ht).elim .inl
      (h.signals s hs t)
  · intro w hOne hAll
    exact ((h.holds w hOne).mp hAll).imp_right (hEnc.holds hOne)
  · intro _ w hOne hKept hHolds
    exact (h.holds w hOne).mpr ⟨hKept, (hEnc.holds_iff h.separate.nodup hOne).mp hHolds⟩

/-- The substitutions of constants are by constants. -/
theorem Constants.occurs (h : Constants p forbidden D subs kept) {k : Nat}
    {e : ArithmeticExpression Nat} (hStored : (buildEncodedFastSubstitutions subs)[k]? = some e)
    {t : Nat} (ht : e.Occurs t) : t = constantCoefficient := by
  obtain ⟨s, hs, -, rfl⟩ := (encodes_build subs).entries k e hStored
  exact ((ArithmeticExpression.denotes_hashmapIntoArith (R := Int) s.to_).occurs t ht).elim id
    (h.constant s hs t)

/-- Two constants for one signal are the same if there is a solution. -/
theorem Constants.resolves (h : Constants p forbidden D subs kept)
    (hZero : constantCoefficient ∈ forbidden)
    (hConsistent : consistent → (solutions p D).Nonempty) :
    Resolves p forbidden consistent D (buildEncodedFastSubstitutions subs) kept := by
  have hEnc := encodes_build subs
  have hFree : ∀ k ∈ replaced subs, k ∉ forbidden ∧ Mentions D k := by
    rintro k ⟨s, hs, rfl⟩
    exact h.free s hs
  refine ⟨hEnc.closed (fun hIn => (hFree _ hIn).1 hZero) ?_,
    fun k hk => hFree k ((hEnc.keys k).mp hk),
    fun k e hStored t ht => .inl (h.occurs hStored ht), h.reduced, h.left,
    fun w hOne hAll => ((h.holds w hOne).mp hAll).imp_right (hEnc.holds hOne), ?_⟩
  · intro s hs t ht hIn
    rw [h.constant s hs t ht] at hIn
    exact (hFree _ hIn).1 hZero
  · intro hYes w hOne hKept hHolds
    refine (h.holds w hOne).mpr ⟨hKept, ?_⟩
    obtain ⟨v, hvOne, hv⟩ := hConsistent hYes
    have hSolved := ((h.holds v hvOne).mp hv).2
    have hSame : ∀ s ∈ subs, s.to_.eval w = s.to_.eval v := by
      intro s hs
      refine Coefficients.eval_congr fun t ht => ?_
      rw [h.constant s hs t ht, hOne, hvOne]
    intro s hs
    obtain ⟨e, hStored⟩ := Store.mem_iff.mp ((hEnc.keys s.from_).mpr ⟨s, hs, rfl⟩)
    obtain ⟨s', hs', hFrom, rfl⟩ := hEnc.entries s.from_ e hStored
    have hValue : w s.from_ = s'.to_.eval w := (hHolds s.from_ _ hStored).trans
      ((ArithmeticExpression.denotes_hashmapIntoArith s'.to_).value w hOne)
    have hLast : v s'.from_ = s'.to_.eval v := hSolved s' hs'
    have hThis : v s.from_ = s.to_.eval v := hSolved s hs
    rw [Substitution.Holds, hValue, hSame s' hs', hSame s hs, ← hThis, ← hLast, hFrom]

theorem resolves_nil (forbidden : SignalSet Nat) (consistent : Prop) :
    Resolves p forbidden consistent [] ∅ [] where
  closed := ⟨Std.ExtTreeMap.not_mem_empty, by simp, by simp⟩
  free := fun _ hk => absurd hk Std.ExtTreeMap.not_mem_empty
  brings := by simp
  reduced := by simp
  left := by simp [Mentions]
  forth := fun _ _ _ => ⟨by simp, fun _ _ hStored => by simp at hStored⟩
  back := by simp

-- ---------------------------------------------------------------------------
-- What is left of a system
-- ---------------------------------------------------------------------------

/-- `T` is left of `T₀` when the signals in `removed` are eliminated. -/
structure Remains (p : Nat) (forbidden : SignalSet Nat) (consistent : Prop)
    (T₀ T : List (Constraint Nat)) (removed : Set Nat) : Prop where
  subset : solutions p T₀ ⊆ solutions p T
  eliminates : consistent → Eliminates (solutions p T₀) (solutions p T) removed
  free : ∀ k ∈ removed, k ∉ forbidden ∧ Mentions T₀ k
  gone : ∀ t, Mentions T t → t = constantCoefficient ∨ (Mentions T₀ t ∧ t ∉ removed)
  reduced : ∀ c ∈ T, c.c.Reduced p

theorem remains_self (forbidden : SignalSet Nat) (consistent : Prop)
    (hRed : ∀ c ∈ T, c.c.Reduced p) : Remains p forbidden consistent T T ∅ :=
  ⟨subset_rfl, fun _ => eliminates_refl _, fun _ hk => absurd hk (Set.notMem_empty _),
    fun _ ht => .inr ⟨ht, Set.notMem_empty _⟩, hRed⟩

/-- Another list of constraints with the same solutions and no other signals. -/
theorem Remains.congr (h : Remains p forbidden consistent T₀ T removed)
    (hRed : ∀ c ∈ T', c.c.Reduced p)
    (hMentions : ∀ t, Mentions T' t → t = constantCoefficient ∨ Mentions T t)
    (hHolds : ∀ w : Nat → ZMod p, w constantCoefficient = 1 →
      ((∀ c ∈ T, c.Holds w) ↔ ∀ c ∈ T', c.Holds w)) :
    Remains p forbidden consistent T₀ T' removed := by
  have hSame : solutions p T = solutions p T' :=
    Set.ext fun w => and_congr_right fun hOne => hHolds w hOne
  exact ⟨hSame ▸ h.subset, hSame ▸ h.eliminates, h.free,
    fun t ht => (hMentions t ht).elim .inl (h.gone t), hRed⟩

/-- What remains may come in any order. -/
theorem Remains.perm (h : Remains p forbidden consistent T₀ T removed) (hPerm : T.Perm T') :
    Remains p forbidden consistent T₀ T' removed :=
  h.congr (fun c hc => h.reduced c (hPerm.mem_iff.mpr hc))
    (fun _ ht => .inr ((mentions_perm hPerm).mpr ht)) fun w _ => by simp only [hPerm.mem_iff]

/-- `R'` says what `R` says where the substitutions hold. It mentions no signal that is replaced,
and none that is not in `R` or in the constraints `D` that the substitutions come from. -/
structure PutToUse (p : Nat) (enc : SEncoded) (D R R' : List (Constraint Nat)) : Prop where
  reduced : ∀ c ∈ R', c.c.Reduced p
  mentions : ∀ t, Mentions R' t → t = constantCoefficient ∨ (t ∉ enc ∧ Mentions (D ++ R) t)
  holds : ∀ w : Nat → ZMod p, w constantCoefficient = 1 → enc.Holds w →
    ((∀ c ∈ R, c.Holds w) ↔ ∀ c ∈ R', c.Holds w)

/-- Substitutions are put to use in the other constraints. -/
theorem Resolves.putToUse (h : Resolves p forbidden consistent D enc kept)
    (hSub : List.Forall₂ (Substituted p enc) R R') : PutToUse p enc D R R' := by
  refine ⟨?_, ?_, ?_⟩
  · intro c' hc'
    obtain ⟨c, -, hSub⟩ := exists_item hSub hc'
    exact hSub.reduced
  · rintro t ⟨c', hc', ht⟩
    obtain ⟨c, hc, hSub⟩ := exists_item hSub hc'
    rw [mentions_append]
    rcases hSub.occurs t ht with hEq | ⟨hOld, hNot⟩ | ⟨k, e, -, hStored, hOccurs⟩
    · exact .inl hEq
    · exact .inr ⟨hNot, .inr ⟨c, hc, hOld⟩⟩
    · exact (h.brings k e hStored t hOccurs).imp_right fun hIn =>
        ⟨h.closed.apart k e hStored t hOccurs, .inl hIn⟩
  · intro w hOne hEnc
    constructor
    · intro hAll c' hc'
      obtain ⟨c, hc, hSub⟩ := exists_item hSub hc'
      exact (hSub.holds w hOne hEnc).mpr (hAll c hc)
    · intro hAll c hc
      obtain ⟨c', hc', hSub⟩ := exists_result hSub hc
      exact (hSub.holds w hOne hEnc).mp (hAll c' hc')

/-- The other constraints may come in any order. -/
theorem PutToUse.perm (h : PutToUse p enc D R R') (hPerm : R.Perm T) : PutToUse p enc D T R' where
  reduced := h.reduced
  mentions t ht := (h.mentions t ht).imp_right
    (And.imp_right (mentions_perm (hPerm.append_left D)).mp)
  holds w hOne hHolds := by
    rw [← h.holds w hOne hHolds]
    simp only [hPerm.mem_iff]

/-- What is kept is not changed by the substitutions. -/
theorem Resolves.forall₂_kept (h : Resolves p forbidden consistent D enc kept) :
    List.Forall₂ (Substituted p enc) kept kept := by
  refine List.forall₂_same.mpr fun c hc => substituted_self (h.reduced c hc) fun t ht hIn => ?_
  rcases h.left t ⟨c, hc, ht⟩ with rfl | ⟨hForbidden, -⟩
  · exact h.closed.constant hIn
  · exact (h.free t hIn).1 hForbidden

/-- Some of the constraints become substitutions, which are put to use in the others. -/
theorem Remains.resolve (h : Remains p forbidden consistent T₀ (D ++ R) removed)
    (hZero : constantCoefficient ∈ forbidden) (hRes : Resolves p forbidden consistent D enc kept)
    (hUse : PutToUse p enc D (kept ++ R) T) :
    Remains p forbidden consistent T₀ T (removed ∪ {k | k ∈ enc}) := by
  have hGone : ∀ t, Mentions T t →
      t = constantCoefficient ∨ (t ∉ enc ∧ Mentions (D ++ R) t) := by
    intro t ht
    rcases hUse.mentions t ht with hEq | ⟨hNot, hIn⟩
    · exact .inl hEq
    · rw [mentions_append, mentions_append] at hIn
      rw [mentions_append]
      rcases hIn with hIn | hIn | hIn
      · exact .inr ⟨hNot, .inl hIn⟩
      · exact (hRes.left t hIn).imp_right fun hLeft => ⟨hNot, .inl hLeft.2⟩
      · exact .inr ⟨hNot, .inr hIn⟩
  have hForth : ∀ w : Nat → ZMod p, w constantCoefficient = 1 → (∀ c ∈ D ++ R, c.Holds w) →
      (∀ c ∈ T, c.Holds w) ∧ enc.Holds w := by
    intro w hOne hAll
    rw [List.forall_mem_append] at hAll
    obtain ⟨hKept, hEnc⟩ := hRes.forth w hOne hAll.1
    exact ⟨(hUse.holds w hOne hEnc).mp (List.forall_mem_append.mpr ⟨hKept, hAll.2⟩), hEnc⟩
  refine ⟨?_, ?_, ?_, ?_, hUse.reduced⟩
  · intro w hw
    obtain ⟨hOne, hAll⟩ := h.subset hw
    exact ⟨hOne, (hForth w hOne hAll).1⟩
  · intro hYes
    refine (h.eliminates hYes).trans (eliminates_of_encoded hRes.closed ?_ ?_)
    · refine fun w hOne => ⟨hForth w hOne, ?_⟩
      rintro ⟨hAll, hEnc⟩
      have hOld := List.forall_mem_append.mp ((hUse.holds w hOne hEnc).mpr hAll)
      exact List.forall_mem_append.mpr ⟨hRes.back hYes w hOne hOld.1 hEnc, hOld.2⟩
    · intro c hc t ht
      rcases hGone t ⟨c, hc, ht⟩ with rfl | ⟨hNot, -⟩
      · exact hRes.closed.constant
      · exact hNot
  · rintro k (hk | hk)
    · exact h.free k hk
    · obtain ⟨hFree, hIn⟩ := hRes.free k hk
      refine ⟨hFree, ?_⟩
      rcases h.gone k (mentions_append.mpr (.inl hIn)) with rfl | ⟨hOld, -⟩
      · exact absurd hZero hFree
      · exact hOld
  · intro t ht
    rcases hGone t ht with rfl | ⟨hNot, hIn⟩
    · exact .inl rfl
    · refine (h.gone t hIn).imp_right fun ⟨hOld, hKept⟩ => ⟨hOld, ?_⟩
      rintro (hMem | hMem)
      · exact hKept hMem
      · exact hNot hMem

end Ganc.Circom
