import Ganc.Circom.ConstraintSimplification
import Ganc.Lib.Fuel
import Mathlib.Data.Nat.Count

/-!
# circom — the numbers of the signals that are left

`rebuild_witness` goes through the signals with a queue of free numbers: a
signal that stays takes the first one and leaves its own. The queue always
holds the numbers between that of signals kept so far and the next signal, so
the signals that are kept get consecutive numbers in their order
(`rebuildWitness_rebuilt`), and the vector read back from them lists these
signals (`getWitnessAsVec_rebuildWitness`).
-/

namespace Ganc.Circom

open Fuel

variable {deleted forbidden : SignalSet Nat} {map : SignalToConstraints} {removeUnused : Bool}

/-- The signal has a number. -/
def IsKept (deleted forbidden : SignalSet Nat) (nonLinearMap : SignalToConstraints)
    (removeUnused : Bool) (t : Nat) : Prop :=
  t ∉ deleted ∧ ¬ (removeUnused ∧ t ∉ forbidden ∧ t ∉ nonLinearMap)

instance decidableIsKept : DecidablePred (IsKept deleted forbidden map removeUnused) :=
  fun t => inferInstanceAs
    (Decidable (t ∉ deleted ∧ ¬ (removeUnused ∧ t ∉ forbidden ∧ t ∉ map)))

/-- The signals below `t` have been gone through. -/
structure Rebuilt (deleted forbidden : SignalSet Nat) (nonLinearMap : SignalToConstraints)
    (removeUnused : Bool) (t : Nat) (s : Rebuild) : Prop where
  free : s.free = List.range' (Nat.count (IsKept deleted forbidden nonLinearMap removeUnused) t)
    (t - Nat.count (IsKept deleted forbidden nonLinearMap removeUnused) t)
  numbers : ∀ u i : Nat, s.map[u]? = some i ↔
    u < t ∧ IsKept deleted forbidden nonLinearMap removeUnused u ∧
      i = Nat.count (IsKept deleted forbidden nonLinearMap removeUnused) u
  deleted : ∀ u, u ∈ s.deleted ↔
    u ∈ deleted ∨ (u < t ∧ ¬ IsKept deleted forbidden nonLinearMap removeUnused u)

/-- A signal that has no number leaves it to the next ones. -/
theorem Rebuilt.skip {t : Nat} {s : Rebuild} (h : Rebuilt deleted forbidden map removeUnused t s)
    (hNot : ¬ IsKept deleted forbidden map removeUnused t) {after : SignalSet Nat}
    (hAfter : ∀ u, u ∈ after ↔ u ∈ s.deleted ∨ u = t) :
    Rebuilt deleted forbidden map removeUnused (t + 1)
      { s with deleted := after, free := s.free ++ [t] } := by
  have hLe : Nat.count (IsKept deleted forbidden map removeUnused) t ≤ t := Nat.count_le _
  have hCount : Nat.count (IsKept deleted forbidden map removeUnused) (t + 1) =
      Nat.count (IsKept deleted forbidden map removeUnused) t := by
    rw [Nat.count_succ, if_neg hNot, Nat.add_zero]
  refine ⟨?_, ?_, ?_⟩
  · show s.free ++ [t] = _
    rw [hCount, h.free, Nat.succ_sub hLe, List.range'_concat, Nat.one_mul, Nat.add_sub_of_le hLe]
  · intro u i
    refine (h.numbers u i).trans ⟨fun hOld => ⟨Nat.lt_succ_of_lt hOld.1, hOld.2⟩, ?_⟩
    rintro ⟨hu, hKept, hi⟩
    rcases Nat.lt_succ_iff_lt_or_eq.mp hu with hu | rfl
    · exact ⟨hu, hKept, hi⟩
    · exact absurd hKept hNot
  · intro u
    show u ∈ after ↔ _
    rw [hAfter, h.deleted, Nat.lt_succ_iff_lt_or_eq, or_and_right, ← or_assoc]
    refine or_congr Iff.rfl ⟨fun hu => ⟨hu, hu ▸ hNot⟩, And.left⟩

/-- A signal that is kept takes the number of signals kept before it. -/
theorem Rebuilt.keep {t : Nat} {s : Rebuild} (h : Rebuilt deleted forbidden map removeUnused t s)
    (hKept : IsKept deleted forbidden map removeUnused t) {free : List Nat}
    (hFree : free = List.range' (Nat.count (IsKept deleted forbidden map removeUnused) t + 1)
      (t - Nat.count (IsKept deleted forbidden map removeUnused) t)) :
    Rebuilt deleted forbidden map removeUnused (t + 1)
      { s with
        map := s.map.insert t (Nat.count (IsKept deleted forbidden map removeUnused) t)
        free := free } := by
  have hCount : Nat.count (IsKept deleted forbidden map removeUnused) (t + 1) =
      Nat.count (IsKept deleted forbidden map removeUnused) t + 1 := by
    rw [Nat.count_succ, if_pos hKept]
  refine ⟨?_, ?_, ?_⟩
  · show free = _
    rw [hCount, hFree, Nat.add_sub_add_right]
  · intro u i
    rw [Store.get?_insert, Nat.lt_succ_iff_lt_or_eq]
    split
    next hEq =>
      subst hEq
      simp only [Option.some.injEq, or_true, true_and, hKept]
      exact eq_comm
    next hne => rw [h.numbers, or_iff_left hne]
  · intro u
    rw [h.deleted, Nat.lt_succ_iff_lt_or_eq]
    refine ⟨Or.imp_right (And.imp_left .inl), ?_⟩
    rintro (hOld | ⟨hu | rfl, hRest⟩)
    · exact .inl hOld
    · exact .inr ⟨hu, hRest⟩
    · exact absurd hKept hRest

/-- The first free number is that of signals kept so far; the others and that of the signal
itself are free after it. -/
theorem Rebuilt.next_free {t : Nat} {s : Rebuild}
    (h : Rebuilt deleted forbidden map removeUnused t s) {position : Nat} {free : List Nat}
    (hQueue : s.free = position :: free) :
    position = Nat.count (IsKept deleted forbidden map removeUnused) t ∧
      free ++ [t] = List.range' (Nat.count (IsKept deleted forbidden map removeUnused) t + 1)
        (t - Nat.count (IsKept deleted forbidden map removeUnused) t) := by
  have hEq := hQueue.symm.trans h.free
  have hMore : t - Nat.count (IsKept deleted forbidden map removeUnused) t =
      (t - Nat.count (IsKept deleted forbidden map removeUnused) t - 1) + 1 := by
    have hLength := congrArg List.length hEq
    rw [List.length_cons, List.length_range'] at hLength
    omega
  rw [hMore, List.range'_succ, List.cons.injEq] at hEq
  refine ⟨hEq.1, ?_⟩
  rw [hMore, List.range'_concat, hEq.2]
  congr 2
  omega

/-- While no number is free every signal has been kept. -/
theorem Rebuilt.none_free {t : Nat} {s : Rebuild}
    (h : Rebuilt deleted forbidden map removeUnused t s) (hQueue : s.free = []) :
    Nat.count (IsKept deleted forbidden map removeUnused) t = t := by
  have hLe : Nat.count (IsKept deleted forbidden map removeUnused) t ≤ t := Nat.count_le _
  have hLength := congrArg List.length (hQueue.symm.trans h.free)
  rw [List.length_nil, List.length_range'] at hLength
  omega

/-- One more signal is kept or left out. -/
theorem Rebuilt.rebuildSignal {t : Nat} {s : Rebuild}
    (h : Rebuilt deleted forbidden map removeUnused t s) :
    Rebuilt deleted forbidden map removeUnused (t + 1)
      (rebuildSignal forbidden map removeUnused s t) := by
  have hDeleted : t ∈ s.deleted ↔ t ∈ deleted := by
    rw [h.deleted]
    simp
  rw [Circom.rebuildSignal]
  split
  next hIn =>
    have hAfter : ∀ u, u ∈ s.deleted ↔ u ∈ s.deleted ∨ u = t := by
      intro u
      refine ⟨.inl, ?_⟩
      rintro (hOld | rfl)
      · exact hOld
      · exact hIn
    exact h.skip (fun hKept => hKept.1 (hDeleted.mp hIn)) hAfter
  next hOut =>
    split
    next hUnused =>
      have hAfter : ∀ u, u ∈ s.deleted.insert t ↔ u ∈ s.deleted ∨ u = t := by
        intro u
        rw [Std.ExtTreeSet.mem_insert, Std.compare_eq_iff_eq, or_comm, eq_comm]
      exact h.skip (fun hKept => hKept.2 hUnused) hAfter
    next hUsed =>
      have hKept : IsKept deleted forbidden map removeUnused t :=
        ⟨fun hIn => hOut (hDeleted.mpr hIn), hUsed⟩
      split
      next position free hQueue =>
        obtain ⟨rfl, hFree⟩ := h.next_free hQueue
        exact h.keep hKept hFree
      next hQueue =>
        have hAll := h.none_free hQueue
        have hFree : s.free = List.range'
            (Nat.count (IsKept deleted forbidden map removeUnused) t + 1)
            (t - Nat.count (IsKept deleted forbidden map removeUnused) t) := by
          rw [hQueue, hAll, Nat.sub_self]
          rfl
        have hKeep := h.keep hKept hFree
        rwa [hAll] at hKeep

/-- All signals have been gone through. -/
theorem rebuildWitness_rebuilt (maxSignal : Nat) (deleted forbidden : SignalSet Nat)
    (map : SignalToConstraints) (removeUnused : Bool) :
    (∀ u i : Nat, (rebuildWitness maxSignal deleted forbidden map removeUnused).1[u]? = some i ↔
      u < maxSignal ∧ IsKept deleted forbidden map removeUnused u ∧
        i = Nat.count (IsKept deleted forbidden map removeUnused) u) ∧
    ∀ u, u ∈ (rebuildWitness maxSignal deleted forbidden map removeUnused).2 ↔
      u ∈ deleted ∨ (u < maxSignal ∧ ¬ IsKept deleted forbidden map removeUnused u) := by
  have hRun : Rebuilt deleted forbidden map removeUnused maxSignal
      ((List.range maxSignal).foldl (rebuildSignal forbidden map removeUnused)
        ⟨∅, [], deleted⟩) := by
    induction maxSignal with
    | zero => exact ⟨rfl, by simp, by simp⟩
    | succ t ih =>
      rw [List.range_succ, List.foldl_append]
      exact ih.rebuildSignal
  exact ⟨hRun.numbers, hRun.deleted⟩

/-- The signals that have a number. -/
theorem mem_rebuildWitness (maxSignal : Nat) (deleted forbidden : SignalSet Nat)
    (map : SignalToConstraints) (removeUnused : Bool) (t : Nat) :
    t ∈ (rebuildWitness maxSignal deleted forbidden map removeUnused).1 ↔
      t < maxSignal ∧ IsKept deleted forbidden map removeUnused t := by
  obtain ⟨hNumbers, -⟩ := rebuildWitness_rebuilt maxSignal deleted forbidden map removeUnused
  rw [Store.mem_iff]
  constructor
  · rintro ⟨i, hStored⟩
    obtain ⟨hLess, hKept, -⟩ := (hNumbers t i).mp hStored
    exact ⟨hLess, hKept⟩
  · rintro ⟨hLess, hKept⟩
    exact ⟨_, (hNumbers t _).mpr ⟨hLess, hKept, rfl⟩⟩

-- ---------------------------------------------------------------------------
-- The witness
-- ---------------------------------------------------------------------------

variable {P : Nat → Prop} [DecidablePred P] {signalMap : SignalMap} {m u : Nat}

/-- The signals below `m` that satisfy `P` are numbered in their order. -/
def NumberedBy (P : Nat → Prop) [DecidablePred P] (m : Nat) (signalMap : SignalMap) : Prop :=
  ∀ u i : Nat, signalMap[u]? = some i ↔ u < m ∧ P u ∧ i = Nat.count P u

/-- A signal is where its number says. -/
theorem getElem?_filter_range (hu : u < m) (hP : P u) :
    ((List.range m).filter fun t => P t)[Nat.count P u]? = some u := by
  have hSplit : List.range m = List.range u ++ u :: List.range' (u + 1) (m - u - 1) := by
    have hLength : m = u + (m - u - 1 + 1) := by omega
    conv_lhs => rw [hLength]
    rw [List.range_eq_range', ← List.range'_append_1, ← List.range_eq_range', Nat.zero_add,
      List.range'_succ]
  have hCount : ((List.range u).filter fun t => P t).length = Nat.count P u := by
    rw [← List.countP_eq_length_filter]
    rfl
  rw [hSplit, List.filter_append, ← hCount, List.getElem?_append_right (le_refl _), Nat.sub_self,
    List.filter_cons_of_pos (by simpa using hP)]
  rfl

/-- As many signals are numbered as are kept. -/
theorem NumberedBy.size (h : NumberedBy P m signalMap) :
    signalMap.size = ((List.range m).filter fun t => P t).length := by
  have hPerm : signalMap.keys.Perm ((List.range m).filter fun t => P t) := by
    rw [List.perm_ext_iff_of_nodup Std.ExtTreeMap.nodup_keys (List.nodup_range.filter _)]
    intro u
    rw [Std.ExtTreeMap.mem_keys, Store.mem_iff, List.mem_filter, List.mem_range, decide_eq_true_eq]
    constructor
    · rintro ⟨i, hStored⟩
      obtain ⟨hu, hP, -⟩ := (h u i).mp hStored
      exact ⟨hu, hP⟩
    · rintro ⟨hu, hP⟩
      exact ⟨_, (h u _).mpr ⟨hu, hP, rfl⟩⟩
  rw [← hPerm.length_eq, Std.ExtTreeMap.length_keys]

/-- The witness lists the signals that are kept, in their order. -/
theorem NumberedBy.getWitnessAsVec (h : NumberedBy P m signalMap) (order : HashOrder) :
    getWitnessAsVec order signalMap = some ((List.range m).filter fun t => P t) := by
  let signals := (List.range m).filter fun t => P t
  have hAt : ∀ entry ∈ order.arrange signalMap.toList, signals[entry.2]? = some entry.1 := by
    intro entry hIn
    obtain ⟨hu, hP, hi⟩ := (h entry.1 entry.2).mp
      (Store.mem_toList.mp ((order.perm _).mem_iff.mp hIn))
    rw [hi]
    exact getElem?_filter_range hu hP
  -- what has been placed is right, and the rest will be
  obtain ⟨witness, hOk, hLength, hPlaced, -⟩ := exists_foldlM placeSignal
    (fun witness rest => witness.length = signals.length ∧
      (∀ i u : Nat, signals[i]? = some u → witness[i]? = some u ∨ (u, i) ∈ rest) ∧
      ∀ entry ∈ rest, signals[entry.2]? = some entry.1)
    (List.replicate signalMap.size 0) (order.arrange signalMap.toList) (by
      rintro witness entry rest ⟨hLength, hPlaced, hRest⟩
      rw [List.forall_mem_cons] at hRest
      have hLess : entry.2 < witness.length :=
        hLength ▸ (List.getElem?_eq_some_iff.mp hRest.1).1
      refine ⟨witness.set entry.2 entry.1, if_pos hLess, by rw [List.length_set, hLength], ?_,
        hRest.2⟩
      intro i u hu
      rw [List.getElem?_set]
      split
      next hEq =>
        subst hEq
        exact .inl (hRest.1.symm.trans hu)
      next hne =>
        refine (hPlaced i u hu).imp_right fun hIn => ?_
        refine (List.mem_cons.mp hIn).resolve_left ?_
        rintro rfl
        exact hne rfl)
    ⟨by rw [List.length_replicate, h.size], by
      intro i u hu
      refine .inr ((order.perm _).mem_iff.mpr (Store.mem_toList.mpr ?_))
      have hMem := List.mem_of_getElem? hu
      rw [List.mem_filter, List.mem_range, decide_eq_true_eq] at hMem
      have hSame := getElem?_filter_range hMem.1 hMem.2
      obtain ⟨hi, hAtI⟩ := List.getElem?_eq_some_iff.mp hu
      obtain ⟨hj, hAtJ⟩ := List.getElem?_eq_some_iff.mp hSame
      have hEq := (List.nodup_range.filter _).getElem_inj_iff.mp (hAtI.trans hAtJ.symm)
      exact (h u i).mpr ⟨hMem.1, hMem.2, hEq⟩, hAt⟩
  have hSame : witness = signals := by
    refine List.ext_getElem hLength fun i hi hi' => ?_
    have hPlace := (hPlaced i _ (List.getElem?_eq_getElem hi')).resolve_right List.not_mem_nil
    exact (List.getElem?_eq_some_iff.mp hPlace).2
  rw [Circom.getWitnessAsVec, hOk, hSame]

/-- **The witness is compact.** Whatever signals have been deleted, a signal has a number exactly
if it has not been deleted and is forbidden or in the map (or unused signals are not to be
removed); and the vector that is read back from the numbers lists these signals, each once and
in their order, whatever order the hash map is gone through. The signals that have no number
are those that `rebuild_witness` leaves deleted. -/
theorem getWitnessAsVec_rebuildWitness (order : HashOrder) (maxSignal : Nat)
    (deleted forbidden : SignalSet Nat) (map : SignalToConstraints) (removeUnused : Bool) :
    let result := rebuildWitness maxSignal deleted forbidden map removeUnused
    getWitnessAsVec order result.1 = some ((List.range maxSignal).filter fun t =>
        IsKept deleted forbidden map removeUnused t) ∧
      (∀ t, t ∈ result.1 ↔ t < maxSignal ∧ t ∉ result.2) := by
  obtain ⟨hNumbers, hDeleted⟩ :=
    rebuildWitness_rebuilt maxSignal deleted forbidden map removeUnused
  refine ⟨NumberedBy.getWitnessAsVec hNumbers order, ?_⟩
  intro t
  rw [hDeleted, mem_rebuildWitness]
  constructor
  · rintro ⟨hLess, hKept⟩
    exact ⟨hLess, fun hOr => hOr.elim hKept.1 fun hNot => hNot.2 hKept⟩
  · rintro ⟨hLess, hNot⟩
    rw [not_or, not_and, not_not] at hNot
    exact ⟨hLess, hNot.2 hLess⟩

end Ganc.Circom
