import Ganc.Zkdex.StepSpec

/-!
# x/zkdex — nullifiers

`NullifierInv` ties the map of used nullifiers to the withdraw records. Only
`SubmitBatchProof` adds to either, and it adds the same nullifiers to both,
each of them unused and none of them twice; `ClaimWithdraw` changes a flag of
one record. So the invariant survives every step from any state that has it,
and no nullifier is accepted twice along a run.
-/

namespace Ganc.Zkdex

variable {k : Keeper}

-- ---------------------------------------------------------------------------
-- The invariant
-- ---------------------------------------------------------------------------

structure NullifierInv (s : State) : Prop where
  used : ∀ n, s.isNullifierUsed n = true ↔
    ∃ (id : String) (r : WithdrawRecord), s.withdrawRecords[id]? = some r ∧ r.nullifier = n
  distinct : ∀ (id id' : String) (r r' : WithdrawRecord), s.withdrawRecords[id]? = some r →
    s.withdrawRecords[id']? = some r' → id ≠ id' → r.nullifier ≠ r'.nullifier
  own : ∀ (id : String) (r : WithdrawRecord), s.withdrawRecords[id]? = some r →
    r.withdrawId = id ∧ r.nullifier ≠ "" ∧ r.destination ≠ ""

/-- The invariant is about the nullifiers and the withdrawals only. -/
theorem NullifierInv.of_stores {s s' : State} (h : NullifierInv s)
    (hUsed : s'.nullifierUsed = s.nullifierUsed)
    (hRecords : s'.withdrawRecords = s.withdrawRecords) : NullifierInv s' := by
  obtain ⟨hUse, hDistinct, hOwn⟩ := h
  constructor
  · intro n
    rw [State.isNullifierUsed, hUsed, hRecords]
    exact hUse n
  · rw [hRecords]
    exact hDistinct
  · rw [hRecords]
    exact hOwn

/-- Changing records without touching their ids, nullifiers and destinations. -/
theorem NullifierInv.of_map {s s' : State} (h : NullifierInv s) (f : String → WithdrawRecord →
      WithdrawRecord)
    (hId : ∀ id r, (f id r).withdrawId = r.withdrawId)
    (hNullifier : ∀ id r, (f id r).nullifier = r.nullifier)
    (hDestination : ∀ id r, (f id r).destination = r.destination)
    (hUsed : s'.nullifierUsed = s.nullifierUsed)
    (hRecords : ∀ id : String, s'.withdrawRecords[id]? = s.withdrawRecords[id]?.map (f id)) :
    NullifierInv s' := by
  have hOf : ∀ (id : String) (r : WithdrawRecord), s'.withdrawRecords[id]? = some r →
      ∃ r₀, s.withdrawRecords[id]? = some r₀ ∧ f id r₀ = r := by
    intro id r hr
    rw [hRecords] at hr
    exact Option.map_eq_some_iff.mp hr
  constructor
  · intro n
    rw [State.isNullifierUsed, hUsed]
    refine (h.used n).trans ⟨?_, ?_⟩
    · rintro ⟨id, r, hr, rfl⟩
      refine ⟨id, f id r, ?_, hNullifier id r⟩
      rw [hRecords, hr]
      rfl
    · rintro ⟨id, r, hr, rfl⟩
      obtain ⟨r₀, hr₀, rfl⟩ := hOf id r hr
      exact ⟨id, r₀, hr₀, (hNullifier id r₀).symm⟩
  · intro id id' r r' hr hr' hne
    obtain ⟨r₀, hr₀, rfl⟩ := hOf id r hr
    obtain ⟨r₀', hr₀', rfl⟩ := hOf id' r' hr'
    rw [hNullifier, hNullifier]
    exact h.distinct id id' r₀ r₀' hr₀ hr₀' hne
  · intro id r hr
    obtain ⟨r₀, hr₀, rfl⟩ := hOf id r hr
    rw [hId, hNullifier, hDestination]
    exact h.own id r₀ hr₀

/-- Two withdrawals of one update with the same nullifier are one. -/
theorem Validated.withdrawal_eq {s : State} {u : SettlementUpdate} (h : Validated s u)
    {w w' : SettlementWithdrawal} (hw : w ∈ u.withdrawalList) (hw' : w' ∈ u.withdrawalList)
    (hEq : w.nullifier = w'.nullifier) : w = w' :=
  List.inj_on_of_nodup_map h.nullifiers hw hw' hEq

/-- A settlement lists unused nullifiers only. -/
theorem Validated.nullifier_unused {s : State} {u : SettlementUpdate} (h : Validated s u)
    {n : String} (hn : n ∈ u.nullifiers) : s.isNullifierUsed n = false := by
  obtain ⟨w, hw, rfl⟩ := List.mem_map.mp hn
  exact (h.fresh w hw).unused

/-- A settlement keeps the invariant. -/
theorem NullifierInv.settle {s : State} {u : SettlementUpdate} (h : NullifierInv s)
    (hValid : Validated s u) (height : Nat) : NullifierInv (settle height s u) := by
  -- a withdrawal of the update never meets the nullifier of an old record
  have hApart : ∀ w ∈ u.withdrawalList, ∀ (id : String) (r : WithdrawRecord),
      s.withdrawRecords[id]? = some r → w.nullifier ≠ r.nullifier := by
    intro w hw id r hr hEq
    have hUsed := (h.used r.nullifier).mpr ⟨id, r, hr, rfl⟩
    rw [← hEq, (hValid.fresh w hw).unused] at hUsed
    cases hUsed
  constructor
  · intro n
    rw [isNullifierUsed_settle, h.used]
    constructor
    · rintro (hNew | ⟨id, r, hr, rfl⟩)
      · obtain ⟨w, hw, rfl⟩ := List.mem_map.mp hNew
        exact ⟨w.withdrawId, w.toRecord,
          hValid.withdrawRecord_iff.mpr (.inl ⟨w, hw, rfl, rfl⟩), rfl⟩
      · exact ⟨id, r, hValid.withdrawRecord_iff.mpr (.inr hr), rfl⟩
    · rintro ⟨id, r, hr, rfl⟩
      rcases hValid.withdrawRecord_iff.mp hr with ⟨w, hw, rfl, rfl⟩ | hOld
      · exact .inl (List.mem_map.mpr ⟨w, hw, rfl⟩)
      · exact .inr ⟨id, r, hOld, rfl⟩
  · intro id id' r r' hr hr' hne hEq
    rcases hValid.withdrawRecord_iff.mp hr with ⟨w, hw, rfl, rfl⟩ | hOld
    · rcases hValid.withdrawRecord_iff.mp hr' with ⟨w', hw', rfl, rfl⟩ | hOld'
      · exact hne (by rw [hValid.withdrawal_eq hw hw' hEq])
      · exact hApart w hw id' r' hOld' hEq
    · rcases hValid.withdrawRecord_iff.mp hr' with ⟨w', hw', rfl, rfl⟩ | hOld'
      · exact hApart w' hw' id r hOld hEq.symm
      · exact h.distinct id id' r r' hOld hOld' hne hEq
  · intro id r hr
    rcases hValid.withdrawRecord_iff.mp hr with ⟨w, hw, rfl, rfl⟩ | hOld
    · exact ⟨rfl, (hValid.fresh w hw).nullifier, (hValid.fresh w hw).destination⟩
    · exact h.own id r hOld

-- ---------------------------------------------------------------------------
-- Steps and runs
-- ---------------------------------------------------------------------------

/-- Every step keeps the invariant. -/
theorem nullifierInv_step (k : Keeper) (s : State) (op : Op) (h : NullifierInv s) :
    NullifierInv (k.step s op) := by
  obtain ⟨ctx, msg⟩ := op
  refine step_induction h ?_
  intro s' hEffect
  cases hEffect with
  | updateParams => exact h.of_stores rfl rfl
  | deposit => exact h.of_stores rfl rfl
  | submitBatchProof hValid => exact h.settle hValid ctx.height
  | @claimWithdraw req _ _ _ _ hClaimed =>
    refine h.of_map (fun id r => if id = req.withdrawId then { r with claimed := true } else r)
      ?_ ?_ ?_ rfl hClaimed.get?
    · intro id r
      split <;> rfl
    · intro id r
      split <;> rfl
    · intro id r
      split <;> rfl

/-- It holds at genesis, where nothing is used. -/
theorem nullifierInv_genesis (bank : Bank) : NullifierInv (State.genesis bank) := by
  constructor
  · intro n
    simp [State.isNullifierUsed, State.genesis, State.empty]
  · intro id id' r r' hr
    simp [State.genesis, State.empty] at hr
  · intro id r hr
    simp [State.genesis, State.empty] at hr

def nullifiersOf (_ : Context) : Msg → List String
  | .submitBatchProof req => req.settlementUpdate.nullifiers
  | _ => []

/-- The nullifiers of all withdrawals a run accepts, in order. -/
abbrev Keeper.nullifiers (k : Keeper) (s : State) (ops : List Op) : List String :=
  Run.trace k.step (k.accepted nullifiersOf) s ops

/-- The record of a run has no nullifier twice, and the map has all of them. -/
theorem spent_step (k : Keeper) (record : List String) (s : State) (op : Op)
    (h : record.Nodup ∧ ∀ n ∈ record, s.isNullifierUsed n = true) :
    (record ++ k.accepted nullifiersOf s op).Nodup ∧
      ∀ n ∈ record ++ k.accepted nullifiersOf s op, (k.step s op).isNullifierUsed n = true := by
  obtain ⟨hNodup, hUsed⟩ := h
  obtain ⟨ctx, msg⟩ := op
  have hKeep : (record ++ []).Nodup ∧ ∀ n ∈ record ++ [], s.isNullifierUsed n = true := by
    rw [List.append_nil]
    exact ⟨hNodup, hUsed⟩
  refine accepted_induction (P := fun new s' => (record ++ new).Nodup ∧
    ∀ n ∈ record ++ new, s'.isNullifierUsed n = true) hKeep ?_
  intro s' hEffect
  cases hEffect with
  | submitBatchProof hValid =>
    refine ⟨List.nodup_append.mpr ⟨hNodup, hValid.nullifiers, ?_⟩, ?_⟩
    · rintro n hOld n' hNew rfl
      have hFalse := hValid.nullifier_unused hNew
      rw [hUsed n hOld] at hFalse
      cases hFalse
    · intro n hn
      rw [isNullifierUsed_settle]
      exact (List.mem_append.mp hn).symm.imp_right (hUsed n)
  | _ => exact hKeep

/-- **Nullifiers.** The invariant survives every message, accepted or rejected,
whatever the verifier; it holds of every state reachable from the default
genesis; and along such a run no nullifier is spent by two withdrawals. -/
theorem nullifier_invariant (k : Keeper) :
    (∀ (s : State) (op : Op), NullifierInv s → NullifierInv (k.step s op)) ∧
    (∀ (bank : Bank) (ops : List Op), NullifierInv (k.reach bank ops)) ∧
    (∀ (s : State) (ops : List Op), (k.nullifiers s ops).Nodup) := by
  refine ⟨nullifierInv_step k, ?_, ?_⟩
  · intro bank ops
    exact Run.exec_invariant (nullifierInv_step k) ops (nullifierInv_genesis bank)
  · intro s ops
    have hInit : ([] : List String).Nodup ∧ ∀ n ∈ [], s.isNullifierUsed n = true := by simp
    exact (Run.exec_trace (P := fun record (s : State) => record.Nodup ∧
      ∀ n ∈ record, s.isNullifierUsed n = true) (spent_step k) ops hInit).1

end Ganc.Zkdex
