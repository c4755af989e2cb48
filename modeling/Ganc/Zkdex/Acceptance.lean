import Ganc.Zkdex.Sample
import Ganc.Zkdex.StepSpec

/-!
# x/zkdex — what `SubmitBatchProof` accepts and what it does

* `Acceptable` — the conditions on the message, the stores and the verifier,
  each read off one check.
* `Applied` — the state after the update, key by key.

`submitBatchProof_exact` says that the handler accepts a message exactly when
it is `Acceptable`, that the new state is then the one that is `Applied`, and
that nothing changes otherwise.
-/

namespace Ganc.Zkdex

variable {k : Keeper}

-- ---------------------------------------------------------------------------
-- The conditions
-- ---------------------------------------------------------------------------

/-- The deposits of a batch: different ones, each with an open record. -/
structure AcceptableDeposits (s : State) (u : SettlementUpdate) : Prop where
  nonNil : none ∉ u.deposits
  distinct : u.depositIds.Nodup
  each : ∀ d, some d ∈ u.deposits → d.depositId ≠ "" ∧ ∃ record, OpenDeposit s d record

/-- The withdrawals of a batch: filled in, different ones, none of them known. -/
structure AcceptableWithdrawals (s : State) (u : SettlementUpdate) : Prop where
  nonNil : none ∉ u.withdrawals
  distinctIds : u.withdrawIds.Nodup
  distinctNullifiers : u.nullifiers.Nodup
  each : ∀ w, some w ∈ u.withdrawals → w.Filled ∧ NewWithdrawal s w

/-- A proof bundle made for these public inputs. -/
structure AcceptableBundle (k : Keeper) (proofBundle : List UInt8) (publicInputs : List String) :
    Prop where
  nonempty : proofBundle ≠ []
  parsed : ∃ bundle, k.json.unmarshalProofBundle proofBundle = .ok bundle ∧ bundle.proof ≠ "" ∧
    bundle.publicInputs = publicInputs

structure Acceptable (k : Keeper) (s : State) (req : MsgSubmitBatchProof) : Prop where
  creator : ∃ addr, k.sdk.stringToBytes req.creator = .ok addr
  inputs : ∀ input ∈ publicInputsOf req.settlementUpdate req.batchCommitments, input ≠ ""
  bundle : AcceptableBundle k req.proofBundle
    (publicInputsOf req.settlementUpdate req.batchCommitments)
  batchId : req.settlementUpdate.batchId ≠ ""
  newBatch : req.settlementUpdate.batchId ∉ s.batchRecords
  root : req.settlementUpdate.oldStateRoot = s.getStateRoot
  nonempty : ¬ (req.settlementUpdate.deposits = [] ∧ req.settlementUpdate.withdrawals = [])
  deposits : AcceptableDeposits s req.settlementUpdate
  withdrawals : AcceptableWithdrawals s req.settlementUpdate
  verified : ∃ verifier input, k.verifier = some verifier ∧
    k.buildMsgSubmitBatchProofVerifierInput req.settlementUpdate req.batchCommitments
      (publicInputsOf req.settlementUpdate req.batchCommitments) = .ok input ∧
    verifier input req.proofBundle = true

theorem mem_values {α : Type} {ps : List (Option α)} {a : α} :
    a ∈ ps.filterMap id ↔ some a ∈ ps := by
  simp

theorem nonNil_iff {α : Type} {ps : List (Option α)} :
    none ∉ ps ↔ ps = (ps.filterMap id).map some := by
  induction ps with
  | nil => simp
  | cons p ps ih =>
    cases p with
    | none =>
      refine iff_of_false (by simp) ?_
      intro h
      obtain ⟨a, ha, -⟩ := head_of_filterMap h
      cases ha
    | some a => simpa using ih

/-- The checks of the handler, in its own order, are the checks of the list. -/
theorem acceptable_iff {s : State} {req : MsgSubmitBatchProof} :
    Acceptable k s req ↔ Attested k req ∧ Validated s req.settlementUpdate := by
  constructor
  · intro h
    obtain ⟨verifier, input, hVerifier, hInput, hProof⟩ := h.verified
    refine ⟨⟨h.creator, h.bundle.nonempty, ⟨h.batchId, ?_, ?_, h.nonempty, ?_, ?_, h.inputs⟩,
      bundle_eq_ok.mpr h.bundle.parsed, input, hInput,
      verifyProof_iff.mpr ⟨verifier, hVerifier, hProof⟩⟩, ?_⟩
    · exact h.inputs _ (List.mem_cons_self ..)
    · exact h.inputs _ (List.mem_cons_of_mem _ (List.mem_cons_self ..))
    · exact fun d hd => (h.deposits.each d (mem_values.mp hd)).1
    · exact fun w hw => (h.withdrawals.each w (mem_values.mp hw)).1
    · exact {
        newBatch := h.newBatch
        root := h.root
        deposits := nonNil_iff.mp h.deposits.nonNil
        depositIds := h.deposits.distinct
        opened := fun d hd => (h.deposits.each d (mem_values.mp hd)).2
        withdrawals := nonNil_iff.mp h.withdrawals.nonNil
        withdrawIds := h.withdrawals.distinctIds
        nullifiers := h.withdrawals.distinctNullifiers
        fresh := fun w hw => (h.withdrawals.each w (mem_values.mp hw)).2 }
  · rintro ⟨hAttested, hValid⟩
    obtain ⟨input, hInput, hProof⟩ := hAttested.proof
    obtain ⟨verifier, hVerifier, hProof⟩ := verifyProof_iff.mp hProof
    have hComplete := hAttested.complete
    exact {
      creator := hAttested.creator
      inputs := hComplete.publicInputs
      bundle := ⟨hAttested.nonempty, bundle_eq_ok.mp hAttested.bundle⟩
      batchId := hComplete.batchId
      newBatch := hValid.newBatch
      root := hValid.root
      nonempty := hComplete.nonempty
      deposits := ⟨nonNil_iff.mpr hValid.deposits, hValid.depositIds, fun d hd =>
        ⟨hComplete.depositIds d (mem_values.mpr hd), hValid.opened d (mem_values.mpr hd)⟩⟩
      withdrawals := ⟨nonNil_iff.mpr hValid.withdrawals, hValid.withdrawIds, hValid.nullifiers,
        fun w hw => ⟨hComplete.withdrawals w (mem_values.mpr hw),
          hValid.fresh w (mem_values.mpr hw)⟩⟩
      verified := ⟨verifier, input, hVerifier, hInput, hProof⟩ }

-- ---------------------------------------------------------------------------
-- The update, key by key
-- ---------------------------------------------------------------------------

/-- `s'` is `s` with the update applied at the given height, and with nothing
else changed. -/
structure Applied (height : Nat) (s : State) (u : SettlementUpdate) (s' : State) : Prop where
  root : s'.stateRoot = some u.newStateRoot
  depositRecords : ∀ id : String, s'.depositRecords[id]? = s.depositRecords[id]?.map fun r =>
    if id ∈ u.depositIds then { r with processed := true } else r
  depositProcessed : ∀ id : String, s'.depositProcessed[id]? =
    if id ∈ u.depositIds then some true else s.depositProcessed[id]?
  nullifierUsed : ∀ n : String, s'.nullifierUsed[n]? =
    if n ∈ u.nullifiers then some true else s.nullifierUsed[n]?
  withdrawals : ∀ w, some w ∈ u.withdrawals → s'.withdrawRecords[w.withdrawId]? =
    some ⟨w.withdrawId, w.owner, w.denom, w.amount, w.destination, w.nullifier, false⟩
  withdrawRecords : ∀ id : String, id ∉ u.withdrawIds →
    s'.withdrawRecords[id]? = s.withdrawRecords[id]?
  batchRecords : ∀ id : String, s'.batchRecords[id]? =
    if id = u.batchId then
      some ⟨u.batchId, u.oldStateRoot, u.newStateRoot, u.depositIds, u.withdrawIds, height⟩
    else s.batchRecords[id]?
  params : s'.params = s.params
  bank : s'.bank = s.bank

/-- A settlement that passes the checks is applied in full. -/
theorem Validated.applied {s : State} {u : SettlementUpdate} (h : Validated s u) (height : Nat) :
    Applied height s u (settle height s u) where
  root := rfl
  depositRecords := get?_markAll u.depositIds s.depositRecords
  depositProcessed := Store.get?_insertMany_const s.depositProcessed u.depositIds true
  nullifierUsed := Store.get?_insertMany_const s.nullifierUsed u.nullifiers true
  withdrawals w hw := h.withdrawRecord_iff.mpr (.inl ⟨w, mem_values.mpr hw, rfl, rfl⟩)
  withdrawRecords id hid :=
    Store.get?_insertMany_of_notMem (by rwa [keys_withdrawals])
  batchRecords id := Store.get?_insert s.batchRecords u.batchId id (u.toRecord height)
  params := rfl
  bank := rfl

/-- The keys say all there is to know of the state. -/
theorem Applied.unique {height : Nat} {s s₁ s₂ : State} {u : SettlementUpdate}
    (h₁ : Applied height s u s₁) (h₂ : Applied height s u s₂) : s₁ = s₂ := by
  have hDeposits : s₁.depositRecords = s₂.depositRecords := by
    refine Std.ExtTreeMap.ext_getElem? ?_
    intro id
    rw [h₁.depositRecords, h₂.depositRecords]
  have hProcessed : s₁.depositProcessed = s₂.depositProcessed := by
    refine Std.ExtTreeMap.ext_getElem? ?_
    intro id
    rw [h₁.depositProcessed, h₂.depositProcessed]
  have hNullifiers : s₁.nullifierUsed = s₂.nullifierUsed := by
    refine Std.ExtTreeMap.ext_getElem? ?_
    intro n
    rw [h₁.nullifierUsed, h₂.nullifierUsed]
  have hBatches : s₁.batchRecords = s₂.batchRecords := by
    refine Std.ExtTreeMap.ext_getElem? ?_
    intro id
    rw [h₁.batchRecords, h₂.batchRecords]
  have hWithdrawals : s₁.withdrawRecords = s₂.withdrawRecords := by
    refine Std.ExtTreeMap.ext_getElem? ?_
    intro id
    by_cases hIn : id ∈ u.withdrawIds
    · obtain ⟨w, hw, rfl⟩ := List.mem_map.mp hIn
      rw [h₁.withdrawals w (mem_values.mp hw), h₂.withdrawals w (mem_values.mp hw)]
    · rw [h₁.withdrawRecords id hIn, h₂.withdrawRecords id hIn]
  have hRoot := h₁.root.trans h₂.root.symm
  have hParams := h₁.params.trans h₂.params.symm
  have hBank := h₁.bank.trans h₂.bank.symm
  cases s₁
  cases s₂
  simp_all

/-- **`SubmitBatchProof`, exactly.** It succeeds on the acceptable messages and
on no others; the state it then leaves is the one with the update applied and
every other key unchanged; a message that is not acceptable changes nothing. -/
theorem submitBatchProof_exact {ctx : Context} {s : State} {req : MsgSubmitBatchProof} :
    ((∃ s' r, k.submitBatchProof ctx s req = .ok (s', r)) ↔ Acceptable k s req) ∧
    (∀ s' r, k.submitBatchProof ctx s req = .ok (s', r) ↔
      Acceptable k s req ∧ Applied ctx.height s req.settlementUpdate s' ∧
      r = .submitBatchProof true (publicInputsOf req.settlementUpdate req.batchCommitments)) ∧
    (¬ Acceptable k s req → k.step s ⟨ctx, .submitBatchProof req⟩ = s) := by
  have hExact : ∀ s' r, k.submitBatchProof ctx s req = .ok (s', r) ↔
      Acceptable k s req ∧ Applied ctx.height s req.settlementUpdate s' ∧
      r = .submitBatchProof true
        (publicInputsOf req.settlementUpdate req.batchCommitments) := by
    intro s' r
    rw [submitBatchProof_eq_ok, acceptable_iff]
    constructor
    · rintro ⟨hAttested, hValid, rfl, rfl⟩
      exact ⟨⟨hAttested, hValid⟩, hValid.applied ctx.height, rfl⟩
    · rintro ⟨⟨hAttested, hValid⟩, hApplied, rfl⟩
      exact ⟨hAttested, hValid, hApplied.unique (hValid.applied ctx.height), rfl⟩
  refine ⟨?_, hExact, ?_⟩
  · constructor
    · rintro ⟨s', r, hOk⟩
      exact ((hExact s' r).mp hOk).1
    · intro h
      exact ⟨_, _, (hExact _ _).mpr ⟨h, (acceptable_iff.mp h).2.applied ctx.height, rfl⟩⟩
  · intro hNot
    refine commit_induction (P := fun s' => s' = s) rfl ?_
    intro s' r hOk
    exact absurd ((hExact s' r).mp hOk).1 hNot

section Sample

open Ganc.Zkdex.Sample Ganc.Sample

/-- Bob's forty are recorded when the batch of the sample is accepted. -/
theorem submitBatchProof_exact_sample :
    Acceptable keeper (keeper.reach bank [deposits]) ⟨carol, update, commitments, proofBundle⟩ ∧
    ∃ s', Applied 2 (keeper.reach bank [deposits]) update s' ∧
      s'.withdrawRecords["wd-1"]? =
        some ⟨"wd-1", alice, "uatom", "40", bob, "0xnullifier", false⟩ := by
  obtain ⟨⟨s', r⟩, hOk⟩ := Result.exists_of_isOk
    (x := keeper.submitBatchProof ⟨2, .ok zeros⟩ (keeper.reach bank [deposits])
      ⟨carol, update, commitments, proofBundle⟩) (by decide +kernel)
  obtain ⟨hAcceptable, hApplied, -⟩ := (submitBatchProof_exact.2.1 s' r).mp hOk
  exact ⟨hAcceptable, s', hApplied, hApplied.withdrawals _ (List.mem_cons_self ..)⟩

end Sample

end Ganc.Zkdex
