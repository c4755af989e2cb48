import Ganc.Zkdex.Commutation
import Ganc.Zkdex.Sample

/-!
# x/zkdex — what a proof bundle binds

A batch names its public inputs in `BatchCommitments`, and the chain compares
them with those of the proof bundle. It never recomputes them from the lists
of deposits and withdrawals, so only the verifier, which is shown the lists,
can tie the one to the other. `nonMalleable_iff` says so for any verifier, and
`nonMalleable_stub_iff` what is left when the verifier accepts everything.
-/

namespace Ganc.Zkdex

variable {k : Keeper}

-- ---------------------------------------------------------------------------
-- The effect of a batch
-- ---------------------------------------------------------------------------

/-- A step from `s` to `s'` processes the deposit. -/
def Processes (s s' : State) (depositId : String) : Prop :=
  s.isDepositProcessed depositId = false ∧ s'.isDepositProcessed depositId = true

/-- What a withdraw record is worth to whom. -/
structure Entitlement where
  owner : String
  denom : String
  amount : String
  destination : String
  nullifier : String
deriving DecidableEq, Repr

def WithdrawRecord.entitlement (r : WithdrawRecord) : Entitlement :=
  ⟨r.owner, r.denom, r.amount, r.destination, r.nullifier⟩

/-- A step from `s` to `s'` creates such a withdraw record. -/
def Creates (s s' : State) (e : Entitlement) : Prop :=
  ∃ (id : String) (r : WithdrawRecord), s'.withdrawRecords[id]? = some r ∧
    id ∉ s.withdrawRecords ∧ r.entitlement = e

/-- Two accepted messages with one proof bundle have one effect. -/
def NonMalleable (k : Keeper) (s : State) : Prop :=
  ∀ (ctx ctx' : Context) (m m' : MsgSubmitBatchProof) (s₁ s₂ : State) (r₁ r₂ : Response),
    k.submitBatchProof ctx s m = .ok (s₁, r₁) → k.submitBatchProof ctx' s m' = .ok (s₂, r₂) →
    m.proofBundle = m'.proofBundle →
    (∀ id, Processes s s₁ id ↔ Processes s s₂ id) ∧ (∀ e, Creates s s₁ e ↔ Creates s s₂ e)

def SettlementUpdate.entitlements (u : SettlementUpdate) : List Entitlement :=
  u.withdrawalList.map fun w => w.toRecord.entitlement

/-- The lists of two updates ask for the same effect. -/
structure SameLists (u u' : SettlementUpdate) : Prop where
  deposits : ∀ id, id ∈ u.depositIds ↔ id ∈ u'.depositIds
  entitlements : ∀ e, e ∈ u.entitlements ↔ e ∈ u'.entitlements

section Effect

variable {s : State} {u : SettlementUpdate}

/-- A settlement processes the deposits that it lists. -/
theorem Validated.processes_iff (h : Validated s u) {height : Nat} {id : String} :
    Processes s (settle height s u) id ↔ id ∈ u.depositIds := by
  unfold Processes
  rw [isDepositProcessed_settle]
  constructor
  · rintro ⟨hOpen, hIn | hDone⟩
    · exact hIn
    · rw [hOpen] at hDone
      cases hDone
  · intro hIn
    obtain ⟨d, hd, rfl⟩ := List.mem_map.mp hIn
    obtain ⟨record, hOpen⟩ := h.opened d hd
    exact ⟨hOpen.unprocessed, .inl hIn⟩

/-- A settlement creates the entitlements that it lists. -/
theorem Validated.creates_iff (h : Validated s u) {height : Nat} {e : Entitlement} :
    Creates s (settle height s u) e ↔ e ∈ u.entitlements := by
  constructor
  · rintro ⟨id, r, hr, hNew, rfl⟩
    rcases h.withdrawRecord_iff.mp hr with ⟨w, hw, rfl, rfl⟩ | hOld
    · exact List.mem_map.mpr ⟨w, hw, rfl⟩
    · exact absurd (Store.mem_iff.mpr ⟨r, hOld⟩) hNew
  · intro hIn
    obtain ⟨w, hw, rfl⟩ := List.mem_map.mp hIn
    exact ⟨w.withdrawId, w.toRecord, h.withdrawRecord_iff.mpr (.inl ⟨w, hw, rfl, rfl⟩),
      (h.fresh w hw).unknown, rfl⟩

end Effect

-- ---------------------------------------------------------------------------
-- The checks of the chain and the verifier
-- ---------------------------------------------------------------------------

/-- All checks of `SubmitBatchProof` but the verifier's. -/
structure Passes (k : Keeper) (s : State) (m : MsgSubmitBatchProof) : Prop where
  creator : ∃ addr, k.sdk.stringToBytes m.creator = .ok addr
  nonempty : m.proofBundle ≠ []
  complete : Complete m.settlementUpdate m.batchCommitments
  bundle : k.validateProofBundlePublicInputs m.proofBundle
    (publicInputsOf m.settlementUpdate m.batchCommitments) = .ok ()
  valid : Validated s m.settlementUpdate

/-- The verifier accepts the message. -/
def Proven (k : Keeper) (m : MsgSubmitBatchProof) : Prop :=
  ∃ input, k.buildMsgSubmitBatchProofVerifierInput m.settlementUpdate m.batchCommitments
      (publicInputsOf m.settlementUpdate m.batchCommitments) = .ok input ∧
    k.verifyProof input m.proofBundle

/-- A batch is accepted exactly if it passes the chain's checks and is proven. -/
theorem accepted_iff {ctx : Context} {s s' : State} {m : MsgSubmitBatchProof} {r : Response} :
    k.submitBatchProof ctx s m = .ok (s', r) ↔ Passes k s m ∧ Proven k m ∧
      s' = settle ctx.height s m.settlementUpdate ∧
      r = .submitBatchProof true (publicInputsOf m.settlementUpdate m.batchCommitments) := by
  rw [submitBatchProof_eq_ok]
  constructor
  · rintro ⟨hAttested, hValid, hState, hAnswer⟩
    exact ⟨⟨hAttested.creator, hAttested.nonempty, hAttested.complete, hAttested.bundle, hValid⟩,
      hAttested.proof, hState, hAnswer⟩
  · rintro ⟨hPasses, hProven, hState, hAnswer⟩
    exact ⟨⟨hPasses.creator, hPasses.nonempty, hPasses.complete, hPasses.bundle, hProven⟩,
      hPasses.valid, hState, hAnswer⟩

/-- Only the verifier can keep two updates with one bundle apart. -/
theorem nonMalleable_iff {s : State} : NonMalleable k s ↔
    ∀ m m' : MsgSubmitBatchProof, Passes k s m → Passes k s m' → m.proofBundle = m'.proofBundle →
      ¬ SameLists m.settlementUpdate m'.settlementUpdate → ¬ (Proven k m ∧ Proven k m') := by
  constructor
  · rintro h m m' hPasses hPasses' hBundle hDiffer ⟨hProven, hProven'⟩
    have hContext : Context := ⟨0, .error ""⟩
    obtain ⟨hProcesses, hCreates⟩ := h hContext hContext m m' _ _ _ _
      (accepted_iff.mpr ⟨hPasses, hProven, rfl, rfl⟩)
      (accepted_iff.mpr ⟨hPasses', hProven', rfl, rfl⟩) hBundle
    refine hDiffer ⟨?_, ?_⟩
    · intro id
      exact hPasses.valid.processes_iff.symm.trans
        ((hProcesses id).trans hPasses'.valid.processes_iff)
    · intro e
      exact hPasses.valid.creates_iff.symm.trans ((hCreates e).trans hPasses'.valid.creates_iff)
  · intro h ctx ctx' m m' s₁ s₂ r₁ r₂ hOk hOk' hBundle
    obtain ⟨hPasses, hProven, rfl, -⟩ := accepted_iff.mp hOk
    obtain ⟨hPasses', hProven', rfl, -⟩ := accepted_iff.mp hOk'
    have hSame : SameLists m.settlementUpdate m'.settlementUpdate := by
      by_contra hDiffer
      exact h m m' hPasses hPasses' hBundle hDiffer ⟨hProven, hProven'⟩
    refine ⟨?_, ?_⟩
    · intro id
      rw [hPasses.valid.processes_iff, hPasses'.valid.processes_iff]
      exact hSame.deposits id
    · intro e
      rw [hPasses.valid.creates_iff, hPasses'.valid.creates_iff]
      exact hSame.entitlements e

-- ---------------------------------------------------------------------------
-- A verifier that accepts everything
-- ---------------------------------------------------------------------------

/-- Some bundle can be read that names the stored root, and some address. -/
def Readable (k : Keeper) (s : State) : Prop :=
  (∃ creator addr, k.sdk.stringToBytes creator = .ok addr) ∧
  ∃ (proofBundle : List UInt8) (bundle : AgreementProofBundle) (newStateRoot : String)
    (c : BatchCommitments), proofBundle ≠ [] ∧
    k.json.unmarshalProofBundle proofBundle = .ok bundle ∧ bundle.proof ≠ "" ∧
    bundle.publicInputs = [s.getStateRoot, newStateRoot, c.depositsRoot, c.withdrawalsRoot,
      c.nullifiersRoot, c.withdrawOutputsRoot] ∧
    ∀ input ∈ bundle.publicInputs, input ≠ ""

/-- A state in which a message passes has a bundle that can be read. -/
theorem Passes.readable {s : State} {m : MsgSubmitBatchProof} (h : Passes k s m) :
    Readable k s := by
  obtain ⟨addr, hCreator⟩ := h.creator
  obtain ⟨bundle, hRead, hProof, hInputs⟩ := bundle_eq_ok.mp h.bundle
  refine ⟨⟨m.creator, addr, hCreator⟩, m.proofBundle, bundle, m.settlementUpdate.newStateRoot,
    m.batchCommitments, h.nonempty, hRead, hProof, ?_, ?_⟩
  · rw [hInputs, publicInputsOf, h.valid.root]
  · rw [hInputs]
    exact h.complete.publicInputs

/-- To the stub verifier, every message that passes is proven. -/
theorem Passes.proven_of_stub {s : State} {m : MsgSubmitBatchProof} (h : Passes k s m)
    (hStub : k.verifier = some (stubProofVerifier true)) : Proven k m := by
  have hInput : ∃ input, k.buildMsgSubmitBatchProofVerifierInput m.settlementUpdate
      m.batchCommitments (publicInputsOf m.settlementUpdate m.batchCommitments) = .ok input := by
    rw [Keeper.buildMsgSubmitBatchProofVerifierInput, h.valid.deposits, h.valid.withdrawals,
      mapM_deref, mapM_deref]
    exact ⟨_, rfl⟩
  obtain ⟨input, hInput⟩ := hInput
  exact ⟨input, hInput, verifyProof_iff.mpr ⟨_, hStub, rfl⟩⟩

/-- A batch that credits one unit to an owner of one's choice. -/
def grab (batchId oldStateRoot newStateRoot withdrawId nullifier owner : String) :
    SettlementUpdate where
  batchId := batchId
  oldStateRoot := oldStateRoot
  newStateRoot := newStateRoot
  deposits := []
  withdrawals := [some ⟨withdrawId, owner, "uatom", "1", owner, "0x", nullifier⟩]

/-- With a bundle that can be read, the same bundle passes for any owner. -/
theorem Readable.passes {s : State} (h : Readable k s) :
    ∃ proofBundle : List UInt8, ∀ owner ≠ "", ∃ m, Passes k s m ∧ m.proofBundle = proofBundle ∧
      m.settlementUpdate.entitlements.map Entitlement.owner = [owner] := by
  obtain ⟨⟨creator, addr, hCreator⟩, proofBundle, bundle, newStateRoot, c, hNonempty, hRead,
    hProof, hInputs, hFilled⟩ := h
  obtain ⟨batchId, hBatch, hBatchId⟩ := s.batchRecords.exists_notMem [""]
  obtain ⟨withdrawId, hWithdraw, hWithdrawId⟩ := s.withdrawRecords.exists_notMem [""]
  obtain ⟨nullifier, hUnused, hNullifier⟩ := s.nullifierUsed.exists_notMem [""]
  rw [List.mem_singleton] at hBatchId hWithdrawId hNullifier
  refine ⟨proofBundle, ?_⟩
  intro owner hOwner
  refine ⟨⟨creator, grab batchId s.getStateRoot newStateRoot withdrawId nullifier owner, c,
    proofBundle⟩, ⟨⟨addr, hCreator⟩, hNonempty, ?_, ?_, ?_⟩, rfl, rfl⟩
  · rw [hInputs] at hFilled
    refine ⟨hBatchId, ?_, ?_, ?_, ?_, ?_, hFilled⟩
    · exact hFilled s.getStateRoot (by simp)
    · exact hFilled newStateRoot (by simp)
    · simp [grab]
    · intro d hd
      exact absurd hd List.not_mem_nil
    · intro w hw
      obtain rfl := List.mem_singleton.mp hw
      exact ⟨hOwner, (by decide : "uatom" ≠ ""), (by decide : "1" ≠ ""), (by decide : "0x" ≠ "")⟩
  · exact bundle_eq_ok.mpr ⟨bundle, hRead, hProof, hInputs⟩
  · refine ⟨hBatch, rfl, rfl, List.nodup_nil, ?_, rfl, List.nodup_singleton _,
      List.nodup_singleton _, ?_⟩
    · intro d hd
      exact absurd hd List.not_mem_nil
    · intro w hw
      obtain rfl := List.mem_singleton.mp hw
      refine ⟨hWithdrawId, hOwner, hNullifier, ?_, hWithdraw⟩
      show s.nullifierUsed[nullifier]?.getD false = false
      rw [Store.notMem_iff.mp hUnused]
      rfl

/-- With a verifier that accepts everything there is no state in which a bundle
binds anything, unless no bundle is accepted at all. -/
theorem nonMalleable_stub_iff {s : State} (hStub : k.verifier = some (stubProofVerifier true)) :
    NonMalleable k s ↔ ¬ Readable k s := by
  rw [nonMalleable_iff]
  constructor
  · intro h hReadable
    obtain ⟨proofBundle, hAll⟩ := hReadable.passes
    obtain ⟨m, hPasses, hBundle, hOwner⟩ := hAll "a" (by decide)
    obtain ⟨m', hPasses', hBundle', hOwner'⟩ := hAll "b" (by decide)
    refine h m m' hPasses hPasses' (hBundle.trans hBundle'.symm) ?_
      ⟨hPasses.proven_of_stub hStub, hPasses'.proven_of_stub hStub⟩
    intro hSame
    have hIn : "a" ∈ m.settlementUpdate.entitlements.map Entitlement.owner := by
      rw [hOwner]
      exact List.mem_singleton_self _
    obtain ⟨e, he, hEq⟩ := List.mem_map.mp hIn
    have hIn' := List.mem_map_of_mem (f := Entitlement.owner) ((hSame.entitlements e).mp he)
    rw [hEq, hOwner'] at hIn'
    exact absurd hIn' (by decide)
  · intro hNot m m' hPasses
    exact absurd hPasses.readable hNot

/-- **What a bundle binds.** In every state, two accepted messages with the same
proof bundle have the same effect exactly when the verifier refuses one of any
two messages that pass the checks of the chain with one bundle and list
different deposits or withdrawals; with the verifier the module is wired with,
exactly when no bundle that names the stored root can be read. -/
theorem bundle_binds_iff (k : Keeper) (s : State) :
    (NonMalleable k s ↔
      ∀ m m' : MsgSubmitBatchProof, Passes k s m → Passes k s m' →
        m.proofBundle = m'.proofBundle →
        ¬ SameLists m.settlementUpdate m'.settlementUpdate → ¬ (Proven k m ∧ Proven k m')) ∧
    (k.verifier = some (stubProofVerifier true) → (NonMalleable k s ↔ ¬ Readable k s)) :=
  ⟨nonMalleable_iff, nonMalleable_stub_iff⟩

section Sample

open Ganc.Zkdex.Sample Ganc.Sample

/-- The keeper with the verifier the module is wired with. -/
def wired : Keeper := { keeper with verifier := some (stubProofVerifier true) }

/-- The batch of the relayer, and one of Alice's own that reuses its bundle. -/
theorem bundle_reused : ¬ NonMalleable wired (wired.reach bank [deposits]) := by
  intro h
  have hRelayer : (wired.submitBatchProof ⟨2, .ok zeros⟩ (wired.reach bank [deposits])
      ⟨carol, update, commitments, proofBundle⟩).isOk := by
    decide +kernel
  have hAlice : (wired.submitBatchProof ⟨2, .ok zeros⟩ (wired.reach bank [deposits])
      ⟨alice, grab "batch-2" "0xrootA" "0xrootB" "wd-2" "0x2" alice, commitments,
        proofBundle⟩).isOk := by
    decide +kernel
  obtain ⟨⟨s₁, r₁⟩, hOk⟩ := Result.exists_of_isOk hRelayer
  obtain ⟨⟨s₂, r₂⟩, hOk'⟩ := Result.exists_of_isOk hAlice
  obtain ⟨hPasses, hProven, -⟩ := accepted_iff.mp hOk
  obtain ⟨hPasses', hProven', -⟩ := accepted_iff.mp hOk'
  refine nonMalleable_iff.mp h _ _ hPasses hPasses' rfl ?_ ⟨hProven, hProven'⟩
  intro hSame
  -- the relayer's batch processes Alice's deposit, hers does not
  exact List.not_mem_nil ((hSame.deposits (depositIdOf alice 1 zeros)).mp
    (List.mem_singleton_self _))

end Sample

end Ganc.Zkdex
