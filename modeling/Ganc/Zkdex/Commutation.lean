import Ganc.Zkdex.Custody

/-!
# x/zkdex — a pending batch and the messages of users

A batch writes the root, the nullifiers, the processed deposits, new withdraw
records and a batch record. A `Deposit` adds a record the batch cannot name,
and a `ClaimWithdraw` changes a record the batch cannot create, so the checks
of either do not see the writes of the other (`Validated.of_stores`,
`Validated.deposit`, `Validated.claim`) and the writes commute
(`settle_deposit`, `settle_claim`).
-/

namespace Ganc.Zkdex

variable {k : Keeper}

-- ---------------------------------------------------------------------------
-- The batch after a message of a user
-- ---------------------------------------------------------------------------

/-- What the checks of an update read, and may find changed: more deposit
records, and withdraw records under the same ids. -/
theorem Validated.of_stores {s s' : State} {u : SettlementUpdate} (h : Validated s u)
    (hRoot : s'.stateRoot = s.stateRoot) (hBatches : s'.batchRecords = s.batchRecords)
    (hProcessed : s'.depositProcessed = s.depositProcessed)
    (hUsed : s'.nullifierUsed = s.nullifierUsed)
    (hDeposits : ∀ (id : String) (r : DepositRecord), s.depositRecords[id]? = some r →
      s'.depositRecords[id]? = some r)
    (hWithdraws : ∀ id : String, id ∈ s'.withdrawRecords → id ∈ s.withdrawRecords) :
    Validated s' u where
  newBatch := by
    rw [hBatches]
    exact h.newBatch
  root := by
    rw [State.getStateRoot, hRoot]
    exact h.root
  deposits := h.deposits
  depositIds := h.depositIds
  opened := by
    intro d hd
    obtain ⟨record, hOpen⟩ := h.opened d hd
    refine ⟨record, ⟨hDeposits _ _ hOpen.stored, ?_, hOpen.unmarked, hOpen.owner, hOpen.denom,
      hOpen.amount⟩⟩
    rw [State.isDepositProcessed, hProcessed]
    exact hOpen.unprocessed
  withdrawals := h.withdrawals
  withdrawIds := h.withdrawIds
  nullifiers := h.nullifiers
  fresh := by
    intro w hw
    have hNew := h.fresh w hw
    refine ⟨hNew.withdrawId, hNew.destination, hNew.nullifier, ?_, ?_⟩
    · rw [State.isNullifierUsed, hUsed]
      exact hNew.unused
    · intro hMem
      exact hNew.unknown (hWithdraws _ hMem)

section Stored

variable {s : State} {u : SettlementUpdate}

/-- A settlement lists stored deposits only. -/
theorem Validated.deposit_stored (h : Validated s u) {id : String} (hId : id ∈ u.depositIds) :
    id ∈ s.depositRecords := by
  obtain ⟨d, hd, rfl⟩ := List.mem_map.mp hId
  obtain ⟨record, hOpen⟩ := h.opened d hd
  exact Store.mem_iff.mpr ⟨record, hOpen.stored⟩

/-- A settlement lists withdrawals that are not stored yet. -/
theorem Validated.withdrawal_unknown (h : Validated s u) {id : String}
    (hId : id ∈ u.withdrawIds) : id ∉ s.withdrawRecords := by
  obtain ⟨w, hw, rfl⟩ := List.mem_map.mp hId
  exact (h.fresh w hw).unknown

end Stored

/-- A new deposit does not reach the checks of a batch. -/
theorem Validated.deposit {s : State} {u : SettlementUpdate} (h : Validated s u) {id : String}
    (hFresh : id ∉ s.depositRecords) (record : DepositRecord) (bank : Bank) :
    Validated { s with
      bank := bank
      depositRecords := s.depositRecords.insert id record } u := by
  refine h.of_stores rfl rfl rfl rfl ?_ fun _ hMem => hMem
  intro id' r hr
  have hne : id' ≠ id := by
    rintro rfl
    exact hFresh (Store.mem_iff.mpr ⟨r, hr⟩)
  exact (Store.get?_insert_ne hne).trans hr

/-- Nor does a claim. -/
theorem Validated.claim {s : State} {u : SettlementUpdate} (h : Validated s u) {id : String}
    (hStored : id ∈ s.withdrawRecords) (record : WithdrawRecord) (bank : Bank) :
    Validated { s with
      bank := bank
      withdrawRecords := s.withdrawRecords.insert id record } u := by
  refine h.of_stores rfl rfl rfl rfl (fun _ _ hr => hr) ?_
  intro id' hMem
  rcases Store.mem_insert.mp hMem with rfl | hOld
  · exact hStored
  · exact hOld

-- ---------------------------------------------------------------------------
-- The message after the batch
-- ---------------------------------------------------------------------------

/-- A batch changes nothing that a deposit looks at. -/
theorem Deposited.settle {ctx : Context} {s : State} {req : MsgDeposit} {addr : AccAddress}
    {coin : Coin} {randBytes : Vector UInt8 4} {bank : Bank}
    (h : Deposited k ctx s req addr coin randBytes bank) (height : Nat) (u : SettlementUpdate) :
    Deposited k ctx (settle height s u) req addr coin randBytes bank :=
  ⟨h.toRequested, h.drawn, h.funded⟩

/-- A batch changes nothing that a claim looks at. -/
theorem Claimed.settle {s : State} {req : MsgClaimWithdraw} {addr : AccAddress}
    {record : WithdrawRecord} {coin : Coin} {bank : Bank}
    (h : Claimed k s req addr record coin bank) {u : SettlementUpdate} (hValid : Validated s u)
    (height : Nat) : Claimed k (settle height s u) req addr record coin bank :=
  ⟨⟨h.creator, h.withdrawId, hValid.withdrawRecord_iff.mpr (.inr h.stored), h.unclaimed, h.named,
    h.destination, h.parsed, h.positive⟩, h.released⟩

-- ---------------------------------------------------------------------------
-- The two orders
-- ---------------------------------------------------------------------------

/-- Marking deposits does not see a record under another id. -/
theorem markAll_insert (ids : List String) (m : Store String DepositRecord) {id : String}
    (hId : id ∉ ids) (record : DepositRecord) :
    ids.foldl markProcessed (m.insert id record) =
      (ids.foldl markProcessed m).insert id record := by
  refine Std.ExtTreeMap.ext_getElem? ?_
  intro a
  rw [get?_markAll, Store.get?_insert, Store.get?_insert, get?_markAll]
  by_cases hEq : a = id
  · subst hEq
    simp [hId]
  · rw [if_neg hEq, if_neg hEq]

/-- A settlement and a deposit that it does not list commute. -/
theorem settle_deposit {s : State} {u : SettlementUpdate} {id : String} (hId : id ∉ u.depositIds)
    (height : Nat) (record : DepositRecord) (bank : Bank) :
    settle height { s with
        bank := bank
        depositRecords := s.depositRecords.insert id record } u =
      { settle height s u with
        bank := bank
        depositRecords := (settle height s u).depositRecords.insert id record } := by
  simp only [settle, markAll_insert u.depositIds s.depositRecords hId]

/-- A settlement and a claim that is not of its withdrawals commute. -/
theorem settle_claim {s : State} {u : SettlementUpdate} {id : String} (hId : id ∉ u.withdrawIds)
    (height : Nat) (record : WithdrawRecord) (bank : Bank) :
    settle height { s with
        bank := bank
        withdrawRecords := s.withdrawRecords.insert id record } u =
      { settle height s u with
        bank := bank
        withdrawRecords := (settle height s u).withdrawRecords.insert id record } := by
  rw [← keys_withdrawals] at hId
  simp only [settle, Store.insertMany_insert record hId]

/-- A message of a user. -/
def Msg.OfUser : Msg → Prop
  | .deposit _ | .claimWithdraw _ => True
  | _ => False

/-- An accepted batch and an accepted message of a user, in both orders. -/
theorem batch_commutes {ctx ctx' : Context} {s sb sm : State} {b : MsgSubmitBatchProof}
    {m : Msg} {rb rm : Response} (hBatch : k.submitBatchProof ctx s b = .ok (sb, rb))
    (hUser : m.OfUser) (hUnused : UnusedId k s ⟨ctx', m⟩)
    (hMsg : k.handle ctx' s m = .ok (sm, rm)) :
    ∃ s', k.submitBatchProof ctx sm b = .ok (s', rb) ∧ k.handle ctx' sb m = .ok (s', rm) := by
  obtain ⟨hAttested, hValid, rfl, rfl⟩ := submitBatchProof_eq_ok.mp hBatch
  cases m with
  | updateParams req => exact hUser.elim
  | submitBatchProof req => exact hUser.elim
  | deposit req =>
    obtain ⟨addr, coin, randBytes, bank, hDeposited, rfl, rfl⟩ := deposit_eq_ok.mp hMsg
    have hFresh : depositIdOf req.creator ctx'.height randBytes ∉ s.depositRecords :=
      hUnused.of_ok hMsg
    have hId : depositIdOf req.creator ctx'.height randBytes ∉ b.settlementUpdate.depositIds :=
      fun hMem => hFresh (hValid.deposit_stored hMem)
    refine ⟨_, submitBatchProof_eq_ok.mpr ⟨hAttested, hValid.deposit hFresh _ bank, rfl, rfl⟩, ?_⟩
    rw [settle_deposit hId]
    exact deposit_eq_ok.mpr
      ⟨addr, coin, randBytes, bank, hDeposited.settle ctx.height b.settlementUpdate, rfl, rfl⟩
  | claimWithdraw req =>
    obtain ⟨addr, record, coin, bank, hClaimed, rfl, rfl⟩ := claimWithdraw_eq_ok.mp hMsg
    have hStored : req.withdrawId ∈ s.withdrawRecords := Store.mem_iff.mpr ⟨_, hClaimed.stored⟩
    have hId : req.withdrawId ∉ b.settlementUpdate.withdrawIds :=
      fun hMem => hValid.withdrawal_unknown hMem hStored
    refine ⟨_, submitBatchProof_eq_ok.mpr ⟨hAttested, hValid.claim hStored _ bank, rfl, rfl⟩, ?_⟩
    rw [settle_claim hId]
    exact claimWithdraw_eq_ok.mpr
      ⟨addr, record, coin, bank, hClaimed.settle hValid ctx.height, rfl, rfl⟩

-- ---------------------------------------------------------------------------
-- Runs
-- ---------------------------------------------------------------------------

/-- The messages of a run that are accepted, in order. -/
abbrev Keeper.admitted (k : Keeper) (s : State) (ops : List Op) : List Op :=
  Run.trace k.step (k.accepted fun ctx msg => [⟨ctx, msg⟩]) s ops

/-- A message of a user whose deposit, if it is one, draws an unused id. -/
def UserOp (k : Keeper) (s : State) (op : Op) : Prop :=
  op.msg.OfUser ∧ UnusedId k s op

/-- A batch is accepted after a user's message as it is before it. -/
theorem batch_step {ctx : Context} {b : MsgSubmitBatchProof} {rb : Response} (s sb : State)
    (op : Op) (hOp : UserOp k s op) (hBatch : k.submitBatchProof ctx s b = .ok (sb, rb)) :
    k.submitBatchProof ctx (k.step s op) b = .ok
      (Run.exec k.step sb (k.accepted (fun ctx msg => [⟨ctx, msg⟩]) s op), rb) := by
  obtain ⟨ctx', m⟩ := op
  unfold Keeper.step Keeper.accepted
  cases hMsg : k.handle ctx' s m with
  | error f => exact hBatch
  | ok p =>
    obtain ⟨sm, rm⟩ := p
    obtain ⟨s', hAfter, hBefore⟩ := batch_commutes hBatch hOp.1 hOp.2 hMsg
    have hEnd : Run.exec k.step sb [⟨ctx', m⟩] = s' := by
      show commit sb (k.handle ctx' sb m) = s'
      rw [hBefore]
      rfl
    show k.submitBatchProof ctx sm b = .ok (Run.exec k.step sb [⟨ctx', m⟩], rb)
    rw [hEnd]
    exact hAfter

/-- **A pending batch cannot be disturbed.** From any state that accepts the
batch: an accepted `Deposit` with an unused id or an accepted `ClaimWithdraw`
commutes with it, both staying accepted with the same answers; and after any
run of such messages, the refused ones among them included, the batch is
accepted with the same answer and leads where the accepted messages lead after
the batch. -/
theorem pending_batch {ctx : Context} {s sb : State} {b : MsgSubmitBatchProof} {rb : Response}
    (hBatch : k.submitBatchProof ctx s b = .ok (sb, rb)) :
    (∀ (ctx' : Context) (m : Msg) (sm : State) (rm : Response), UserOp k s ⟨ctx', m⟩ →
      k.handle ctx' s m = .ok (sm, rm) →
      ∃ s', k.submitBatchProof ctx sm b = .ok (s', rb) ∧ k.handle ctx' sb m = .ok (s', rm)) ∧
    (∀ ops : List Op, Run.Steps k.step (UserOp k) s ops →
      k.submitBatchProof ctx (Run.exec k.step s ops) b =
        .ok (Run.exec k.step sb (k.admitted s ops), rb)) := by
  refine ⟨?_, ?_⟩
  · intro ctx' m sm rm hUser hMsg
    exact batch_commutes hBatch hUser.1 hUser.2 hMsg
  · intro ops hUsers
    exact Run.exec_simulation
      (R := fun s sb => k.submitBatchProof ctx s b = .ok (sb, rb)) batch_step hUsers hBatch

section Sample

open Ganc.Zkdex.Sample Ganc.Sample

/-- A batch that credits Bob is pending while Alice deposits. -/
theorem pending_batch_sample : ∃ s sb b rb,
    keeper.submitBatchProof ⟨2, .ok zeros⟩ s b = .ok (sb, rb) ∧
    keeper.submitBatchProof ⟨2, .ok zeros⟩ (Run.exec keeper.step s [deposits]) b =
      .ok (Run.exec keeper.step sb (keeper.admitted s [deposits]), rb) := by
  have hUnused : UnusedId keeper (State.genesis bank) deposits := by
    unfold UnusedId deposits
    dsimp only
    split
    · exact Std.ExtTreeMap.not_mem_empty
    · trivial
  have hAccepted : (keeper.submitBatchProof ⟨2, .ok zeros⟩ (State.genesis bank)
      ⟨carol, { update with deposits := [] }, commitments, proofBundle⟩).isOk := by
    decide +kernel
  obtain ⟨⟨sb, rb⟩, hBatch⟩ := Result.exists_of_isOk hAccepted
  exact ⟨_, sb, _, rb, hBatch, (pending_batch hBatch).2 [deposits] ⟨⟨trivial, hUnused⟩, trivial⟩⟩

end Sample

end Ganc.Zkdex
