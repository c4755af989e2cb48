import Ganc.Zkdex.Commutation
import Ganc.Zkdex.Nullifiers
import Ganc.Zkdex.Roots

/-!
# x/zkdex — export and restart

`ExportGenesis` writes out the parameters and the root, and no record. So a
restart keeps the place in the chain of roots and forgets all the rest:
`Since` says what the stores know of a run from a state without records, and
after a restart it is all they know (`restart_forgets`).
-/

namespace Ganc.Zkdex

variable {k : Keeper}

-- ---------------------------------------------------------------------------
-- The restarted state
-- ---------------------------------------------------------------------------

/-- What a restart makes of a state. -/
def State.restarted (s : State) : State :=
  { State.empty s.bank with params := s.params, stateRoot := some s.getStateRoot }

/-- Import after export keeps the parameters, the root and the balances only. -/
theorem initGenesis_exportGenesis {s : State} (h : s.params.isSome) :
    exportGenesis s >>= initGenesis (State.empty s.bank) = .ok s.restarted := by
  obtain ⟨params, hParams⟩ := Option.isSome_iff_exists.mp h
  rw [exportGenesis, State.restarted, hParams]
  rfl

theorem params_step (k : Keeper) (s : State) (op : Op) (h : s.params.isSome) :
    (k.step s op).params.isSome := by
  obtain ⟨ctx, msg⟩ := op
  refine step_induction (P := fun s' => s'.params.isSome) h ?_
  intro s' hEffect
  cases hEffect with
  | updateParams => rfl
  | _ => exact h

/-- Every state has parameters. -/
theorem params_reach (k : Keeper) (bank : Bank) (ops : List Op) :
    (k.reach bank ops).params.isSome :=
  Run.exec_invariant (I := fun s : State => s.params.isSome) (params_step k) ops rfl

-- ---------------------------------------------------------------------------
-- What the stores know of a run
-- ---------------------------------------------------------------------------

namespace Op

/-- The updates an operation settles once it is accepted. -/
def updates : Op → List SettlementUpdate
  | ⟨_, .submitBatchProof req⟩ => [req.settlementUpdate]
  | _ => []

/-- The deposit ids it draws. -/
def drawn : Op → List String
  | ⟨ctx, .deposit req⟩ => match ctx.rand with
    | .ok randBytes => [depositIdOf req.creator ctx.height randBytes]
    | .error _ => []
  | _ => []

/-- The batch records it leaves. -/
def batches (op : Op) : List BatchRecord :=
  op.updates.map fun u => u.toRecord op.ctx.height

end Op

/-- The stores after the accepted operations `ops`, started without records
and from `root`. -/
structure Since (root : String) (ops : List Op) (s : State) : Prop where
  roots : Chained root (ops.flatMap Op.batches) s.getStateRoot
  batchIds : ∀ id, id ∈ s.batchRecords ↔
    id ∈ (ops.flatMap Op.updates).map SettlementUpdate.batchId
  nullifiers : ∀ n, s.isNullifierUsed n = true ↔
    n ∈ (ops.flatMap Op.updates).flatMap SettlementUpdate.nullifiers
  processed : ∀ id, s.isDepositProcessed id = true ↔
    id ∈ (ops.flatMap Op.updates).flatMap SettlementUpdate.depositIds
  credited : ∀ id, id ∈ s.withdrawRecords ↔
    id ∈ (ops.flatMap Op.updates).flatMap SettlementUpdate.withdrawIds
  deposited : ∀ id, id ∈ s.depositRecords ↔ id ∈ ops.flatMap Op.drawn

/-- A restarted chain has the old root and no records. -/
theorem since_restarted (s : State) : Since s.getStateRoot [] s.restarted := by
  constructor
  case roots => rfl
  all_goals
    intro id
    simp [State.restarted, State.empty, State.isNullifierUsed, State.isDepositProcessed]

/-- An operation that settles nothing. -/
theorem Since.keep {root : String} {ops : List Op} {s s' : State} (h : Since root ops s) {op : Op}
    (hUpdates : op.updates = []) (hRoot : s'.stateRoot = s.stateRoot)
    (hBatches : s'.batchRecords = s.batchRecords) (hUsed : s'.nullifierUsed = s.nullifierUsed)
    (hProcessed : s'.depositProcessed = s.depositProcessed)
    (hCredited : ∀ id : String, id ∈ s'.withdrawRecords ↔ id ∈ s.withdrawRecords)
    (hDeposited : ∀ id : String, id ∈ s'.depositRecords ↔ id ∈ s.depositRecords ∨ id ∈ op.drawn) :
    Since root (ops ++ [op]) s' := by
  have hSame : (ops ++ [op]).flatMap Op.updates = ops.flatMap Op.updates := by
    rw [List.flatMap_append, List.flatMap_singleton, hUpdates, List.append_nil]
  have hBatch : op.batches = [] := by rw [Op.batches, hUpdates, List.map_nil]
  constructor
  · rw [List.flatMap_append, List.flatMap_singleton, hBatch, List.append_nil, State.getStateRoot,
      hRoot]
    exact h.roots
  · rw [hSame, hBatches]
    exact h.batchIds
  · intro n
    rw [hSame, State.isNullifierUsed, hUsed]
    exact h.nullifiers n
  · intro id
    rw [hSame, State.isDepositProcessed, hProcessed]
    exact h.processed id
  · intro id
    rw [hSame, hCredited]
    exact h.credited id
  · intro id
    rw [hDeposited, h.deposited, List.flatMap_append, List.flatMap_singleton, List.mem_append]

/-- A settlement after the restart is one more of the records since. -/
theorem Since.settle {root : String} {ops : List Op} {s : State} (h : Since root ops s)
    {ctx : Context} {req : MsgSubmitBatchProof} (hValid : Validated s req.settlementUpdate) :
    Since root (ops ++ [⟨ctx, .submitBatchProof req⟩])
      (settle ctx.height s req.settlementUpdate) := by
  have hUpdates : (ops ++ [(⟨ctx, .submitBatchProof req⟩ : Op)]).flatMap Op.updates =
      ops.flatMap Op.updates ++ [req.settlementUpdate] := by
    rw [List.flatMap_append, List.flatMap_singleton]
    rfl
  constructor
  · rw [List.flatMap_append, List.flatMap_singleton]
    exact h.roots.snoc hValid.root
  · intro id
    rw [hUpdates, List.map_append, List.mem_append, ← h.batchIds, or_comm]
    refine Store.mem_insert.trans (or_congr_left ?_)
    exact List.mem_singleton.symm
  · intro n
    rw [hUpdates, List.flatMap_append, List.flatMap_singleton, List.mem_append, ← h.nullifiers,
      or_comm]
    exact isNullifierUsed_settle
  · intro id
    rw [hUpdates, List.flatMap_append, List.flatMap_singleton, List.mem_append, ← h.processed,
      or_comm]
    exact isDepositProcessed_settle
  · intro id
    rw [hUpdates, List.flatMap_append, List.flatMap_singleton, List.mem_append, ← h.credited,
      or_comm, ← keys_withdrawals]
    exact Store.mem_insertMany
  · intro id
    rw [List.flatMap_append, List.flatMap_singleton, List.mem_append, ← h.deposited]
    exact mem_markAll.trans (or_iff_left List.not_mem_nil).symm

/-- Every step after the restart adds to the records since. -/
theorem since_step (k : Keeper) {root : String} (ops : List Op) (s : State) (op : Op)
    (h : Since root ops s) :
    Since root (ops ++ k.accepted (fun ctx msg => [⟨ctx, msg⟩]) s op) (k.step s op) := by
  obtain ⟨ctx, msg⟩ := op
  refine accepted_induction (P := fun new s' => Since root (ops ++ new) s') ?_ ?_
  · rwa [List.append_nil]
  intro s' hEffect
  -- an operation that draws no id
  have hDraws : ∀ {op : Op} {s' : State}, op.drawn = [] → s'.depositRecords = s.depositRecords →
      ∀ id : String, id ∈ s'.depositRecords ↔ id ∈ s.depositRecords ∨ id ∈ op.drawn := by
    intro op s' hDrawn hSame id
    rw [hDrawn, hSame]
    exact (or_iff_left List.not_mem_nil).symm
  cases hEffect with
  | updateParams => exact h.keep rfl rfl rfl rfl rfl (fun _ => Iff.rfl) (hDraws rfl rfl)
  | submitBatchProof hValid => exact h.settle hValid
  | @deposit req addr coin randBytes bank hDeposited =>
    refine h.keep rfl rfl rfl rfl rfl (fun _ => Iff.rfl) ?_
    intro id
    have hDrawn : Op.drawn ⟨ctx, .deposit req⟩ =
        [depositIdOf req.creator ctx.height randBytes] := by
      simp only [Op.drawn, hDeposited.drawn]
    rw [hDrawn, List.mem_singleton, or_comm]
    exact Store.mem_insert
  | claimWithdraw hClaimed =>
    refine h.keep rfl rfl rfl rfl rfl ?_ (hDraws rfl rfl)
    intro id
    refine Store.mem_insert.trans (or_iff_right_of_imp ?_)
    rintro rfl
    exact Store.mem_iff.mpr ⟨_, hClaimed.stored⟩

/-- Every run after the restart has records since the restart only. -/
theorem since_run (k : Keeper) (s : State) (post : List Op) :
    Since s.getStateRoot (k.admitted s.restarted post) (Run.exec k.step s.restarted post) :=
  Run.exec_trace (P := Since s.getStateRoot) (since_step k) post (since_restarted s)

-- ---------------------------------------------------------------------------
-- Runs after a restart
-- ---------------------------------------------------------------------------

/-- **A restart forgets the records.** From every reachable state, exporting and
importing succeeds and keeps the parameters, the root and the bank. In every run
that follows, the batches go on from that root, the stores know of the
operations of this run and of no others, a `ClaimWithdraw` is accepted only of
a withdrawal and a batch only with deposits of this run. -/
theorem restart_forgets (k : Keeper) (bank : Bank) (ops : List Op) :
    exportGenesis (k.reach bank ops) >>= initGenesis (State.empty (k.reach bank ops).bank) =
      .ok (k.reach bank ops).restarted ∧
    (∀ post : List Op, Since (k.reach bank ops).getStateRoot
      (k.admitted (k.reach bank ops).restarted post)
      (Run.exec k.step (k.reach bank ops).restarted post)) ∧
    (∀ (post : List Op) (req : MsgClaimWithdraw) (s' : State) (r : Response),
      k.claimWithdraw (Run.exec k.step (k.reach bank ops).restarted post) req = .ok (s', r) →
      req.withdrawId ∈ ((k.admitted (k.reach bank ops).restarted post).flatMap
        Op.updates).flatMap SettlementUpdate.withdrawIds) ∧
    (∀ (post : List Op) (ctx : Context) (req : MsgSubmitBatchProof) (s' : State) (r : Response),
      k.submitBatchProof ctx (Run.exec k.step (k.reach bank ops).restarted post) req =
        .ok (s', r) →
      ∀ id ∈ req.settlementUpdate.depositIds,
        id ∈ (k.admitted (k.reach bank ops).restarted post).flatMap Op.drawn) := by
  refine ⟨initGenesis_exportGenesis (params_reach k bank ops), ?_, ?_, ?_⟩
  · intro post
    exact since_run k _ post
  · intro post req s' r hOk
    obtain ⟨addr, record, coin, bank', hClaimed, -⟩ := claimWithdraw_eq_ok.mp hOk
    exact ((since_run k _ post).credited _).mp (Store.mem_iff.mpr ⟨_, hClaimed.stored⟩)
  · intro post ctx req s' r hOk id hId
    obtain ⟨-, hValid, -⟩ := submitBatchProof_eq_ok.mp hOk
    exact ((since_run k _ post).deposited id).mp (hValid.deposit_stored hId)

section Sample

open Ganc.Zkdex.Sample Ganc.Sample

/-- The keeper that can read the bundle of a second batch. -/
def replaying : Keeper := { keeper with json := reading [bundle, returnBundle] }

/-- The first batch, its ids and its nullifier once more, from the root it left. -/
def replay : Op := ⟨⟨4, .ok zeros⟩, .submitBatchProof ⟨carol,
  { update with oldStateRoot := "0xrootB", newStateRoot := "0xrootA", deposits := [] },
  commitments, encoded returnBundle⟩⟩

/-- After a restart the used nullifier and the batch id are accepted again, Bob
cannot claim the withdrawal that was his to claim, and Alice's open deposit
cannot be settled. -/
theorem restart_loses :
    (∃ s s', s = replaying.reach bank [deposits, settles] ∧
      exportGenesis s >>= initGenesis (State.empty s.bank) = .ok s' ∧
      s.isNullifierUsed "0xnullifier" = true ∧ "batch-1" ∈ s.batchRecords ∧
      replaying.nullifiers s' [replay] = ["0xnullifier"] ∧
      (replaying.batches s' [replay]).map BatchRecord.batchId = ["batch-1"] ∧
      (replaying.claimWithdraw s ⟨bob, "wd-1"⟩).isOk = true ∧
      (replaying.claimWithdraw s' ⟨bob, "wd-1"⟩).isOk = false) ∧
    (∃ s s', s = replaying.reach bank [deposits] ∧
      exportGenesis s >>= initGenesis (State.empty s.bank) = .ok s' ∧
      (replaying.handle settles.ctx s settles.msg).isOk = true ∧
      (replaying.handle settles.ctx s' settles.msg).isOk = false) := by
  refine ⟨⟨_, _, rfl, initGenesis_exportGenesis (params_reach _ _ _), ?_⟩,
    ⟨_, _, rfl, initGenesis_exportGenesis (params_reach _ _ _), ?_⟩⟩
  · decide +kernel
  · decide +kernel

end Sample

end Ganc.Zkdex
