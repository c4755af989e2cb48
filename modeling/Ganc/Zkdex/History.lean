import Mathlib.Data.List.Pairwise
import Ganc.Zkdex.StepSpec

/-!
# x/zkdex — the settlement history

`batches` is the history of a run: the records of the accepted batches, in the
order of their acceptance. `History` ties the stores to it. The batch records
are the batches of the history, the roots form a chain from the genesis root to
the stored one, and a deposit is processed, or a withdraw record there, exactly
when a batch lists its id. No id is listed twice along the history.

Deposits write nothing the history is tied to, so it does not matter which
bytes they draw, not even when an id is drawn a second time.
-/

namespace Ganc.Zkdex

variable {k : Keeper}

-- ---------------------------------------------------------------------------
-- The history of a run
-- ---------------------------------------------------------------------------

def batchesOf (ctx : Context) : Msg → List BatchRecord
  | .submitBatchProof req => [req.settlementUpdate.toRecord ctx.height]
  | _ => []

/-- The batches a run accepts, in order. -/
abbrev Keeper.batches (k : Keeper) (s : State) (ops : List Op) : List BatchRecord :=
  Run.trace k.step (k.accepted batchesOf) s ops

/-- Each batch starts from the root the one before it left: the first one from
`root`, and the last one leaves `last`. -/
def Chained (root : String) : List BatchRecord → String → Prop
  | [], last => root = last
  | b :: bs, last => b.oldStateRoot = root ∧ Chained b.newStateRoot bs last

/-- A chain of roots goes on from its last root. -/
theorem Chained.snoc {root last : String} {bs : List BatchRecord} (h : Chained root bs last)
    {b : BatchRecord} (hOld : b.oldStateRoot = last) : Chained root (bs ++ [b]) b.newStateRoot := by
  induction bs generalizing root with
  | nil =>
    obtain rfl := h
    exact ⟨hOld, rfl⟩
  | cons a bs ih => exact ⟨h.1, ih h.2⟩

/-- Ids without repetition, of batches or of what they list. -/
theorem nodup_flatMap_snoc {f : BatchRecord → List String} {bs : List BatchRecord}
    {b : BatchRecord} (h : (bs.flatMap f).Nodup) (hNew : (f b).Nodup)
    (hApart : ∀ id ∈ f b, id ∉ bs.flatMap f) : ((bs ++ [b]).flatMap f).Nodup := by
  rw [List.flatMap_append, List.flatMap_singleton]
  refine List.nodup_append.mpr ⟨h, hNew, ?_⟩
  rintro id hOld id' hIn rfl
  exact hApart id hIn hOld

/-- Two batches that list one id are the same batch. -/
theorem eq_of_nodup_flatMap {f : BatchRecord → List String} {bs : List BatchRecord}
    (h : (bs.flatMap f).Nodup) {b b' : BatchRecord} (hb : b ∈ bs) (hb' : b' ∈ bs) {id : String}
    (hId : id ∈ f b) (hId' : id ∈ f b') : b = b' := by
  have hPairwise := (List.nodup_flatMap.mp h).2
  have hSymm : Std.Symm (Function.onFun List.Disjoint f) := ⟨fun _ _ => List.disjoint_symm⟩
  by_contra hne
  exact hPairwise.forall hb hb' hne hId hId'

-- ---------------------------------------------------------------------------
-- The invariant
-- ---------------------------------------------------------------------------

structure History (bs : List BatchRecord) (s : State) : Prop where
  batchIds : (bs.map BatchRecord.batchId).Nodup
  chained : Chained "0xrootA" bs s.getStateRoot
  stored : ∀ (id : String) (b : BatchRecord), s.batchRecords[id]? = some b ↔
    b ∈ bs ∧ b.batchId = id
  depositIds : (bs.flatMap BatchRecord.depositIds).Nodup
  processed : ∀ id, s.isDepositProcessed id = true ↔ id ∈ bs.flatMap BatchRecord.depositIds
  withdrawIds : (bs.flatMap BatchRecord.withdrawIds).Nodup
  credited : ∀ id, id ∈ s.withdrawRecords ↔ id ∈ bs.flatMap BatchRecord.withdrawIds

/-- The history is about the batches, the processed ids and the withdrawals only. -/
theorem History.of_stores {bs : List BatchRecord} {s s' : State} (h : History bs s)
    (hRoot : s'.stateRoot = s.stateRoot) (hBatches : s'.batchRecords = s.batchRecords)
    (hProcessed : s'.depositProcessed = s.depositProcessed)
    (hRecords : ∀ id : String, id ∈ s'.withdrawRecords ↔ id ∈ s.withdrawRecords) :
    History bs s' := by
  obtain ⟨hIds, hChained, hStored, hDeposits, hProc, hWithdraws, hCredited⟩ := h
  refine ⟨hIds, ?_, ?_, hDeposits, ?_, hWithdraws, ?_⟩
  · rw [State.getStateRoot, hRoot]
    exact hChained
  · rw [hBatches]
    exact hStored
  · intro id
    rw [State.isDepositProcessed, hProcessed]
    exact hProc id
  · intro id
    exact (hRecords id).trans (hCredited id)

/-- A settlement is the next batch of the history. -/
theorem History.settle {bs : List BatchRecord} {s : State} {u : SettlementUpdate}
    (h : History bs s) (hValid : Validated s u) (height : Nat) :
    History (bs ++ [u.toRecord height]) (settle height s u) := by
  have hNewBatch : ∀ b ∈ bs, b.batchId ≠ u.batchId := by
    intro b hb hEq
    exact hValid.newBatch (Store.mem_iff.mpr ⟨b, (h.stored u.batchId b).mpr ⟨hb, hEq⟩⟩)
  constructor
  · rw [List.map_append]
    refine List.nodup_append.mpr ⟨h.batchIds, List.nodup_singleton _, ?_⟩
    rintro id hOld id' hNew rfl
    obtain ⟨b, hb, rfl⟩ := List.mem_map.mp hOld
    exact hNewBatch b hb (List.mem_singleton.mp hNew)
  · exact h.chained.snoc hValid.root
  · intro id b
    show (s.batchRecords.insert u.batchId (u.toRecord height))[id]? = some b ↔ _
    rw [Store.get?_insert, List.mem_append, List.mem_singleton]
    split
    next hEq =>
      rw [hEq]
      constructor
      · intro hb
        obtain rfl := Option.some.inj hb
        exact ⟨.inr rfl, rfl⟩
      · rintro ⟨hb | rfl, hId⟩
        · exact absurd hId (hNewBatch b hb)
        · rfl
    next hne =>
      rw [h.stored]
      constructor
      · rintro ⟨hb, hId⟩
        exact ⟨.inl hb, hId⟩
      · rintro ⟨hb | rfl, hId⟩
        · exact ⟨hb, hId⟩
        · exact absurd hId.symm hne
  · refine nodup_flatMap_snoc h.depositIds hValid.depositIds ?_
    intro id hIn hOld
    obtain ⟨d, hd, rfl⟩ := List.mem_map.mp hIn
    obtain ⟨record, hOpen⟩ := hValid.opened d hd
    have hProcessed := (h.processed d.depositId).mpr hOld
    rw [hOpen.unprocessed] at hProcessed
    cases hProcessed
  · intro id
    rw [isDepositProcessed_settle, h.processed, List.flatMap_append, List.flatMap_singleton,
      List.mem_append, or_comm]
    rfl
  · refine nodup_flatMap_snoc h.withdrawIds hValid.withdrawIds ?_
    intro id hIn hOld
    obtain ⟨w, hw, rfl⟩ := List.mem_map.mp hIn
    exact (hValid.fresh w hw).unknown ((h.credited w.withdrawId).mpr hOld)
  · intro id
    show id ∈ s.withdrawRecords.insertMany _ ↔ _
    rw [Store.mem_insertMany, keys_withdrawals, h.credited, List.flatMap_append,
      List.flatMap_singleton, List.mem_append, or_comm]
    rfl

-- ---------------------------------------------------------------------------
-- Steps and runs
-- ---------------------------------------------------------------------------

/-- Every step adds the batches that it accepts. -/
theorem history_step (k : Keeper) (bs : List BatchRecord) (s : State) (op : Op)
    (h : History bs s) : History (bs ++ k.accepted batchesOf s op) (k.step s op) := by
  obtain ⟨ctx, msg⟩ := op
  -- a step that settles nothing
  have hKeep : ∀ {s' : State}, History bs s' → History (bs ++ []) s' := by
    intro s' h'
    rwa [List.append_nil]
  refine accepted_induction (P := fun new s' => History (bs ++ new) s') (hKeep h)
    ?_
  intro s' hEffect
  cases hEffect with
  | updateParams => exact hKeep (h.of_stores rfl rfl rfl fun _ => Iff.rfl)
  | deposit => exact hKeep (h.of_stores rfl rfl rfl fun _ => Iff.rfl)
  | submitBatchProof hValid => exact h.settle hValid ctx.height
  | claimWithdraw hClaimed =>
    refine hKeep (h.of_stores rfl rfl rfl ?_)
    intro id
    refine Store.mem_insert.trans (or_iff_right_of_imp ?_)
    rintro rfl
    exact Store.mem_iff.mpr ⟨_, hClaimed.stored⟩

/-- The history of a new chain is empty. -/
theorem history_genesis (bank : Bank) : History [] (State.genesis bank) := by
  constructor
  · exact List.nodup_nil
  · rfl
  · intro id b
    simp [State.genesis, State.empty]
  · exact List.nodup_nil
  · intro id
    simp [State.isDepositProcessed, State.genesis, State.empty]
  · exact List.nodup_nil
  · intro id
    simp [State.genesis, State.empty]

/-- In every state the history is that of the accepted batches. -/
theorem history_reach (k : Keeper) (bank : Bank) (ops : List Op) :
    History (k.batches (State.genesis bank) ops) (k.reach bank ops) :=
  Run.exec_trace (history_step k) ops (history_genesis bank)

/-- A batch record stays as it is. -/
theorem batchRecord_step (k : Keeper) {id : String} {b : BatchRecord} (s : State) (op : Op)
    (h : s.batchRecords[id]? = some b) : (k.step s op).batchRecords[id]? = some b := by
  obtain ⟨ctx, msg⟩ := op
  refine step_induction (P := fun s' => s'.batchRecords[id]? = some b) h ?_
  intro s' hEffect
  cases hEffect with
  | @submitBatchProof req hValid =>
    have hne : id ≠ req.settlementUpdate.batchId := by
      rintro rfl
      exact hValid.newBatch (Store.mem_iff.mpr ⟨b, h⟩)
    exact (Store.get?_insert_ne hne).trans h
  | _ => exact h

/-- **The settlement history.** Along every run from the default genesis the
accepted batches have different ids and form a chain from the genesis root to
the stored one; each is stored under its id and stays as it is; and a deposit
is processed, or a withdraw record there, exactly when a batch record lists the
id, which at most one does. -/
theorem settlement_history (k : Keeper) (bank : Bank) (ops : List Op) :
    ((k.batches (State.genesis bank) ops).map BatchRecord.batchId).Nodup ∧
    Chained "0xrootA" (k.batches (State.genesis bank) ops) (k.reach bank ops).getStateRoot ∧
    (∀ (id : String) (b : BatchRecord), (k.reach bank ops).batchRecords[id]? = some b ↔
      b ∈ k.batches (State.genesis bank) ops ∧ b.batchId = id) ∧
    (∀ (post : List Op) (id : String) (b : BatchRecord),
      (k.reach bank ops).batchRecords[id]? = some b →
      (k.reach bank (ops ++ post)).batchRecords[id]? = some b) ∧
    (∀ (depositId : String),
      ((k.reach bank ops).isDepositProcessed depositId = true ↔
        ∃ (id : String) (b : BatchRecord), (k.reach bank ops).batchRecords[id]? = some b ∧
          depositId ∈ b.depositIds) ∧
      (∀ (id id' : String) (b b' : BatchRecord),
        (k.reach bank ops).batchRecords[id]? = some b → depositId ∈ b.depositIds →
        (k.reach bank ops).batchRecords[id']? = some b' → depositId ∈ b'.depositIds →
        id = id')) ∧
    (∀ (withdrawId : String),
      (withdrawId ∈ (k.reach bank ops).withdrawRecords ↔
        ∃ (id : String) (b : BatchRecord), (k.reach bank ops).batchRecords[id]? = some b ∧
          withdrawId ∈ b.withdrawIds) ∧
      (∀ (id id' : String) (b b' : BatchRecord),
        (k.reach bank ops).batchRecords[id]? = some b → withdrawId ∈ b.withdrawIds →
        (k.reach bank ops).batchRecords[id']? = some b' → withdrawId ∈ b'.withdrawIds →
        id = id')) := by
  have h := history_reach k bank ops
  -- what is listed along the history is what the stored batches list
  have hListed : ∀ (f : BatchRecord → List String) (x : String),
      x ∈ (k.batches (State.genesis bank) ops).flatMap f ↔ ∃ (id : String) (b : BatchRecord),
        (k.reach bank ops).batchRecords[id]? = some b ∧ x ∈ f b := by
    intro f x
    rw [List.mem_flatMap]
    constructor
    · rintro ⟨b, hb, hx⟩
      exact ⟨b.batchId, b, (h.stored _ b).mpr ⟨hb, rfl⟩, hx⟩
    · rintro ⟨id, b, hb, hx⟩
      exact ⟨b, ((h.stored id b).mp hb).1, hx⟩
  have hOnce : ∀ (f : BatchRecord → List String) (x : String),
      ((k.batches (State.genesis bank) ops).flatMap f).Nodup →
      ∀ (id id' : String) (b b' : BatchRecord), (k.reach bank ops).batchRecords[id]? = some b →
        x ∈ f b → (k.reach bank ops).batchRecords[id']? = some b' → x ∈ f b' → id = id' := by
    intro f x hNodup id id' b b' hb hx hb' hx'
    obtain ⟨hMem, rfl⟩ := (h.stored id b).mp hb
    obtain ⟨hMem', rfl⟩ := (h.stored id' b').mp hb'
    rw [eq_of_nodup_flatMap hNodup hMem hMem' hx hx']
  refine ⟨h.batchIds, h.chained, h.stored, ?_, fun x => ⟨?_, ?_⟩, fun x => ⟨?_, ?_⟩⟩
  · intro post id b hb
    rw [Keeper.reach, Run.exec_append]
    exact Run.exec_invariant (I := fun s : State => s.batchRecords[id]? = some b)
      (batchRecord_step k) post hb
  · exact (h.processed x).trans (hListed _ x)
  · exact hOnce _ x h.depositIds
  · exact (h.credited x).trans (hListed _ x)
  · exact hOnce _ x h.withdrawIds

end Ganc.Zkdex
