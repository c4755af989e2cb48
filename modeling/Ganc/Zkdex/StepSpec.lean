import Ganc.Zkdex.MsgServer

/-!
# x/zkdex — what a step does

`step_effect` lists, message by message, every state a step can lead to, with
the checks that were passed; invariants are proved by cases on `Effect` and
never unfold a handler. An accepted batch is `settle`: each store changes by
one list of writes, and `Validated` is what the checks say of these lists.
-/

namespace Ganc.Zkdex

variable {k : Keeper}

-- ---------------------------------------------------------------------------
-- The lists of an update
-- ---------------------------------------------------------------------------

namespace SettlementUpdate

variable (u : SettlementUpdate)

def depositList : List SettlementDeposit := u.deposits.filterMap id

def withdrawalList : List SettlementWithdrawal := u.withdrawals.filterMap id

def depositIds : List String := u.depositList.map SettlementDeposit.depositId

def withdrawIds : List String := u.withdrawalList.map SettlementWithdrawal.withdrawId

def nullifiers : List String := u.withdrawalList.map SettlementWithdrawal.nullifier

/-- The record of the update once it is applied at the given height. -/
def toRecord (height : Nat) : BatchRecord where
  batchId := u.batchId
  oldStateRoot := u.oldStateRoot
  newStateRoot := u.newStateRoot
  depositIds := u.depositIds
  withdrawIds := u.withdrawIds
  createdHeight := height

end SettlementUpdate

-- ---------------------------------------------------------------------------
-- What the checks of an update establish
-- ---------------------------------------------------------------------------

/-- A deposit an update may process, and the record behind it. -/
structure OpenDeposit (s : State) (deposit : SettlementDeposit) (record : DepositRecord) :
    Prop where
  stored : s.depositRecords[deposit.depositId]? = some record
  unprocessed : s.isDepositProcessed deposit.depositId = false
  unmarked : record.processed = false
  owner : record.owner = deposit.owner
  denom : record.denom = deposit.denom
  amount : record.amount = deposit.amount

/-- A withdrawal an update may credit. -/
structure NewWithdrawal (s : State) (withdrawal : SettlementWithdrawal) : Prop where
  withdrawId : withdrawal.withdrawId ≠ ""
  destination : withdrawal.destination ≠ ""
  nullifier : withdrawal.nullifier ≠ ""
  unused : s.isNullifierUsed withdrawal.nullifier = false
  unknown : withdrawal.withdrawId ∉ s.withdrawRecords

/-- The other fields of a withdrawal that may not be empty. -/
structure SettlementWithdrawal.Filled (withdrawal : SettlementWithdrawal) : Prop where
  owner : withdrawal.owner ≠ ""
  denom : withdrawal.denom ≠ ""
  amount : withdrawal.amount ≠ ""
  destinationHash : withdrawal.destinationHash ≠ ""

/-- The public inputs the chain derives. -/
def publicInputsOf (u : SettlementUpdate) (c : BatchCommitments) : List String :=
  [u.oldStateRoot, u.newStateRoot, c.depositsRoot, c.withdrawalsRoot, c.nullifiersRoot,
    c.withdrawOutputsRoot]

/-- The checks of an update that do not look at the stores. -/
structure Complete (u : SettlementUpdate) (c : BatchCommitments) : Prop where
  batchId : u.batchId ≠ ""
  oldStateRoot : u.oldStateRoot ≠ ""
  newStateRoot : u.newStateRoot ≠ ""
  nonempty : ¬ (u.deposits = [] ∧ u.withdrawals = [])
  depositIds : ∀ d ∈ u.depositList, d.depositId ≠ ""
  withdrawals : ∀ w ∈ u.withdrawalList, w.Filled
  publicInputs : ∀ input ∈ publicInputsOf u c, input ≠ ""

structure Validated (s : State) (u : SettlementUpdate) : Prop where
  newBatch : u.batchId ∉ s.batchRecords
  root : u.oldStateRoot = s.getStateRoot
  deposits : u.deposits = u.depositList.map some
  depositIds : u.depositIds.Nodup
  opened : ∀ d ∈ u.depositList, ∃ record, OpenDeposit s d record
  withdrawals : u.withdrawals = u.withdrawalList.map some
  withdrawIds : u.withdrawIds.Nodup
  nullifiers : u.nullifiers.Nodup
  fresh : ∀ w ∈ u.withdrawalList, NewWithdrawal s w

/-- A list without nil pointers starts with a value. -/
theorem head_of_filterMap {α : Type} {p : Option α} {ps : List (Option α)}
    (h : p :: ps = ((p :: ps).filterMap id).map some) :
    ∃ a, p = some a ∧ ps = (ps.filterMap id).map some := by
  cases p with
  | none =>
    rw [List.filterMap_cons_none (by rfl)] at h
    have hNone : none ∈ (ps.filterMap id).map some := h ▸ List.mem_cons_self ..
    simp at hNone
  | some a =>
    rw [List.filterMap_cons_some (by rfl), List.map_cons] at h
    exact ⟨a, rfl, (List.cons.inj h).2⟩

theorem mapM_deref {α : Type} (as : List α) : (as.map some).mapM deref = .ok as := by
  induction as with
  | nil => rfl
  | cons a as ih =>
    rw [List.map_cons, List.mapM_cons, ih]
    rfl

/-- A list of pointers is read exactly if none is nil. -/
theorem mapM_deref_eq_ok {α : Type} {ps : List (Option α)} {as : List α} :
    ps.mapM deref = .ok as ↔ ps = as.map some := by
  constructor
  · induction ps generalizing as with
    | nil =>
      rintro ⟨⟩
      rfl
    | cons p ps ih =>
      simp only [List.mapM_cons, Result.bind_eq_ok, Result.pure_eq_ok, deref,
        Result.ofOption_eq_ok]
      rintro ⟨a, rfl, as', hRest, rfl⟩
      rw [List.map_cons, ← ih hRest]
  · rintro rfl
    exact mapM_deref as

/-- The loop over the deposits passes exactly if each passes and none is listed twice. -/
theorem validateDeposits_eq_ok {s : State} {seen : List String}
    {deposits : List (Option SettlementDeposit)} {r : Unit} :
    validateDeposits s seen deposits = .ok r ↔
      deposits = (deposits.filterMap id).map some ∧
      ((deposits.filterMap id).map SettlementDeposit.depositId).Nodup ∧
      ∀ d ∈ deposits.filterMap id, d.depositId ≠ "" ∧ d.depositId ∉ seen ∧
        ∃ record, OpenDeposit s d record := by
  induction deposits generalizing seen with
  | nil => simp [validateDeposits]
  | cons p deposits ih =>
    simp only [validateDeposits, Result.bind_eq_ok, Result.ofOption_eq_ok, Result.require_eq_ok,
      exists_const, ih]
    constructor
    · rintro ⟨d, rfl, hId, hSeen, record, hStored, ⟨hUnprocessed, hUnmarked⟩,
        ⟨hOwner, hDenom, hAmount⟩, hSome, hNodup, hAll⟩
      have hOpen : OpenDeposit s d record :=
        ⟨hStored, hUnprocessed, hUnmarked, hOwner, hDenom, hAmount⟩
      rw [List.filterMap_cons_some (by rfl)]
      refine ⟨by rw [List.map_cons, ← hSome], ?_, ?_⟩
      · rw [List.map_cons, List.nodup_cons]
        refine ⟨?_, hNodup⟩
        intro hMem
        obtain ⟨d', hd', hEq⟩ := List.mem_map.mp hMem
        exact (hAll d' hd').2.1 (hEq ▸ List.mem_cons_self ..)
      · intro d' hd'
        rcases List.mem_cons.mp hd' with rfl | hIn
        · exact ⟨hId, hSeen, record, hOpen⟩
        · obtain ⟨hId', hSeen', hOpen'⟩ := hAll d' hIn
          exact ⟨hId', fun hMem => hSeen' (List.mem_cons_of_mem _ hMem), hOpen'⟩
    · rintro ⟨hSome, hNodup, hAll⟩
      obtain ⟨d, rfl, hRest⟩ := head_of_filterMap hSome
      rw [List.filterMap_cons_some (by rfl)] at hNodup hAll
      rw [List.map_cons, List.nodup_cons] at hNodup
      obtain ⟨hId, hSeen, record, hOpen⟩ := hAll d (List.mem_cons_self ..)
      refine ⟨d, rfl, hId, hSeen, record, hOpen.stored, ⟨hOpen.unprocessed, hOpen.unmarked⟩,
        ⟨hOpen.owner, hOpen.denom, hOpen.amount⟩, hRest, hNodup.2, ?_⟩
      intro d' hd'
      obtain ⟨hId', hSeen', hOpen'⟩ := hAll d' (List.mem_cons_of_mem _ hd')
      refine ⟨hId', ?_, hOpen'⟩
      rw [List.mem_cons, not_or]
      exact ⟨fun hEq => hNodup.1 (hEq ▸ List.mem_map_of_mem hd'), hSeen'⟩

/-- The loop over the withdrawals passes exactly if each passes and neither an id nor a nullifier is
listed twice. -/
theorem validateWithdrawals_eq_ok {s : State} {seenWithdrawals seenNullifiers : List String}
    {withdrawals : List (Option SettlementWithdrawal)} {r : Unit} :
    validateWithdrawals s seenWithdrawals seenNullifiers withdrawals = .ok r ↔
      withdrawals = (withdrawals.filterMap id).map some ∧
      ((withdrawals.filterMap id).map SettlementWithdrawal.withdrawId).Nodup ∧
      ((withdrawals.filterMap id).map SettlementWithdrawal.nullifier).Nodup ∧
      ∀ w ∈ withdrawals.filterMap id, w.Filled ∧ w.withdrawId ∉ seenWithdrawals ∧
        w.nullifier ∉ seenNullifiers ∧ NewWithdrawal s w := by
  induction withdrawals generalizing seenWithdrawals seenNullifiers with
  | nil => simp [validateWithdrawals]
  | cons p withdrawals ih =>
    simp only [validateWithdrawals, Result.bind_eq_ok, Result.ofOption_eq_ok,
      Result.require_eq_ok, exists_const, ih]
    constructor
    · rintro ⟨w, rfl, hId, ⟨hOwner, hDenom, hAmount, hDestination⟩, hHash, hNullifier, hSeenId,
        hSeenNullifier, hUnused, hUnknown, hSome, hIds, hNullifiers, hAll⟩
      have hFilled : w.Filled := ⟨hOwner, hDenom, hAmount, hHash⟩
      have hNew : NewWithdrawal s w := ⟨hId, hDestination, hNullifier, hUnused, hUnknown⟩
      rw [List.filterMap_cons_some (by rfl)]
      refine ⟨by rw [List.map_cons, ← hSome], ?_, ?_, ?_⟩
      · rw [List.map_cons, List.nodup_cons]
        refine ⟨?_, hIds⟩
        intro hMem
        obtain ⟨w', hw', hEq⟩ := List.mem_map.mp hMem
        exact (hAll w' hw').2.1 (hEq ▸ List.mem_cons_self ..)
      · rw [List.map_cons, List.nodup_cons]
        refine ⟨?_, hNullifiers⟩
        intro hMem
        obtain ⟨w', hw', hEq⟩ := List.mem_map.mp hMem
        exact (hAll w' hw').2.2.1 (hEq ▸ List.mem_cons_self ..)
      · intro w' hw'
        rcases List.mem_cons.mp hw' with rfl | hIn
        · exact ⟨hFilled, hSeenId, hSeenNullifier, hNew⟩
        · obtain ⟨hFilled', hNotId, hNotNullifier, hNew'⟩ := hAll w' hIn
          exact ⟨hFilled', fun hMem => hNotId (List.mem_cons_of_mem _ hMem),
            fun hMem => hNotNullifier (List.mem_cons_of_mem _ hMem), hNew'⟩
    · rintro ⟨hSome, hIds, hNullifiers, hAll⟩
      obtain ⟨w, rfl, hRest⟩ := head_of_filterMap hSome
      rw [List.filterMap_cons_some (by rfl)] at hIds hNullifiers hAll
      rw [List.map_cons, List.nodup_cons] at hIds hNullifiers
      obtain ⟨hFilled, hSeenId, hSeenNullifier, hNew⟩ := hAll w (List.mem_cons_self ..)
      refine ⟨w, rfl, hNew.withdrawId,
        ⟨hFilled.owner, hFilled.denom, hFilled.amount, hNew.destination⟩,
        hFilled.destinationHash, hNew.nullifier, hSeenId, hSeenNullifier, hNew.unused,
        hNew.unknown, hRest, hIds.2, hNullifiers.2, ?_⟩
      intro w' hw'
      obtain ⟨hFilled', hNotId, hNotNullifier, hNew'⟩ := hAll w' (List.mem_cons_of_mem _ hw')
      refine ⟨hFilled', ?_, ?_, hNew'⟩
      · rw [List.mem_cons, not_or]
        exact ⟨fun hEq => hIds.1 (hEq ▸ List.mem_map_of_mem hw'), hNotId⟩
      · rw [List.mem_cons, not_or]
        exact ⟨fun hEq => hNullifiers.1 (hEq ▸ List.mem_map_of_mem hw'), hNotNullifier⟩

/-- The loop over the public inputs looks for empty ones. -/
theorem checkPublicInputs_eq_ok {i : Nat} {inputs : List String} {r : Unit} :
    checkPublicInputs i inputs = .ok r ↔ ∀ input ∈ inputs, input ≠ "" := by
  induction inputs generalizing i with
  | nil => simp [checkPublicInputs]
  | cons input inputs ih =>
    simp only [checkPublicInputs, Result.bind_eq_ok, Result.require_eq_ok, exists_const, ih,
      List.forall_mem_cons]

/-- The validation passes exactly if the update is complete and valid. -/
theorem validateSettlementUpdate_eq_ok {s : State} {u : SettlementUpdate} {c : BatchCommitments}
    {publicInputs : List String} : validateSettlementUpdate s u c = .ok publicInputs ↔
      Complete u c ∧ Validated s u ∧ publicInputs = publicInputsOf u c := by
  simp only [validateSettlementUpdate, validateSettlementDeposits, validateSettlementWithdrawals,
    Result.bind_eq_ok, Result.require_eq_ok, Result.pure_eq_ok, exists_const,
    validateDeposits_eq_ok, validateWithdrawals_eq_ok, checkPublicInputs_eq_ok]
  constructor
  · rintro ⟨hId, hBatch, hOld, hNew, hRoot, hSome, ⟨hDeposits, hDepositIds, hOpen⟩,
      ⟨hWithdrawals, hWithdrawIds, hNullifiers, hFresh⟩, hInputs, rfl⟩
    exact ⟨⟨hId, hOld, hNew, hSome, fun d hd => (hOpen d hd).1, fun w hw => (hFresh w hw).1,
      hInputs⟩, ⟨hBatch, hRoot, hDeposits, hDepositIds, fun d hd => (hOpen d hd).2.2,
      hWithdrawals, hWithdrawIds, hNullifiers, fun w hw => (hFresh w hw).2.2.2⟩, rfl⟩
  · rintro ⟨hComplete, hValid, rfl⟩
    exact ⟨hComplete.batchId, hValid.newBatch, hComplete.oldStateRoot, hComplete.newStateRoot,
      hValid.root, hComplete.nonempty,
      ⟨hValid.deposits, hValid.depositIds, fun d hd =>
        ⟨hComplete.depositIds d hd, List.not_mem_nil, hValid.opened d hd⟩⟩,
      ⟨hValid.withdrawals, hValid.withdrawIds, hValid.nullifiers, fun w hw =>
        ⟨hComplete.withdrawals w hw, List.not_mem_nil, List.not_mem_nil, hValid.fresh w hw⟩⟩,
      hComplete.publicInputs, rfl⟩

-- ---------------------------------------------------------------------------
-- What an accepted update writes
-- ---------------------------------------------------------------------------

/-- Marks the record under an id, if there is one. -/
def markProcessed (m : Store String DepositRecord) (depositId : String) :
    Store String DepositRecord :=
  match m[depositId]? with
  | none => m
  | some record => m.insert depositId { record with processed := true }

/-- The state after an accepted update. -/
def settle (height : Nat) (s : State) (u : SettlementUpdate) : State :=
  { s with
    stateRoot := some u.newStateRoot
    depositRecords := u.depositIds.foldl markProcessed s.depositRecords
    depositProcessed := s.depositProcessed.insertMany (u.depositIds.map fun id => (id, true))
    nullifierUsed := s.nullifierUsed.insertMany (u.nullifiers.map fun n => (n, true))
    withdrawRecords := s.withdrawRecords.insertMany
      (u.withdrawalList.map fun w => (w.withdrawId, w.toRecord))
    batchRecords := s.batchRecords.insert u.batchId (u.toRecord height) }

/-- The flag of the record is set, if there is a record, and the id is stored. -/
theorem setDepositProcessed_eq (s : State) (depositId : String) :
    s.setDepositProcessed depositId = { s with
      depositRecords := markProcessed s.depositRecords depositId
      depositProcessed := s.depositProcessed.insert depositId true } := by
  unfold State.setDepositProcessed markProcessed
  dsimp only
  cases s.depositRecords[depositId]? <;> rfl

/-- The loop over the deposits flags all of them. -/
theorem applyDeposits_eq (s : State) (ids : List String) (ds : List SettlementDeposit) :
    applyDeposits s ids (ds.map some) = .ok ({ s with
      depositRecords :=
        (ds.map SettlementDeposit.depositId).foldl markProcessed s.depositRecords
      depositProcessed := s.depositProcessed.insertMany
        ((ds.map SettlementDeposit.depositId).map fun id => (id, true)) },
      ids ++ ds.map SettlementDeposit.depositId) := by
  induction ds generalizing s ids with
  | nil =>
    show Except.ok (s, ids) = Except.ok (s, ids ++ [])
    rw [List.append_nil]
  | cons d ds ih =>
    show applyDeposits (s.setDepositProcessed d.depositId) (ids ++ [d.depositId]) (ds.map some) = _
    rw [ih, setDepositProcessed_eq, List.append_assoc]
    simp only [List.map_cons, List.foldl_cons, Store.insertMany_cons, List.singleton_append]

/-- The loop over the withdrawals stores all of them with their nullifiers. -/
theorem applyWithdrawals_eq (s : State) (ids : List String) (ws : List SettlementWithdrawal) :
    applyWithdrawals s ids (ws.map some) = .ok ({ s with
      nullifierUsed := s.nullifierUsed.insertMany
        ((ws.map SettlementWithdrawal.nullifier).map fun n => (n, true))
      withdrawRecords := s.withdrawRecords.insertMany
        (ws.map fun w => (w.withdrawId, w.toRecord)) },
      ids ++ ws.map SettlementWithdrawal.withdrawId) := by
  induction ws generalizing s ids with
  | nil =>
    show Except.ok (s, ids) = Except.ok (s, ids ++ [])
    rw [List.append_nil]
  | cons w ws ih =>
    show applyWithdrawals ((s.setNullifierUsed w.nullifier).setWithdrawRecord w.withdrawId
      w.toRecord) (ids ++ [w.withdrawId]) (ws.map some) = _
    rw [ih, List.append_assoc]
    simp only [List.map_cons, Store.insertMany_cons, List.singleton_append,
      State.setNullifierUsed, State.setWithdrawRecord]

/-- Once an update is validated, applying it cannot fail. -/
theorem applySettlementUpdate_eq {ctx : Context} {s : State} {u : SettlementUpdate}
    (h : Validated s u) : applySettlementUpdate ctx s u = .ok (settle ctx.height s u) := by
  rw [applySettlementUpdate, h.deposits, applyDeposits_eq]
  show (applyWithdrawals _ [] u.withdrawals >>= _) = _
  rw [h.withdrawals, applyWithdrawals_eq]
  rfl

section Settle

variable {height : Nat} {s : State} {u : SettlementUpdate}

/-- A settlement uses the nullifiers that it lists. -/
theorem isNullifierUsed_settle {n : String} :
    (settle height s u).isNullifierUsed n = true ↔
      n ∈ u.nullifiers ∨ s.isNullifierUsed n = true := by
  simp only [State.isNullifierUsed, settle, Store.get?_insertMany_const]
  by_cases hMem : n ∈ u.nullifiers <;> simp [hMem]

/-- A settlement processes the deposits that it lists. -/
theorem isDepositProcessed_settle {depositId : String} :
    (settle height s u).isDepositProcessed depositId = true ↔
      depositId ∈ u.depositIds ∨ s.isDepositProcessed depositId = true := by
  simp only [State.isDepositProcessed, settle, Store.get?_insertMany_const]
  by_cases hMem : depositId ∈ u.depositIds <;> simp [hMem]

theorem keys_withdrawals :
    (u.withdrawalList.map fun w => (w.withdrawId, w.toRecord)).map Prod.fst = u.withdrawIds := by
  rw [List.map_map]
  rfl

/-- The withdraw records are the old ones and those of the update. -/
theorem Validated.withdrawRecord_iff (h : Validated s u) {id : String} {r : WithdrawRecord} :
    (settle height s u).withdrawRecords[id]? = some r ↔
      (∃ w ∈ u.withdrawalList, w.withdrawId = id ∧ w.toRecord = r) ∨
        s.withdrawRecords[id]? = some r := by
  constructor
  · intro hr
    rcases Store.get?_of_insertMany hr with hNew | ⟨-, hOld⟩
    · obtain ⟨w, hw, hEq⟩ := List.mem_map.mp hNew
      obtain ⟨hId, hRecord⟩ := Prod.mk.inj hEq
      exact .inl ⟨w, hw, hId, hRecord⟩
    · exact .inr hOld
  · rintro (⟨w, hw, rfl, rfl⟩ | hOld)
    · refine Store.get?_insertMany_of_mem ?_ (List.mem_map.mpr ⟨w, hw, rfl⟩)
      rw [keys_withdrawals]
      exact h.withdrawIds
    · have hNot : id ∉ u.withdrawIds := by
        intro hMem
        obtain ⟨w, hw, rfl⟩ := List.mem_map.mp hMem
        exact (h.fresh w hw).unknown (Store.mem_iff.mpr ⟨r, hOld⟩)
      rw [← hOld]
      exact Store.get?_insertMany_of_notMem (by rwa [keys_withdrawals])

/-- The withdrawals of an update enter every sum over the withdraw records. -/
theorem Validated.total_withdrawRecords {M : Type} [AddCommMonoid M] (h : Validated s u)
    (f : String → WithdrawRecord → M) (height : Nat) :
    Store.total f (settle height s u).withdrawRecords =
      (u.withdrawalList.map fun w => f w.withdrawId w.toRecord).sum +
        Store.total f s.withdrawRecords := by
  have hNodup : ((u.withdrawalList.map fun w => (w.withdrawId, w.toRecord)).map
      Prod.fst).Nodup := by
    rw [keys_withdrawals]
    exact h.withdrawIds
  refine (Store.total_insertMany_of_fresh f hNodup ?_).trans ?_
  · intro id hid
    rw [keys_withdrawals] at hid
    obtain ⟨w, hw, rfl⟩ := List.mem_map.mp hid
    exact Store.notMem_iff.mp (h.fresh w hw).unknown
  · rw [List.map_map]
    rfl

/-- Flagging changes the flag of one record only. -/
theorem get?_markProcessed (m : Store String DepositRecord) (depositId a : String) :
    (markProcessed m depositId)[a]? =
      m[a]?.map fun r => if a = depositId then { r with processed := true } else r := by
  unfold markProcessed
  split
  next hNone =>
    by_cases hEq : a = depositId
    · rw [hEq, hNone]
      rfl
    · simp only [hEq, if_false]
      exact Option.map_id_apply.symm
  next record hSome =>
    exact Store.get?_update (fun r : DepositRecord => { r with processed := true }) hSome a

/-- Flagging changes the flags of the listed records only. -/
theorem get?_markAll (ids : List String) (m : Store String DepositRecord) (a : String) :
    (ids.foldl markProcessed m)[a]? =
      m[a]?.map fun r => if a ∈ ids then { r with processed := true } else r := by
  induction ids generalizing m with
  | nil => exact Option.map_id_apply.symm
  | cons id ids ih =>
    rw [List.foldl_cons, ih, get?_markProcessed, Option.map_map]
    congr 1
    funext r
    by_cases hId : a = id <;> by_cases hIn : a ∈ ids <;> simp [hId, hIn]

theorem size_markProcessed (m : Store String DepositRecord) (depositId : String) :
    (markProcessed m depositId).size = m.size := by
  unfold markProcessed
  split
  next => rfl
  next record hRecord => exact Store.size_insert_of_mem (Store.mem_iff.mpr ⟨record, hRecord⟩)

theorem size_markAll (ids : List String) (m : Store String DepositRecord) :
    (ids.foldl markProcessed m).size = m.size := by
  induction ids generalizing m with
  | nil => rfl
  | cons id ids ih => rw [List.foldl_cons, ih, size_markProcessed]

/-- Flagging adds no record. -/
theorem mem_markAll {ids : List String} {m : Store String DepositRecord} {a : String} :
    a ∈ ids.foldl markProcessed m ↔ a ∈ m := by
  rw [Store.mem_iff, Store.mem_iff, get?_markAll]
  cases m[a]? <;> simp

end Settle

-- ---------------------------------------------------------------------------
-- Handlers
-- ---------------------------------------------------------------------------

/-- The record of a deposit. -/
def MsgDeposit.toRecord (req : MsgDeposit) (height : Nat) (randBytes : Vector UInt8 4) :
    DepositRecord where
  depositId := depositIdOf req.creator height randBytes
  owner := req.creator
  denom := req.denom
  amount := req.amount
  processed := false
  createdHeight := height

/-- The checks of `Deposit` itself, before it draws an id. -/
structure Requested (k : Keeper) (req : MsgDeposit) (addr : AccAddress) (coin : Coin) :
    Prop where
  creator : k.sdk.stringToBytes req.creator = .ok addr
  denom : req.denom ≠ ""
  amount : req.amount ≠ ""
  parsed : k.sdk.parseCoinNormalized (req.amount ++ req.denom) = .ok coin
  positive : 0 < coin.amount

/-- An accepted `Deposit`. -/
structure Deposited (k : Keeper) (ctx : Context) (s : State) (req : MsgDeposit)
    (addr : AccAddress) (coin : Coin) (randBytes : Vector UInt8 4) (bank : Bank) : Prop
    extends Requested k req addr coin where
  drawn : ctx.rand = .ok randBytes
  funded : s.bank.sendCoinsFromAccountToModule addr (newCoins coin) = .ok bank

/-- A deposit succeeds exactly if its coins can be moved to escrow. -/
theorem deposit_eq_ok {ctx : Context} {s s' : State} {req : MsgDeposit} {r : Response} :
    k.deposit ctx s req = .ok (s', r) ↔ ∃ addr coin randBytes bank,
      Deposited k ctx s req addr coin randBytes bank ∧
      s' = { s with
        bank := bank
        depositRecords := s.depositRecords.insert
          (depositIdOf req.creator ctx.height randBytes) (req.toRecord ctx.height randBytes) } ∧
      r = .deposit (req.toRecord ctx.height randBytes) := by
  simp only [Keeper.deposit, Keeper.creatorBytes, Keeper.escrowFunds, Result.bind_eq_ok,
    Result.ofExcept_eq_ok, Result.require_eq_ok, Result.wrap_eq_ok, Result.pure_eq_ok,
    Prod.mk.injEq, exists_const]
  constructor
  · rintro ⟨addr, hCreator, hDenom, hAmount, coin, hParsed, hPositive, randBytes, hDrawn, _,
      ⟨bank, hFunded, rfl⟩, rfl, rfl⟩
    exact ⟨addr, coin, randBytes, bank, ⟨⟨hCreator, hDenom, hAmount, hParsed, hPositive⟩,
      hDrawn, hFunded⟩, rfl, rfl⟩
  · rintro ⟨addr, coin, randBytes, bank, h, rfl, rfl⟩
    exact ⟨addr, h.creator, h.denom, h.amount, coin, h.parsed, h.positive, randBytes, h.drawn, _,
      ⟨bank, h.funded, rfl⟩, rfl, rfl⟩

/-- The bundle passes exactly if it can be read and states the public inputs. -/
theorem bundle_eq_ok {proofBundle : List UInt8} {publicInputs : List String} {r : Unit} :
    k.validateProofBundlePublicInputs proofBundle publicInputs = .ok r ↔
      ∃ bundle, k.json.unmarshalProofBundle proofBundle = .ok bundle ∧ bundle.proof ≠ "" ∧
        bundle.publicInputs = publicInputs := by
  simp only [Keeper.validateProofBundlePublicInputs, Result.bind_eq_ok, Result.ofExcept_eq_ok,
    Result.require_eq_ok, exists_const]

/-- A proof passes exactly if there is a verifier and it says so. -/
theorem verifyProof_iff {input proofBundle : List UInt8} :
    k.verifyProof input proofBundle = true ↔
      ∃ verifier, k.verifier = some verifier ∧ verifier input proofBundle = true := by
  unfold Keeper.verifyProof
  cases k.verifier <;> simp

/-- The checks of `SubmitBatchProof` that do not look at the stores. -/
structure Attested (k : Keeper) (req : MsgSubmitBatchProof) : Prop where
  creator : ∃ addr, k.sdk.stringToBytes req.creator = .ok addr
  nonempty : req.proofBundle ≠ []
  complete : Complete req.settlementUpdate req.batchCommitments
  bundle : k.validateProofBundlePublicInputs req.proofBundle
    (publicInputsOf req.settlementUpdate req.batchCommitments) = .ok ()
  proof : ∃ input, k.buildMsgSubmitBatchProofVerifierInput req.settlementUpdate
      req.batchCommitments (publicInputsOf req.settlementUpdate req.batchCommitments) = .ok input ∧
    k.verifyProof input req.proofBundle

/-- A batch succeeds exactly if it is attested and valid, and then it is settled. -/
theorem submitBatchProof_eq_ok {ctx : Context} {s s' : State} {req : MsgSubmitBatchProof}
    {r : Response} : k.submitBatchProof ctx s req = .ok (s', r) ↔
      Attested k req ∧ Validated s req.settlementUpdate ∧
      s' = settle ctx.height s req.settlementUpdate ∧
      r = .submitBatchProof true (publicInputsOf req.settlementUpdate req.batchCommitments) := by
  simp only [Keeper.submitBatchProof, Keeper.creatorBytes, Result.bind_eq_ok,
    Result.ofExcept_eq_ok, Result.require_eq_ok, Result.wrap_eq_ok, Result.pure_eq_ok,
    Prod.mk.injEq, exists_const, validateSettlementUpdate_eq_ok]
  constructor
  · rintro ⟨addr, hCreator, hNonempty, _, ⟨hComplete, hValid, rfl⟩, _, hBundle, input, hInput,
      hProof, s₁, hApply, rfl, rfl⟩
    rw [applySettlementUpdate_eq hValid] at hApply
    exact ⟨⟨⟨addr, hCreator⟩, hNonempty, hComplete, hBundle, input, hInput, hProof⟩, hValid,
      (Except.ok.inj hApply).symm, rfl⟩
  · rintro ⟨hAttested, hValid, rfl, rfl⟩
    obtain ⟨addr, hCreator⟩ := hAttested.creator
    obtain ⟨input, hInput, hProof⟩ := hAttested.proof
    exact ⟨addr, hCreator, hAttested.nonempty, _, ⟨hAttested.complete, hValid, rfl⟩, (),
      hAttested.bundle, input, hInput, hProof, _, applySettlementUpdate_eq hValid, rfl, rfl⟩

/-- A `ClaimWithdraw` that has passed its own checks. -/
structure Claimable (k : Keeper) (s : State) (req : MsgClaimWithdraw) (addr : AccAddress)
    (record : WithdrawRecord) (coin : Coin) : Prop where
  creator : k.sdk.stringToBytes req.creator = .ok addr
  withdrawId : req.withdrawId ≠ ""
  stored : s.withdrawRecords[req.withdrawId]? = some record
  unclaimed : record.claimed = false
  named : record.destination ≠ ""
  destination : record.destination = req.creator
  parsed : k.sdk.parseCoinNormalized (record.amount ++ record.denom) = .ok coin
  positive : 0 < coin.amount

/-- An accepted `ClaimWithdraw`. -/
structure Claimed (k : Keeper) (s : State) (req : MsgClaimWithdraw) (addr : AccAddress)
    (record : WithdrawRecord) (coin : Coin) (bank : Bank) : Prop
    extends Claimable k s req addr record coin where
  released : s.bank.sendCoinsFromModuleToAccount addr (newCoins coin) = .ok bank

/-- Only the release can find the module account short, once all checks have
passed. -/
theorem claimWithdraw_lacks_funds {s : State} {req : MsgClaimWithdraw} {wraps : List String}
    (h : k.claimWithdraw s req = .error (.error (.insufficientFunds .module) wraps)) :
    ∃ addr record coin, Claimable k s req addr record coin ∧
      ∀ bank, s.bank.sendCoinsFromModuleToAccount addr (newCoins coin) ≠ .ok bank := by
  simp only [Keeper.claimWithdraw, Keeper.creatorBytes, Keeper.releaseFunds,
    Result.bind_eq_error, Result.ofExcept_eq_error, Result.ofExcept_eq_ok,
    Result.ofOption_eq_error, Result.ofOption_eq_ok, Result.require_eq_error,
    Result.require_eq_ok, Result.wrap_eq_error, Result.pure_ne_error, and_false, exists_false,
    or_false, reduceCtorEq, Failure.error.injEq, false_and, false_or, exists_const] at h
  obtain ⟨addr, hCreator, hId, record, hStored, hUnclaimed, hNamed, hDestination, coin, hParsed,
    hPositive, f, hRefused, -⟩ := h
  refine ⟨addr, record, coin, ⟨hCreator, hId, hStored, hUnclaimed, hNamed, hDestination,
    hParsed, hPositive⟩, ?_⟩
  intro bank hOk
  rw [hRefused] at hOk
  cases hOk

/-- The withdraw records after a claim. -/
theorem Claimable.get? {s : State} {req : MsgClaimWithdraw} {addr : AccAddress}
    {record : WithdrawRecord} {coin : Coin} (h : Claimable k s req addr record coin) (id : String) :
    (s.withdrawRecords.insert req.withdrawId { record with claimed := true })[id]? =
      s.withdrawRecords[id]?.map fun r =>
        if id = req.withdrawId then { r with claimed := true } else r :=
  Store.get?_update (fun r : WithdrawRecord => { r with claimed := true }) h.stored id

/-- A claim succeeds exactly if its coins can be released. -/
theorem claimWithdraw_eq_ok {s s' : State} {req : MsgClaimWithdraw} {r : Response} :
    k.claimWithdraw s req = .ok (s', r) ↔ ∃ addr record coin bank,
      Claimed k s req addr record coin bank ∧
      s' = { s with
        bank := bank
        withdrawRecords := s.withdrawRecords.insert req.withdrawId
          { record with claimed := true } } ∧
      r = .claimWithdraw { record with claimed := true } := by
  simp only [Keeper.claimWithdraw, Keeper.creatorBytes, Keeper.releaseFunds, Result.bind_eq_ok,
    Result.ofExcept_eq_ok, Result.ofOption_eq_ok, Result.require_eq_ok, Result.wrap_eq_ok,
    Result.pure_eq_ok, Prod.mk.injEq, exists_const]
  constructor
  · rintro ⟨addr, hCreator, hId, record, hStored, hUnclaimed, hNamed, hDestination, coin, hParsed,
      hPositive, _, ⟨bank, hReleased, rfl⟩, rfl, rfl⟩
    exact ⟨addr, record, coin, bank, ⟨⟨hCreator, hId, hStored, hUnclaimed, hNamed, hDestination,
      hParsed, hPositive⟩, hReleased⟩, rfl, rfl⟩
  · rintro ⟨addr, record, coin, bank, h, rfl, rfl⟩
    exact ⟨addr, h.creator, h.withdrawId, record, h.stored, h.unclaimed, h.named, h.destination,
      coin, h.parsed, h.positive, _, ⟨bank, h.released, rfl⟩, rfl, rfl⟩

-- ---------------------------------------------------------------------------
-- One step
-- ---------------------------------------------------------------------------

/-- The states an accepted message can lead to. -/
inductive Effect (k : Keeper) (ctx : Context) (s : State) : Msg → State → Prop
  | updateParams {req : MsgUpdateParams} :
      Effect k ctx s (.updateParams req) { s with params := some req.params }
  | deposit {req : MsgDeposit} {addr : AccAddress} {coin : Coin} {randBytes : Vector UInt8 4}
      {bank : Bank} (hDeposited : Deposited k ctx s req addr coin randBytes bank) :
      Effect k ctx s (.deposit req) { s with
        bank := bank
        depositRecords := s.depositRecords.insert
          (depositIdOf req.creator ctx.height randBytes) (req.toRecord ctx.height randBytes) }
  | submitBatchProof {req : MsgSubmitBatchProof} (hValid : Validated s req.settlementUpdate) :
      Effect k ctx s (.submitBatchProof req) (settle ctx.height s req.settlementUpdate)
  | claimWithdraw {req : MsgClaimWithdraw} {addr : AccAddress} {record : WithdrawRecord}
      {coin : Coin} {bank : Bank} (hClaimed : Claimed k s req addr record coin bank) :
      Effect k ctx s (.claimWithdraw req) { s with
        bank := bank
        withdrawRecords := s.withdrawRecords.insert req.withdrawId
          { record with claimed := true } }

/-- Every message that is accepted has one of the effects. -/
theorem handle_effect {ctx : Context} {s s' : State} {msg : Msg} {r : Response}
    (h : k.handle ctx s msg = .ok (s', r)) : Effect k ctx s msg s' := by
  cases msg with
  | updateParams req =>
    simp only [Keeper.handle, Keeper.updateParams, Result.bind_eq_ok, Result.pure_eq_ok,
      Prod.mk.injEq] at h
    obtain ⟨_, -, _, -, rfl, -⟩ := h
    exact .updateParams
  | deposit req =>
    obtain ⟨addr, coin, randBytes, bank, hDeposited, rfl, -⟩ := deposit_eq_ok.mp h
    exact .deposit hDeposited
  | submitBatchProof req =>
    obtain ⟨-, hValid, rfl, -⟩ := submitBatchProof_eq_ok.mp h
    exact .submitBatchProof hValid
  | claimWithdraw req =>
    obtain ⟨addr, record, coin, bank, hClaimed, rfl, -⟩ := claimWithdraw_eq_ok.mp h
    exact .claimWithdraw hClaimed

/-- **The step rule.** What the old state has, and every accepted message
preserves, the step preserves. -/
theorem step_induction {P : State → Prop} {ctx : Context} {s : State} {msg : Msg} (hs : P s)
    (hEffect : ∀ s', Effect k ctx s msg s' → P s') : P (k.step s ⟨ctx, msg⟩) :=
  commit_induction hs fun s' _ h => hEffect s' (handle_effect h)

/-- What `f` says of the message, when the message is accepted. -/
def Keeper.accepted {β : Type} (k : Keeper) (f : Context → Msg → List β) (s : State) (op : Op) :
    List β :=
  recorded (f op.ctx op.msg) (k.handle op.ctx s op.msg)

/-- The step rule with what the step records. -/
theorem accepted_induction {β : Type} {f : Context → Msg → List β} {P : List β → State → Prop}
    {ctx : Context} {s : State} {msg : Msg} (hs : P [] s)
    (hEffect : ∀ s', Effect k ctx s msg s' → P (f ctx msg) s') :
    P (k.accepted f s ⟨ctx, msg⟩) (k.step s ⟨ctx, msg⟩) :=
  recorded_induction hs fun s' _ h => hEffect s' (handle_effect h)

end Ganc.Zkdex
