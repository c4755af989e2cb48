import Ganc.Zkdex.Sample
import Ganc.Zkdex.StepSpec

/-!
# x/zkdex — custody

The module account against the records: what it holds of a denom is the sum of
the deposits not yet processed, plus what the processed deposits leave over the
credited withdrawals, plus the withdrawals not yet claimed (`Custody.ledger`).
That is so on every run in which `Deposit` draws unused ids; on such runs the
flags of the deposit records agree with `DepositProcessed` (`processed_reach`).
If the proofs also keep the credited withdrawals within the processed deposits,
the middle sum is never negative and no claim can find the account short.
-/

namespace Ganc.Zkdex

variable {k : Keeper}

-- ---------------------------------------------------------------------------
-- The sums
-- ---------------------------------------------------------------------------

namespace Keeper

variable (k : Keeper) (d : String)

/-- How much of `d` the strings of a record stand for: nothing when they do not
parse. -/
def worth (amount denom : String) : Int :=
  match k.sdk.parseCoinNormalized (amount ++ denom) with
  | .ok coin => if coin.denom = d then coin.amount else 0
  | .error _ => 0

/-- The deposits not yet processed. -/
def unprocessed (s : State) : Int :=
  Store.total (fun _ r => if r.processed then 0 else k.worth d r.amount r.denom) s.depositRecords

/-- The deposits processed so far. -/
def processed (s : State) : Int :=
  Store.total (fun _ r => if r.processed then k.worth d r.amount r.denom else 0) s.depositRecords

/-- The withdrawals credited so far. -/
def credited (s : State) : Int :=
  Store.total (fun _ r => k.worth d r.amount r.denom) s.withdrawRecords

/-- The withdrawals not yet claimed. -/
def unclaimed (s : State) : Int :=
  Store.total (fun _ r => if r.claimed then 0 else k.worth d r.amount r.denom) s.withdrawRecords

end Keeper

/-- A record is worth the coins that its strings are parsed to. -/
theorem worth_of_parse {d amount denom : String} {coin : Coin}
    (h : k.sdk.parseCoinNormalized (amount ++ denom) = .ok coin) :
    k.worth d amount denom = Bank.amountOf (newCoins coin) d := by
  rw [Keeper.worth, h, Bank.amountOf_newCoins]
  split <;> simp_all

theorem worth_nonneg (d amount denom : String) : 0 ≤ k.worth d amount denom := by
  unfold Keeper.worth
  split
  · split <;> omega
  · exact le_refl 0

theorem unprocessed_nonneg (d : String) (s : State) : 0 ≤ k.unprocessed d s := by
  refine Store.total_nonneg ?_
  intro id r _
  split
  · exact le_refl 0
  · exact worth_nonneg ..

/-- An unclaimed withdrawal is one of the sum. -/
theorem worth_le_unclaimed {s : State} {id : String} {r : WithdrawRecord}
    (hr : s.withdrawRecords[id]? = some r) (hOpen : r.claimed = false) (d : String) :
    k.worth d r.amount r.denom ≤ k.unclaimed d s := by
  have hNonneg : ∀ (id : String) (r : WithdrawRecord), s.withdrawRecords[id]? = some r →
      0 ≤ (fun (_ : String) (r : WithdrawRecord) =>
        if r.claimed then 0 else k.worth d r.amount r.denom) id r := by
    intro id r _
    dsimp only
    split
    · exact le_refl 0
    · exact worth_nonneg ..
  have hLe : (if r.claimed then 0 else k.worth d r.amount r.denom) ≤ k.unclaimed d s :=
    Store.le_total hNonneg hr
  rwa [hOpen, if_neg Bool.false_ne_true] at hLe

/-- All deposits together, whether processed or not. -/
theorem unprocessed_add_processed (d : String) (s : State) :
    k.unprocessed d s + k.processed d s =
      Store.total (fun _ r => k.worth d r.amount r.denom) s.depositRecords := by
  rw [Keeper.unprocessed, Keeper.processed, ← Store.total_add]
  refine Store.total_congr ?_
  intro id r _
  split <;> simp

-- ---------------------------------------------------------------------------
-- What an update does to the sums
-- ---------------------------------------------------------------------------

/-- Flagging a deposit changes no total that ignores the flag. -/
theorem total_markProcessed {f : String → DepositRecord → Int}
    (hf : ∀ id r, f id { r with processed := true } = f id r) (m : Store String DepositRecord)
    (depositId : String) : Store.total f (markProcessed m depositId) = Store.total f m := by
  unfold markProcessed
  split
  next => rfl
  next record hRecord =>
    have hTotal := Store.total_insert_of_some f
      ({ record with processed := true } : DepositRecord) hRecord
    rw [hf] at hTotal
    exact add_left_cancel hTotal

/-- Nor does flagging many. -/
theorem total_markAll {f : String → DepositRecord → Int}
    (hf : ∀ id r, f id { r with processed := true } = f id r) (ids : List String)
    (m : Store String DepositRecord) :
    Store.total f (ids.foldl markProcessed m) = Store.total f m := by
  induction ids generalizing m with
  | nil => rfl
  | cons id ids ih => rw [List.foldl_cons, ih, total_markProcessed hf]

section Settle

variable {s : State} {u : SettlementUpdate}

/-- A settlement moves deposits from the open to the processed. -/
theorem deposits_settle (height : Nat) (d : String) :
    k.unprocessed d (settle height s u) + k.processed d (settle height s u) =
      k.unprocessed d s + k.processed d s := by
  rw [unprocessed_add_processed, unprocessed_add_processed]
  exact total_markAll (fun _ _ => rfl) u.depositIds s.depositRecords

/-- A settlement adds to what is unclaimed what it credits. -/
theorem Validated.withdrawals_settle (h : Validated s u) (height : Nat) (d : String) :
    k.unclaimed d (settle height s u) - k.credited d (settle height s u) =
      k.unclaimed d s - k.credited d s := by
  have hUnclaimed := h.total_withdrawRecords
    (fun _ r => if r.claimed then 0 else k.worth d r.amount r.denom) height
  have hCredited := h.total_withdrawRecords (fun _ r => k.worth d r.amount r.denom) height
  -- a credited record starts out unclaimed, so both sums grow alike
  have hSame : (u.withdrawalList.map fun w =>
      if w.toRecord.claimed then 0 else k.worth d w.toRecord.amount w.toRecord.denom) =
      u.withdrawalList.map fun w => k.worth d w.toRecord.amount w.toRecord.denom := rfl
  rw [hSame] at hUnclaimed
  unfold Keeper.unclaimed Keeper.credited
  omega

end Settle

-- ---------------------------------------------------------------------------
-- What the random suffix and the proof are meant to enforce
-- ---------------------------------------------------------------------------

/-- An accepted `Deposit` has drawn an unused id. -/
def UnusedId (k : Keeper) (s : State) : Op → Prop
  | ⟨ctx, .deposit req⟩ => match k.deposit ctx s req with
    | .ok (_, .deposit record) => record.depositId ∉ s.depositRecords
    | _ => True
  | _ => True

/-- An accepted batch keeps the withdrawals credited so far within the deposits
processed so far, in every denom. -/
def BackedBatch (k : Keeper) (s : State) : Op → Prop
  | ⟨ctx, .submitBatchProof req⟩ => match k.submitBatchProof ctx s req with
    | .ok (s', _) => ∀ d, k.credited d s' ≤ k.processed d s'
    | .error _ => True
  | _ => True

/-- The id of an accepted deposit was in no use. -/
theorem UnusedId.of_ok {s s' : State} {ctx : Context} {req : MsgDeposit} {record : DepositRecord}
    (h : UnusedId k s ⟨ctx, .deposit req⟩) (hOk : k.deposit ctx s req = .ok (s', .deposit record)) :
    record.depositId ∉ s.depositRecords := by
  rw [UnusedId, hOk] at h
  exact h

/-- After an accepted batch the credits are covered by processed deposits. -/
theorem BackedBatch.of_ok {s s' : State} {ctx : Context} {req : MsgSubmitBatchProof} {r : Response}
    (h : BackedBatch k s ⟨ctx, .submitBatchProof req⟩)
    (hOk : k.submitBatchProof ctx s req = .ok (s', r)) (d : String) :
    k.credited d s' ≤ k.processed d s' := by
  rw [BackedBatch, hOk] at h
  exact h d

-- ---------------------------------------------------------------------------
-- The flag of a deposit record
-- ---------------------------------------------------------------------------

/-- The flag of a record is what `DepositProcessed` says of its id. -/
def Flagged (s : State) : Prop :=
  ∀ id, s.isDepositProcessed id = (s.depositRecords[id]?.map DepositRecord.processed).getD false

/-- A settlement flags what it processes. -/
theorem Flagged.settle {s : State} {u : SettlementUpdate} (h : Flagged s)
    (hValid : Validated s u) (height : Nat) : Flagged (settle height s u) := by
  intro id
  have hGet : (Zkdex.settle height s u).depositRecords[id]? = _ :=
    get?_markAll u.depositIds s.depositRecords id
  rw [hGet, Bool.eq_iff_iff, isDepositProcessed_settle, h id]
  by_cases hIn : id ∈ u.depositIds
  · -- the update names stored records only
    obtain ⟨deposit, hMem, rfl⟩ := List.mem_map.mp hIn
    obtain ⟨record, hOpen⟩ := hValid.opened deposit hMem
    simp [hIn, hOpen.stored]
  · simp [hIn]

/-- Every step with a new id keeps flags and processed ids in agreement. -/
theorem flagged_step (s : State) (op : Op) (hOp : UnusedId k s op) (h : Flagged s) :
    Flagged (k.step s op) := by
  obtain ⟨ctx, msg⟩ := op
  refine commit_induction h ?_
  intro s' r hHandle
  cases msg with
  | deposit req =>
    obtain ⟨addr, coin, randBytes, bank, hDeposited, rfl, rfl⟩ := deposit_eq_ok.mp hHandle
    have hFresh := Store.notMem_iff.mp (hOp.of_ok hHandle)
    intro id
    show s.isDepositProcessed id = (Option.map _ (s.depositRecords.insert _ _)[id]?).getD false
    rw [h id, Store.get?_insert]
    split
    next hId =>
      have hNone : s.depositRecords[id]? = none := by
        rw [hId]
        exact hFresh
      rw [hNone]
      rfl
    next => rfl
  | submitBatchProof req =>
    obtain ⟨-, hValid, rfl, -⟩ := submitBatchProof_eq_ok.mp hHandle
    exact h.settle hValid ctx.height
  | updateParams req =>
    have hEffect := handle_effect hHandle
    cases hEffect
    exact h
  | claimWithdraw req =>
    have hEffect := handle_effect hHandle
    cases hEffect
    exact h

/-- As long as deposits draw unused ids, the deposits that count as processed
are those `DepositProcessed` names. -/
theorem processed_reach {bank : Bank} {ops : List Op}
    (hRun : Run.Steps k.step (UnusedId k) (State.genesis bank) ops) (d : String) :
    k.processed d (k.reach bank ops) =
      Store.total (fun id r => if (k.reach bank ops).isDepositProcessed id then
        k.worth d r.amount r.denom else 0) (k.reach bank ops).depositRecords := by
  have hFlagged : Flagged (k.reach bank ops) :=
    Run.exec_invariant_of_steps flagged_step hRun fun _ => rfl
  refine Store.total_congr ?_
  intro id r hr
  rw [hFlagged id, hr]
  rfl

-- ---------------------------------------------------------------------------
-- The invariant
-- ---------------------------------------------------------------------------

structure Custody (k : Keeper) (s : State) : Prop where
  ledger : ∀ d, s.bank.held d =
    k.unprocessed d s + (k.processed d s - k.credited d s) + k.unclaimed d s
  backed : ∀ d, k.credited d s ≤ k.processed d s

/-- A deposit adds to the account what it adds to the records. -/
theorem Custody.deposit {ctx : Context} {s : State} {req : MsgDeposit} {addr : AccAddress}
    {coin : Coin} {randBytes : Vector UInt8 4} {bank : Bank} (h : Custody k s)
    (hDeposited : Deposited k ctx s req addr coin randBytes bank)
    (hUnused : depositIdOf req.creator ctx.height randBytes ∉ s.depositRecords) :
    Custody k { s with
      bank := bank
      depositRecords := s.depositRecords.insert
        (depositIdOf req.creator ctx.height randBytes) (req.toRecord ctx.height randBytes) } := by
  have hFresh := Store.notMem_iff.mp hUnused
  have hUnprocessed : ∀ d, k.unprocessed d { s with
      bank := bank
      depositRecords := s.depositRecords.insert
        (depositIdOf req.creator ctx.height randBytes) (req.toRecord ctx.height randBytes) } =
      k.worth d req.amount req.denom + k.unprocessed d s :=
    fun d => Store.total_insert_of_fresh _ (req.toRecord ctx.height randBytes) hFresh
  have hProcessed : ∀ d, k.processed d { s with
      bank := bank
      depositRecords := s.depositRecords.insert
        (depositIdOf req.creator ctx.height randBytes) (req.toRecord ctx.height randBytes) } =
      0 + k.processed d s :=
    fun d => Store.total_insert_of_fresh _ (req.toRecord ctx.height randBytes) hFresh
  constructor
  · intro d
    have hHeld := Bank.held_of_sendFromAccount hDeposited.funded d
    have hWorth := worth_of_parse (d := d) hDeposited.parsed
    have hLedger := h.ledger d
    rw [hUnprocessed, hProcessed]
    show bank.held d = _ + (_ - k.credited d s) + k.unclaimed d s
    omega
  · intro d
    rw [hProcessed, zero_add]
    exact h.backed d

/-- A backed settlement moves nothing and stays covered. -/
theorem Custody.settle {s : State} {u : SettlementUpdate} (h : Custody k s)
    (hValid : Validated s u) (height : Nat)
    (hBacked : ∀ d, k.credited d (settle height s u) ≤ k.processed d (settle height s u)) :
    Custody k (settle height s u) := by
  refine ⟨?_, hBacked⟩
  intro d
  have hDeposits := deposits_settle (k := k) (s := s) (u := u) height d
  have hWithdrawals := hValid.withdrawals_settle (k := k) height d
  have hLedger := h.ledger d
  show s.bank.held d = _
  omega

/-- A claim takes from the account what its record was worth. -/
theorem Custody.claim {s : State} {req : MsgClaimWithdraw} {addr : AccAddress}
    {record : WithdrawRecord} {coin : Coin} {bank : Bank} (h : Custody k s)
    (hClaimed : Claimed k s req addr record coin bank) :
    Custody k { s with
      bank := bank
      withdrawRecords := s.withdrawRecords.insert req.withdrawId
        { record with claimed := true } } := by
  have hCredited : ∀ d, k.credited d { s with
      bank := bank
      withdrawRecords := s.withdrawRecords.insert req.withdrawId
        { record with claimed := true } } = k.credited d s := by
    intro d
    have hTotal := Store.total_insert_of_some
      (fun _ (r : WithdrawRecord) => k.worth d r.amount r.denom)
      ({ record with claimed := true } : WithdrawRecord) hClaimed.stored
    exact add_left_cancel hTotal
  have hUnclaimed : ∀ d, k.worth d record.amount record.denom + k.unclaimed d { s with
      bank := bank
      withdrawRecords := s.withdrawRecords.insert req.withdrawId
        { record with claimed := true } } = k.unclaimed d s := by
    intro d
    have hTotal := Store.total_insert_of_some
      (fun _ (r : WithdrawRecord) => if r.claimed then 0 else k.worth d r.amount r.denom)
      ({ record with claimed := true } : WithdrawRecord) hClaimed.stored
    simp only [hClaimed.unclaimed, Bool.false_eq_true, if_false, if_true, zero_add] at hTotal
    exact hTotal
  constructor
  · intro d
    have hHeld := Bank.held_of_sendFromModule hClaimed.released d
    have hWorth := worth_of_parse (d := d) hClaimed.parsed
    have hLedger := h.ledger d
    have hTaken := hUnclaimed d
    rw [hCredited]
    show bank.held d = k.unprocessed d s + (k.processed d s - _) + _
    omega
  · intro d
    rw [hCredited]
    exact h.backed d

-- ---------------------------------------------------------------------------
-- Steps and runs
-- ---------------------------------------------------------------------------

/-- Every step of such a run keeps custody of the coins. -/
theorem custody_step (s : State) (op : Op) (hOp : UnusedId k s op ∧ BackedBatch k s op)
    (h : Custody k s) : Custody k (k.step s op) := by
  obtain ⟨ctx, msg⟩ := op
  obtain ⟨hUnused, hBacked⟩ := hOp
  refine commit_induction h ?_
  intro s' r hHandle
  cases msg with
  | updateParams req =>
    have hEffect := handle_effect hHandle
    cases hEffect
    exact ⟨h.ledger, h.backed⟩
  | deposit req =>
    obtain ⟨addr, coin, randBytes, bank, hDeposited, rfl, rfl⟩ := deposit_eq_ok.mp hHandle
    exact h.deposit hDeposited (hUnused.of_ok hHandle)
  | submitBatchProof req =>
    obtain ⟨-, hValid, rfl, -⟩ := submitBatchProof_eq_ok.mp hHandle
    exact h.settle hValid ctx.height (hBacked.of_ok hHandle)
  | claimWithdraw req =>
    obtain ⟨addr, record, coin, bank, hClaimed, rfl, -⟩ := claimWithdraw_eq_ok.mp hHandle
    exact h.claim hClaimed

/-- An empty account has custody of nothing. -/
theorem custody_genesis {bank : Bank} (hEmpty : ∀ d, bank.held d = 0) :
    Custody k (State.genesis bank) := by
  constructor
  · intro d
    show bank.held d = _
    rw [hEmpty]
    simp [Keeper.unprocessed, Keeper.processed, Keeper.credited, Keeper.unclaimed,
      State.genesis, State.empty, Store.total_empty]
  · intro d
    simp [Keeper.processed, Keeper.credited, State.genesis, State.empty, Store.total_empty]

/-- A claim that passes its own checks finds its coins. -/
theorem Custody.released {s : State} {req : MsgClaimWithdraw} {addr : AccAddress}
    {record : WithdrawRecord} {coin : Coin} (h : Custody k s)
    (hClaimable : Claimable k s req addr record coin) :
    ∃ bank, s.bank.sendCoinsFromModuleToAccount addr (newCoins coin) = .ok bank := by
  have hLedger := h.ledger coin.denom
  have hBacked := h.backed coin.denom
  have hNonneg := unprocessed_nonneg (k := k) coin.denom s
  have hLe := worth_le_unclaimed (k := k) hClaimable.stored hClaimable.unclaimed coin.denom
  have hWorth := worth_of_parse (d := coin.denom) hClaimable.parsed
  rw [Bank.amountOf_newCoins, if_pos rfl] at hWorth
  refine Bank.sendFromModule_isOk ?_
  omega

/-- **Conditional solvency.** On every run from the default genesis with an
empty module account, in which deposits draw unused ids and the accepted
batches stay backed: of every denom the module account holds what the records
say, and no `ClaimWithdraw` finds it short. -/
theorem custody_solvent {bank : Bank} {ops : List Op} (hEmpty : ∀ d, bank.held d = 0)
    (hRun : Run.Steps k.step (fun s op => UnusedId k s op ∧ BackedBatch k s op)
      (State.genesis bank) ops) :
    (∀ d, (k.reach bank ops).bank.held d = k.unprocessed d (k.reach bank ops) +
      (k.processed d (k.reach bank ops) - k.credited d (k.reach bank ops)) +
      k.unclaimed d (k.reach bank ops)) ∧
    (∀ (req : MsgClaimWithdraw) (wraps : List String),
      k.claimWithdraw (k.reach bank ops) req ≠
        .error (.error (.insufficientFunds .module) wraps)) := by
  have h : Custody k (k.reach bank ops) :=
    Run.exec_invariant_of_steps custody_step hRun (custody_genesis hEmpty)
  refine ⟨h.ledger, ?_⟩
  intro req wraps hShort
  obtain ⟨addr, record, coin, hClaimable, hRefused⟩ := claimWithdraw_lacks_funds hShort
  obtain ⟨bank', hReleased⟩ := h.released hClaimable
  exact hRefused bank' hReleased

section Sample

open Ganc.Zkdex.Sample Ganc.Sample

/-- The batch credits forty of the hundred that it processes. -/
theorem settles_backed : BackedBatch keeper (keeper.reach bank [deposits]) settles := by
  unfold BackedBatch settles
  dsimp only
  split
  next s' r hOk =>
    intro d
    obtain ⟨-, -, rfl, -⟩ := submitBatchProof_eq_ok.mp hOk
    have hCredits : (settle 2 (keeper.reach bank [deposits]) update).withdrawRecords.toList.map
        Prod.snd = [⟨"wd-1", alice, "uatom", "40", bob, "0xnullifier", false⟩] := by
      decide +kernel
    have hDeposits : (settle 2 (keeper.reach bank [deposits]) update).depositRecords.toList.map
        Prod.snd = [⟨depositIdOf alice 1 zeros, alice, "uatom", "100", true, 1⟩] := by
      decide +kernel
    have hForty : keeper.sdk.parseCoinNormalized ("40" ++ "uatom") = .ok ⟨"uatom", 40⟩ := by
      decide +kernel
    have hHundred : keeper.sdk.parseCoinNormalized ("100" ++ "uatom") = .ok ⟨"uatom", 100⟩ := by
      decide +kernel
    have hCredited : keeper.credited d (settle 2 (keeper.reach bank [deposits]) update) =
        (([⟨"wd-1", alice, "uatom", "40", bob, "0xnullifier", false⟩] : List WithdrawRecord).map
          fun r => keeper.worth d r.amount r.denom).sum := by
      rw [← hCredits, List.map_map]
      rfl
    have hProcessed : keeper.processed d (settle 2 (keeper.reach bank [deposits]) update) =
        (([⟨depositIdOf alice 1 zeros, alice, "uatom", "100", true, 1⟩] : List DepositRecord).map
          fun r => if r.processed then keeper.worth d r.amount r.denom else 0).sum := by
      rw [← hDeposits, List.map_map]
      rfl
    show keeper.credited d _ ≤ keeper.processed d _
    rw [hCredited, hProcessed]
    simp only [Keeper.worth, List.map_cons, List.map_nil, List.sum_singleton, if_true, hForty,
      hHundred]
    split <;> decide
  next => trivial

/-- Alice deposits a hundred, and Bob claims the forty the batch credits to
him. -/
theorem custody_solvent_sample : ∃ s, s = keeper.reach bank [deposits, settles, claims] ∧
    ∀ d, s.bank.held d = keeper.unprocessed d s +
      (keeper.processed d s - keeper.credited d s) + keeper.unclaimed d s := by
  have hDeposit : UnusedId keeper (State.genesis bank) deposits := by
    unfold UnusedId deposits
    dsimp only
    split
    · exact Std.ExtTreeMap.not_mem_empty
    · trivial
  have hRun : Run.Steps keeper.step (fun s op => UnusedId keeper s op ∧ BackedBatch keeper s op)
      (State.genesis bank) [deposits, settles, claims] :=
    ⟨⟨hDeposit, trivial⟩, ⟨trivial, settles_backed⟩, ⟨trivial, trivial⟩, trivial⟩
  exact ⟨_, rfl, (custody_solvent (fun _ => rfl) hRun).1⟩

end Sample

end Ganc.Zkdex
