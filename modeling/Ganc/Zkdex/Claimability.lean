import Ganc.Zkdex.Payout
import Ganc.Zkdex.Sample

/-!
# x/zkdex — which settled withdrawals can be claimed

`SubmitBatchProof` asks of a withdrawal that its strings are not empty, and
`ClaimWithdraw` reads them: the destination has to be an address, and the
amount before the denom a positive coin. `settled_claimable_iff` says that a
withdrawal of an accepted batch gets as far as the release of its coins exactly
when it is `Payable`, and that one that is not can never be claimed, although
its nullifier is spent.
-/

namespace Ganc.Zkdex

variable {k : Keeper}

/-- Every check of `ClaimWithdraw` before `ReleaseFunds` passes. -/
def Keeper.ReachesRelease (k : Keeper) (s : State) (req : MsgClaimWithdraw) : Prop :=
  (∃ s' r, k.claimWithdraw s req = .ok (s', r)) ∨
    k.claimWithdraw s req =
      .error (.error (.insufficientFunds .module) ["failed to release funds"])

/-- The strings of a withdrawal mean something: an address and a positive coin. -/
structure SettlementWithdrawal.Payable (k : Keeper) (w : SettlementWithdrawal) : Prop where
  destination : ∃ addr, k.sdk.stringToBytes w.destination = .ok addr
  coin : ∃ coin, k.sdk.parseCoinNormalized (w.amount ++ w.denom) = .ok coin ∧ 0 < coin.amount

/-- What can be claimed reaches the release of its coins. -/
theorem Claimable.reachesRelease {s : State} {req : MsgClaimWithdraw} {addr : AccAddress}
    {record : WithdrawRecord} {coin : Coin} (h : Claimable k s req addr record coin) :
    k.ReachesRelease s req := by
  cases hSend : s.bank.sendCoinsFromModuleToAccount addr (newCoins coin) with
  | ok bank =>
    exact .inl ⟨_, _, claimWithdraw_eq_ok.mpr ⟨addr, record, coin, bank, ⟨h, hSend⟩, rfl, rfl⟩⟩
  | error f =>
    right
    obtain rfl := Bank.sendCoins_eq_error hSend
    simp only [Keeper.claimWithdraw, Keeper.creatorBytes, Keeper.releaseFunds,
      Result.bind_eq_error, Result.ofExcept_eq_ok, Result.ofOption_eq_ok, Result.require_eq_ok,
      Result.wrap_eq_error]
    exact .inr ⟨addr, h.creator, .inr ⟨(), h.withdrawId, .inr ⟨record, h.stored, .inr ⟨(),
      h.unclaimed, .inr ⟨(), h.named, .inr ⟨(), h.destination, .inr ⟨coin, h.parsed, .inr ⟨(),
      h.positive, .inl ⟨_, .inl hSend, rfl⟩⟩⟩⟩⟩⟩⟩⟩⟩

/-- A claim reaches the release exactly if it is claimable. -/
theorem reachesRelease_iff {s : State} {req : MsgClaimWithdraw} :
    k.ReachesRelease s req ↔ ∃ addr record coin, Claimable k s req addr record coin := by
  constructor
  · rintro (⟨s', r, hOk⟩ | hShort)
    · obtain ⟨addr, record, coin, bank, hClaimed, -, -⟩ := claimWithdraw_eq_ok.mp hOk
      exact ⟨addr, record, coin, hClaimed.toClaimable⟩
    · obtain ⟨addr, record, coin, hClaimable, -⟩ := claimWithdraw_lacks_funds hShort
      exact ⟨addr, record, coin, hClaimable⟩
  · rintro ⟨addr, record, coin, hClaimable⟩
    exact hClaimable.reachesRelease

section Settled

variable {s : State} {w : SettlementWithdrawal}

/-- The withdrawal has a record, claimed or not. -/
def Credited (s : State) (w : SettlementWithdrawal) : Prop :=
  ∃ r, s.withdrawRecords[w.withdrawId]? = some r ∧ Continues w.toRecord r

/-- A credited withdrawal stays credited through every run. -/
theorem Credited.run (h : Credited s w) (ops : List Op) : Credited (Run.exec k.step s ops) w := by
  obtain ⟨r, hr, hCont⟩ := h
  obtain ⟨r', hr', hCont'⟩ := kept_run k s ops w.withdrawId r hr
  exact ⟨r', hr', hCont.trans hCont'⟩

/-- Whoever claims the withdrawal, its strings are read. -/
theorem Credited.payable (h : Credited s w) {req : MsgClaimWithdraw} {addr : AccAddress}
    {record : WithdrawRecord} {coin : Coin} (hId : req.withdrawId = w.withdrawId)
    (hClaimable : Claimable k s req addr record coin) : w.Payable k := by
  obtain ⟨r, hr, hCont⟩ := h
  have hStored := hClaimable.stored
  rw [hId, hr] at hStored
  obtain rfl := Option.some.inj hStored
  have hDestination := hClaimable.destination
  have hParsed := hClaimable.parsed
  rw [hCont.same] at hDestination hParsed
  refine ⟨⟨addr, ?_⟩, coin, hParsed, hClaimable.positive⟩
  rw [← hClaimable.creator, ← hDestination]
  rfl

end Settled

/-- **What a batch can strand.** The records an accepted batch creates are
those of its withdrawals. When the account a withdrawal names claims it, all
checks before the release of the coins pass exactly if the destination is an
address and the strings are a positive coin; if they are not, the nullifier is
spent all the same and no later claim is ever accepted. -/
theorem settled_claimable_iff {ctx : Context} {s s' : State} {req : MsgSubmitBatchProof}
    {r : Response} (hOk : k.submitBatchProof ctx s req = .ok (s', r)) :
    (∀ (id : String) (record : WithdrawRecord), s'.withdrawRecords[id]? = some record →
      id ∉ s.withdrawRecords →
      ∃ w ∈ req.settlementUpdate.withdrawalList, w.withdrawId = id ∧ w.toRecord = record) ∧
    ∀ w ∈ req.settlementUpdate.withdrawalList,
      s'.withdrawRecords[w.withdrawId]? = some w.toRecord ∧
      s'.isNullifierUsed w.nullifier = true ∧
      (k.ReachesRelease s' ⟨w.destination, w.withdrawId⟩ ↔ w.Payable k) ∧
      (¬ w.Payable k → ∀ (ops : List Op) (op : Op) (creator : String),
        ¬ AcceptedClaim k (Run.exec k.step s' ops) op w.withdrawId creator) := by
  obtain ⟨hAttested, hValid, rfl, -⟩ := submitBatchProof_eq_ok.mp hOk
  refine ⟨?_, ?_⟩
  · intro id record hRecord hNew
    rcases hValid.withdrawRecord_iff.mp hRecord with hOwn | hOld
    · exact hOwn
    · exact absurd (Store.mem_iff.mpr ⟨record, hOld⟩) hNew
  · intro w hw
    have hStored : (settle ctx.height s req.settlementUpdate).withdrawRecords[w.withdrawId]? =
        some w.toRecord := hValid.withdrawRecord_iff.mpr (.inl ⟨w, hw, rfl, rfl⟩)
    have hCredited : Credited (settle ctx.height s req.settlementUpdate) w :=
      ⟨w.toRecord, hStored, .refl _⟩
    have hNew := hValid.fresh w hw
    refine ⟨hStored, ?_, ?_, ?_⟩
    · exact isNullifierUsed_settle.mpr (.inl (List.mem_map_of_mem hw))
    · rw [reachesRelease_iff]
      constructor
      · rintro ⟨addr, record, coin, hClaimable⟩
        exact hCredited.payable rfl hClaimable
      · rintro ⟨⟨addr, hAddr⟩, coin, hParsed, hPositive⟩
        exact ⟨addr, w.toRecord, coin, hAddr, hNew.withdrawId, hStored, rfl, hNew.destination, rfl,
          hParsed, hPositive⟩
    · rintro hNot ops op creator ⟨claim, s'', resp, -, hId, -, hAccepted⟩
      obtain ⟨addr, record, coin, bank, hClaimed, -, -⟩ := claimWithdraw_eq_ok.mp hAccepted
      exact hNot ((hCredited.run ops).payable hId hClaimed.toClaimable)

section Sample

open Ganc.Zkdex.Sample Ganc.Sample

/-- Bob's forty can be claimed once the batch is settled. -/
theorem settled_claimable_iff_sample : ∃ s' r,
    keeper.submitBatchProof ⟨2, .ok zeros⟩ (keeper.reach bank [deposits])
      ⟨carol, update, commitments, proofBundle⟩ = .ok (s', r) ∧
    keeper.ReachesRelease s' ⟨bob, "wd-1"⟩ := by
  obtain ⟨⟨s', r⟩, hOk⟩ := Result.exists_of_isOk
    (x := keeper.submitBatchProof ⟨2, .ok zeros⟩ (keeper.reach bank [deposits])
      ⟨carol, update, commitments, proofBundle⟩) (by decide +kernel)
  have hEach := (settled_claimable_iff hOk).2
    ⟨"wd-1", alice, "uatom", "40", bob, "0xhash", "0xnullifier"⟩ (by decide)
  refine ⟨s', r, hOk, hEach.2.2.1.mpr ⟨⟨List.replicate 20 2, ?_⟩, ⟨"uatom", 40⟩, ?_, ?_⟩⟩
  · decide +kernel
  · decide +kernel
  · decide

/-- A batch that credits forty to `nobody`, which is no address. -/
def stranding : SettlementUpdate where
  batchId := "batch-1"
  oldStateRoot := "0xrootA"
  newStateRoot := "0xrootB"
  deposits := []
  withdrawals := [some ⟨"wd-1", alice, "uatom", "40", "nobody", "0xhash", "0xnullifier"⟩]

/-- The batch is accepted and the nullifier spent, but the named account does
not even get to the release. -/
theorem withdrawal_stranded : ∃ s' r,
    keeper.submitBatchProof ⟨1, .ok zeros⟩ (State.genesis bank)
      ⟨carol, stranding, commitments, proofBundle⟩ = .ok (s', r) ∧
    s'.isNullifierUsed "0xnullifier" = true ∧ "wd-1" ∈ s'.withdrawRecords ∧
    ¬ keeper.ReachesRelease s' ⟨"nobody", "wd-1"⟩ := by
  obtain ⟨⟨s', r⟩, hOk⟩ := Result.exists_of_isOk
    (x := keeper.submitBatchProof ⟨1, .ok zeros⟩ (State.genesis bank)
      ⟨carol, stranding, commitments, proofBundle⟩) (by decide +kernel)
  have hSettled := hOk
  obtain ⟨-, hValid, rfl, -⟩ := submitBatchProof_eq_ok.mp hSettled
  refine ⟨_, r, hOk, ?_, ?_, ?_⟩
  · exact isNullifierUsed_settle.mpr (.inl (by decide))
  · exact Store.mem_iff.mpr ⟨_, hValid.withdrawRecord_iff.mpr (.inl ⟨_, List.mem_cons_self ..,
      rfl, rfl⟩)⟩
  · intro hReaches
    obtain ⟨addr, record, coin, hClaimable⟩ := reachesRelease_iff.mp hReaches
    have hNone : (keeper.sdk.stringToBytes "nobody").isOk = false := by decide +kernel
    have hSome := hClaimable.creator
    rw [hSome] at hNone
    cases hNone

end Sample

end Ganc.Zkdex
