import Mathlib.Algebra.Order.Group.Multiset
import Ganc.Zkdex.StepSpec

/-!
# x/zkdex — every withdrawal is paid out once

* `kept_run` — a withdraw record stays where it is and only its `claimed` flag
  ever changes, from false to true.
* `claim_of_flip` — the flag changes in an accepted `ClaimWithdraw` of the
  record's destination.
* `claimed_once` — along a run each id is claimed at most once.
* `paid_run` — what leaves the module account is the coins of the records that
  were claimed, each exactly once.

All of it holds from any state at all: the checks of `SubmitBatchProof` alone
keep a later batch from touching a record that is already there.
-/

namespace Ganc.Zkdex

variable {k : Keeper}

-- ---------------------------------------------------------------------------
-- A record along a run
-- ---------------------------------------------------------------------------

/-- What a later record under an id has to do with an earlier one. -/
structure Continues (r r' : WithdrawRecord) : Prop where
  same : r' = { r with claimed := r'.claimed }
  stays : r.claimed = true → r'.claimed = true

theorem Continues.refl (r : WithdrawRecord) : Continues r r := ⟨rfl, fun h => h⟩

theorem Continues.trans {a b c : WithdrawRecord} (hab : Continues a b) (hbc : Continues b c) :
    Continues a c := by
  refine ⟨?_, fun h => hbc.stays (hab.stays h)⟩
  rw [hbc.same, hab.same]

/-- Every withdraw record of `s` is still in `s'`. -/
def Kept (s s' : State) : Prop :=
  ∀ (id : String) (r : WithdrawRecord), s.withdrawRecords[id]? = some r →
    ∃ r', s'.withdrawRecords[id]? = some r' ∧ Continues r r'

theorem Kept.refl (s : State) : Kept s s := fun _ r hr => ⟨r, hr, .refl r⟩

theorem Kept.trans {a b c : State} (hab : Kept a b) (hbc : Kept b c) : Kept a c := by
  intro id r hr
  obtain ⟨r₁, hr₁, hCont⟩ := hab id r hr
  obtain ⟨r₂, hr₂, hCont'⟩ := hbc id r₁ hr₁
  exact ⟨r₂, hr₂, hCont.trans hCont'⟩

/-- A settlement leaves every withdrawal as it is. -/
theorem Validated.kept {s : State} {u : SettlementUpdate} (h : Validated s u) (height : Nat) :
    Kept s (settle height s u) := by
  intro id r hr
  exact ⟨r, h.withdrawRecord_iff.mpr (.inr hr), .refl r⟩

/-- Every accepted message leaves the withdrawals as they are, or claims one. -/
theorem Effect.kept {ctx : Context} {s s' : State} {msg : Msg} (h : Effect k ctx s msg s') :
    Kept s s' := by
  cases h with
  | submitBatchProof hValid => exact hValid.kept ctx.height
  | @claimWithdraw req _ _ _ _ hClaimed =>
    intro id r hr
    refine ⟨if id = req.withdrawId then { r with claimed := true } else r, ?_, ?_⟩
    · refine (hClaimed.get? id).trans ?_
      rw [hr]
      rfl
    · split
      · exact ⟨rfl, fun _ => rfl⟩
      · exact .refl r
  | _ => exact .refl s

/-- Every step leaves the withdrawals as they are, or claims one. -/
theorem kept_step (k : Keeper) (s : State) (op : Op) : Kept s (k.step s op) := by
  obtain ⟨ctx, msg⟩ := op
  exact step_induction (.refl s) fun s' hEffect => hEffect.kept

/-- Every run leaves the withdrawals as they are, but for claims. -/
theorem kept_run (k : Keeper) (s : State) (ops : List Op) : Kept s (Run.exec k.step s ops) :=
  Run.exec_relation Kept.refl Kept.trans (kept_step k) s ops

-- ---------------------------------------------------------------------------
-- When the flag changes
-- ---------------------------------------------------------------------------

/-- The record under an id was claimed. -/
def State.isClaimed (s : State) (id : String) : Bool :=
  (s.withdrawRecords[id]?.map WithdrawRecord.claimed).getD false

theorem isClaimed_iff {s : State} {id : String} : s.isClaimed id = true ↔
    ∃ r, s.withdrawRecords[id]? = some r ∧ r.claimed = true := by
  unfold State.isClaimed
  cases s.withdrawRecords[id]? <;> simp

/-- What is claimed stays claimed. -/
theorem Kept.isClaimed {s s' : State} (h : Kept s s') {id : String}
    (hClaimed : s.isClaimed id = true) : s'.isClaimed id = true := by
  obtain ⟨r, hr, hTrue⟩ := isClaimed_iff.mp hClaimed
  obtain ⟨r', hr', hCont⟩ := h id r hr
  exact isClaimed_iff.mpr ⟨r', hr', hCont.stays hTrue⟩

/-- A `ClaimWithdraw` the handler accepts in `s`. -/
def AcceptedClaim (k : Keeper) (s : State) (op : Op) (id creator : String) : Prop :=
  ∃ (req : MsgClaimWithdraw) (s' : State) (r : Response), op.msg = .claimWithdraw req ∧
    req.withdrawId = id ∧ req.creator = creator ∧ k.claimWithdraw s req = .ok (s', r)

/-- Only an accepted claim makes a withdrawal claimed. -/
theorem claim_of_flip {s : State} {op : Op} {id : String} {r : WithdrawRecord}
    (hr : s.withdrawRecords[id]? = some r) (hOpen : s.isClaimed id = false)
    (hFlip : (k.step s op).isClaimed id = true) : AcceptedClaim k s op id r.destination := by
  obtain ⟨ctx, msg⟩ := op
  revert hFlip
  refine commit_induction (P := fun s' : State => s'.isClaimed id = true →
    AcceptedClaim k s ⟨ctx, msg⟩ id r.destination) ?_ fun s' resp hHandle hFlip => ?_
  · intro hFlip
    rw [hOpen] at hFlip
    cases hFlip
  obtain ⟨r', hr', hTrue⟩ := isClaimed_iff.mp hFlip
  have hFalse : r.claimed ≠ true := by
    intro hClaimed
    rw [isClaimed_iff.mpr ⟨r, hr, hClaimed⟩] at hOpen
    cases hOpen
  have hEffect := handle_effect hHandle
  cases hEffect with
  | submitBatchProof hValid =>
    -- the batch leaves the record alone
    obtain rfl := Option.some.inj (hr'.symm.trans (hValid.withdrawRecord_iff.mpr (.inr hr)))
    exact absurd hTrue hFalse
  | @claimWithdraw req _ record _ _ hClaimed =>
    have hGet := (hClaimed.get? id).symm.trans hr'
    rw [hr, Option.map_some, Option.some.injEq] at hGet
    by_cases hId : id = req.withdrawId
    · subst hId
      obtain rfl := Option.some.inj (hr.symm.trans hClaimed.stored)
      exact ⟨req, _, resp, rfl, rfl, hClaimed.destination.symm, hHandle⟩
    · rw [if_neg hId] at hGet
      rw [← hGet] at hTrue
      exact absurd hTrue hFalse
  | _ =>
    obtain rfl := Option.some.inj (hr.symm.trans hr')
    exact absurd hTrue hFalse

-- ---------------------------------------------------------------------------
-- Each id is claimed once
-- ---------------------------------------------------------------------------

def claimsOf (_ : Context) : Msg → List String
  | .claimWithdraw req => [req.withdrawId]
  | _ => []

/-- The ids of the claims a run accepts, in order. -/
abbrev Keeper.claims (k : Keeper) (s : State) (ops : List Op) : List String :=
  Run.trace k.step (k.accepted claimsOf) s ops

/-- No id of the record occurs twice, and all of them are claimed. -/
def ClaimedOnce (record : List String) (s : State) : Prop :=
  record.Nodup ∧ ∀ id ∈ record, s.isClaimed id = true

/-- What is being claimed has not been claimed. -/
theorem Claimed.isClaimed {s : State} {req : MsgClaimWithdraw} {addr : AccAddress}
    {record : WithdrawRecord} {coin : Coin} {bank : Bank}
    (h : Claimed k s req addr record coin bank) : s.isClaimed req.withdrawId = false := by
  rw [State.isClaimed, h.stored, Option.map_some, Option.getD_some]
  exact h.unclaimed

/-- Every step records the claim that it accepts, for the first time. -/
theorem claimedOnce_step (k : Keeper) (record : List String) (s : State) (op : Op)
    (h : ClaimedOnce record s) :
    ClaimedOnce (record ++ k.accepted claimsOf s op) (k.step s op) := by
  obtain ⟨ctx, msg⟩ := op
  have hKeep : ∀ {s' : State}, Kept s s' → ClaimedOnce (record ++ []) s' := by
    intro s' hKept
    rw [List.append_nil]
    exact ⟨h.1, fun id hid => hKept.isClaimed (h.2 id hid)⟩
  refine accepted_induction (P := fun new s' => ClaimedOnce (record ++ new) s')
    (hKeep (.refl s)) ?_
  intro s' hEffect
  have hKept := hEffect.kept
  cases hEffect with
  | claimWithdraw hClaimed =>
    refine ⟨List.nodup_append.mpr ⟨h.1, List.nodup_singleton _, ?_⟩, ?_⟩
    · rintro id hOld id' hNew rfl
      have hTwice := h.2 id hOld
      rw [List.mem_singleton.mp hNew, hClaimed.isClaimed] at hTwice
      cases hTwice
    · intro id hid
      rcases List.mem_append.mp hid with hOld | hNew
      · exact hKept.isClaimed (h.2 id hOld)
      · rw [List.mem_singleton.mp hNew]
        exact isClaimed_iff.mpr ⟨_, Std.ExtTreeMap.getElem?_insert_self, rfl⟩
  | _ => exact hKeep hKept

/-- In every run no withdrawal is claimed twice. -/
theorem claimed_once (k : Keeper) (s : State) (ops : List Op) : (k.claims s ops).Nodup := by
  have hInit : ClaimedOnce [] s := by
    refine ⟨List.nodup_nil, ?_⟩
    intro id hid
    cases hid
  exact (Run.exec_trace (claimedOnce_step k) ops hInit).1

-- ---------------------------------------------------------------------------
-- What leaves the module account
-- ---------------------------------------------------------------------------

/-- The coins that the sends of a log take from the module account. -/
def outflow (log : List Transfer) : Multiset Coin :=
  ((log.filter fun t => t.src = .module).flatMap Transfer.coins : List Coin)

/-- A transfer flows out if the module sends it. -/
theorem outflow_snoc (log : List Transfer) (t : Transfer) : outflow (log ++ [t]) =
    outflow log + if t.src = .module then (t.coins : Multiset Coin) else 0 := by
  unfold outflow
  rw [List.filter_append, List.flatMap_append, ← Multiset.coe_add]
  congr 1
  by_cases hSrc : t.src = .module <;> simp [hSrc]

/-- The coin a record stands for, if it parses. -/
def Keeper.coinOf (k : Keeper) (r : WithdrawRecord) : Option Coin :=
  (k.sdk.parseCoinNormalized (r.amount ++ r.denom)).toOption

/-- What a record stands for when it was not claimed in `s` but is now. -/
def paidFor (k : Keeper) (s : State) (id : String) (r : WithdrawRecord) : Multiset Coin :=
  if r.claimed && !s.isClaimed id then (k.coinOf r).elim 0 fun c => {c} else 0

/-- The coins of the records that went from unclaimed to claimed. -/
def paidOut (k : Keeper) (s s' : State) : Multiset Coin :=
  Store.total (paidFor k s) s'.withdrawRecords

/-- The module account has paid exactly for the records claimed since `s`. -/
structure Paid (k : Keeper) (s s' : State) : Prop where
  kept : Kept s s'
  sends : ∃ sends, s'.bank.log = s.bank.log ++ sends ∧ outflow sends = paidOut k s s'
  positive : ∀ (id : String) (r : WithdrawRecord), s'.withdrawRecords[id]? = some r →
    r.claimed = true → s.isClaimed id = false → ∃ c, k.coinOf r = some c ∧ 0 < c.amount

/-- Between a state and itself nothing is paid out. -/
theorem paidOut_self (k : Keeper) (s : State) : paidOut k s s = 0 := by
  have hZero : ∀ (id : String) (r : WithdrawRecord), s.withdrawRecords[id]? = some r →
      paidFor k s id r = (fun _ _ => 0 : String → WithdrawRecord → Multiset Coin) id r := by
    intro id r hr
    rw [paidFor, State.isClaimed, hr]
    cases hClaimed : r.claimed <;> simp [hClaimed]
  rw [paidOut, Store.total_congr hZero]
  simp [Store.total]

theorem Paid.refl (k : Keeper) (s : State) : Paid k s s where
  kept := .refl s
  sends := ⟨[], (List.append_nil _).symm, (paidOut_self k s).symm⟩
  positive id r hr hClaimed hOpen := by
    rw [isClaimed_iff.mpr ⟨r, hr, hClaimed⟩] at hOpen
    cases hOpen

/-- A step that claims and sends nothing pays nothing. -/
theorem Paid.of_stores {s s₁ s₂ : State} (h : Paid k s s₁)
    (hRecords : s₂.withdrawRecords = s₁.withdrawRecords)
    (hLog : ∃ sends, s₂.bank.log = s₁.bank.log ++ sends ∧ outflow sends = 0) : Paid k s s₂ := by
  obtain ⟨sends, hSends, hOut⟩ := h.sends
  obtain ⟨more, hMore, hNone⟩ := hLog
  refine ⟨?_, ⟨sends ++ more, ?_, ?_⟩, ?_⟩
  · intro id r hr
    rw [hRecords]
    exact h.kept id r hr
  · rw [hMore, hSends, List.append_assoc]
  · have hAppend : outflow (sends ++ more) = outflow sends + outflow more := by
      unfold outflow
      rw [List.filter_append, List.flatMap_append, Multiset.coe_add]
    rw [hAppend, hNone, add_zero, hOut, paidOut, paidOut, hRecords]
  · rw [hRecords]
    exact h.positive

/-- The records of a batch are not claimed. -/
theorem Paid.settle {s s₁ : State} {u : SettlementUpdate} (h : Paid k s s₁)
    (hValid : Validated s₁ u) (height : Nat) : Paid k s (settle height s₁ u) := by
  obtain ⟨sends, hSends, hOut⟩ := h.sends
  refine ⟨h.kept.trans (hValid.kept height), ⟨sends, hSends, ?_⟩, ?_⟩
  · have hNone : (u.withdrawalList.map fun w => paidFor k s w.withdrawId w.toRecord).sum = 0 := by
      refine List.sum_eq_zero ?_
      intro x hx
      obtain ⟨w, -, rfl⟩ := List.mem_map.mp hx
      rfl
    rw [hOut, paidOut, paidOut, hValid.total_withdrawRecords, hNone, zero_add]
  · intro id r hr hClaimed hOpen
    rcases hValid.withdrawRecord_iff.mp hr with ⟨w, -, -, rfl⟩ | hOld
    · cases hClaimed
    · exact h.positive id r hOld hClaimed hOpen

/-- A claim sends its coin to the destination. -/
theorem Claimed.log {s : State} {req : MsgClaimWithdraw} {addr : AccAddress}
    {record : WithdrawRecord} {coin : Coin} {bank : Bank}
    (h : Claimed k s req addr record coin bank) :
    bank.log = s.bank.log ++ [⟨.module, .user addr, [coin]⟩] := by
  have hLog := (Bank.sendCoins_eq_ok.mp h.released).2
  rwa [newCoins, if_neg (Nat.ne_of_gt h.positive)] at hLog

/-- A claim pays for the one record that it claims. -/
theorem Paid.claim {s s₁ : State} {req : MsgClaimWithdraw} {addr : AccAddress}
    {record : WithdrawRecord} {coin : Coin} {bank : Bank} {s₂ : State} (h : Paid k s s₁)
    (hClaimed : Claimed k s₁ req addr record coin bank) (hKept : Kept s₁ s₂)
    (hBank : s₂.bank = bank)
    (hRecords : s₂.withdrawRecords =
      s₁.withdrawRecords.insert req.withdrawId { record with claimed := true }) :
    Paid k s s₂ := by
  -- the record was not claimed at the start either
  have hOpen : s.isClaimed req.withdrawId = false := by
    cases hStart : s.isClaimed req.withdrawId with
    | false => rfl
    | true =>
      have hNow := h.kept.isClaimed hStart
      rw [hClaimed.isClaimed] at hNow
      cases hNow
  have hCoin : k.coinOf { record with claimed := true } = some coin := by
    show (k.sdk.parseCoinNormalized (record.amount ++ record.denom)).toOption = some coin
    rw [hClaimed.parsed]
    rfl
  obtain ⟨sends, hSends, hOut⟩ := h.sends
  refine ⟨h.kept.trans hKept, ⟨sends ++ [⟨.module, .user addr, [coin]⟩], ?_, ?_⟩, ?_⟩
  · rw [hBank, hClaimed.log, hSends, List.append_assoc]
  · have hTotal := Store.total_insert_of_some (paidFor k s)
      ({ record with claimed := true } : WithdrawRecord) hClaimed.stored
    have hBefore : paidFor k s req.withdrawId record = 0 := by
      rw [paidFor, hClaimed.unclaimed]
      rfl
    have hAfter : paidFor k s req.withdrawId { record with claimed := true } = {coin} := by
      rw [paidFor, hOpen, hCoin]
      rfl
    rw [hBefore, hAfter, zero_add] at hTotal
    rw [outflow_snoc, if_pos rfl, hOut, paidOut, paidOut, hRecords, hTotal, add_comm]
    rfl
  · intro id r hr hTrue hStart
    rw [hRecords, Store.get?_insert] at hr
    split at hr
    · obtain rfl := Option.some.inj hr
      exact ⟨coin, hCoin, hClaimed.positive⟩
    · exact h.positive id r hr hTrue hStart

/-- Every step pays for what it claims. -/
theorem paid_step (k : Keeper) (s s₁ : State) (op : Op) (h : Paid k s s₁) :
    Paid k s (k.step s₁ op) := by
  obtain ⟨ctx, msg⟩ := op
  refine step_induction h ?_
  intro s₂ hEffect
  have hKept := hEffect.kept
  cases hEffect with
  | updateParams => exact h.of_stores rfl ⟨[], (List.append_nil _).symm, rfl⟩
  | deposit hDeposited =>
    refine h.of_stores rfl ⟨_, (Bank.sendCoins_eq_ok.mp hDeposited.funded).2, ?_⟩
    rfl
  | submitBatchProof hValid => exact h.settle hValid ctx.height
  | claimWithdraw hClaimed => exact h.claim hClaimed hKept rfl rfl

/-- Every run pays for what it claims. -/
theorem paid_run (k : Keeper) (s : State) (ops : List Op) : Paid k s (Run.exec k.step s ops) :=
  Run.exec_invariant (paid_step k s) ops (.refl k s)

/-- **Every withdrawal is paid out once**, on every run from any state: a record
is never removed or rewritten, its flag only goes from false to true, in an
accepted `ClaimWithdraw` of its destination, each id is claimed at most once,
and the coins that leave the module account are those of the records that went
from unclaimed to claimed, all of which stand for a positive coin. -/
theorem exactly_once_payout (k : Keeper) (s : State) (ops : List Op) :
    (∀ (id : String) (r : WithdrawRecord), s.withdrawRecords[id]? = some r →
      ∃ r', (Run.exec k.step s ops).withdrawRecords[id]? = some r' ∧ Continues r r') ∧
    (∀ (pre post : List Op) (op : Op) (id : String) (r r' : WithdrawRecord),
      ops = pre ++ op :: post →
      (Run.exec k.step s pre).withdrawRecords[id]? = some r → r.claimed = false →
      (Run.exec k.step s (pre ++ [op])).withdrawRecords[id]? = some r' → r'.claimed = true →
      AcceptedClaim k (Run.exec k.step s pre) op id r.destination) ∧
    (k.claims s ops).Nodup ∧
    (∃ sends, (Run.exec k.step s ops).bank.log = s.bank.log ++ sends ∧
      outflow sends = paidOut k s (Run.exec k.step s ops)) ∧
    (∀ (id : String) (r : WithdrawRecord),
      (Run.exec k.step s ops).withdrawRecords[id]? = some r → r.claimed = true →
      s.isClaimed id = false → ∃ c, k.coinOf r = some c ∧ 0 < c.amount) := by
  have hPaid := paid_run k s ops
  refine ⟨kept_run k s ops, ?_, claimed_once k s ops, hPaid.sends, hPaid.positive⟩
  intro pre post op id r r' _ hr hFalse hr' hTrue
  have hOpen : (Run.exec k.step s pre).isClaimed id = false := by
    rw [State.isClaimed, hr, Option.map_some, Option.getD_some]
    exact hFalse
  rw [Run.exec_append] at hr'
  exact claim_of_flip hr hOpen (isClaimed_iff.mpr ⟨r', hr', hTrue⟩)

end Ganc.Zkdex
