import Ganc.Zkdex.Sample
import Ganc.Zkdex.StepSpec

/-!
# x/zkdex — two validators

Two validators deliver the same messages at the same heights, and each of them
draws bytes of its own. Only an admitted `Deposit` looks at them, and it puts
them into the id it stores and returns. So the validators agree exactly when
their draws do at every admitted `Deposit` (`agree_iff_sameDraws`), and they
agree whatever they draw exactly when no `Deposit` is admitted
(`replicas_agree_iff`).
-/

namespace Ganc.Zkdex

variable {k : Keeper}

-- ---------------------------------------------------------------------------
-- Deposit ids
-- ---------------------------------------------------------------------------

/-- Digits are told apart. -/
theorem hexDigit_inj {m n : Nat} (hm : m < 16) (hn : n < 16) (h : hexDigit m = hexDigit n) :
    m = n := by
  have hAll : ∀ a b : Fin 16, hexDigit a = hexDigit b → a = b := by decide
  exact Fin.mk.inj_iff.mp (hAll ⟨m, hm⟩ ⟨n, hn⟩ h)

theorem hexByte_inj {a b : UInt8} (hHigh : hexDigit (a.toNat / 16) = hexDigit (b.toNat / 16))
    (hLow : hexDigit (a.toNat % 16) = hexDigit (b.toNat % 16)) : a = b := by
  have ha := a.toNat_lt
  have hb := b.toNat_lt
  have hHigh := hexDigit_inj (by omega) (by omega) hHigh
  have hLow := hexDigit_inj (by omega) (by omega) hLow
  refine UInt8.toNat_inj.mp ?_
  omega

/-- Two byte strings have different digits. -/
theorem hexEncodeToString_inj {src src' : List UInt8}
    (h : hexEncodeToString src = hexEncodeToString src') : src = src' := by
  have hChars := String.ofList_injective h
  induction src generalizing src' with
  | nil =>
    cases src' with
    | nil => rfl
    | cons b src' => cases hChars
  | cons a src ih =>
    cases src' with
    | nil => cases hChars
    | cons b src' =>
      simp only [List.flatMap_cons, List.cons_append, List.nil_append, List.cons.injEq] at hChars
      obtain ⟨hHigh, hLow, hRest⟩ := hChars
      rw [hexByte_inj hHigh hLow, ih (by rw [hexEncodeToString, hRest, ← hexEncodeToString]) hRest]

/-- An id tells which bytes it was made with. -/
theorem depositIdOf_inj {creator : String} {height : Nat} {randBytes randBytes' : Vector UInt8 4}
    (h : depositIdOf creator height randBytes = depositIdOf creator height randBytes') :
    randBytes = randBytes' := by
  have hList := congrArg String.toList h
  simp only [depositIdOf, String.toList_append] at hList
  have hHex := hexEncodeToString_inj (String.toList_inj.mp (List.append_cancel_left hList))
  exact Vector.toList_inj.mp hHex

-- ---------------------------------------------------------------------------
-- What a handler makes of the bytes
-- ---------------------------------------------------------------------------

/-- The state admits a deposit: the request passes its own checks and the
creator holds the coin. -/
def Keeper.Admits (k : Keeper) (s : State) (req : MsgDeposit) : Prop :=
  ∃ addr coin, Requested k req addr coin ∧ coin.amount ≤ s.bank.balance (.user addr) coin.denom

/-- An admitted deposit is accepted, and its response shows the bytes. -/
theorem Keeper.Admits.deposit {s : State} {req : MsgDeposit} (h : k.Admits s req) (height : Nat)
    (randBytes : Vector UInt8 4) :
    response (k.deposit ⟨height, .ok randBytes⟩ s req) =
      .ok (.deposit (req.toRecord height randBytes)) := by
  obtain ⟨addr, coin, hRequested, hFunds⟩ := h
  have hFunded : ∃ bank, s.bank.sendCoinsFromAccountToModule addr (newCoins coin) = .ok bank :=
    Bank.sendCoins_isOk_iff.mpr hFunds
  obtain ⟨bank, hFunded⟩ := hFunded
  have hDeposited : Deposited k ⟨height, .ok randBytes⟩ s req addr coin randBytes bank :=
    ⟨hRequested, rfl, hFunded⟩
  rw [deposit_eq_ok.mpr ⟨addr, coin, randBytes, bank, hDeposited, rfl, rfl⟩]
  rfl

/-- A deposit that is not admitted fails the same way whatever the bytes. -/
theorem deposit_congr {s : State} {req : MsgDeposit} (h : ¬ k.Admits s req) (height : Nat)
    (randBytes randBytes' : Vector UInt8 4) :
    k.deposit ⟨height, .ok randBytes⟩ s req = k.deposit ⟨height, .ok randBytes'⟩ s req := by
  unfold Keeper.deposit Keeper.creatorBytes
  refine Result.bind_congr fun addr hCreator => Result.bind_congr fun _ hDenom =>
    Result.bind_congr fun _ hAmount => Result.bind_congr fun coin hParsed =>
    Result.bind_congr ?_
  intro _ hPositive
  have hRequested : Requested k req addr coin :=
    ⟨Result.ofExcept_eq_ok.mp hCreator, Result.require_eq_ok.mp hDenom,
      Result.require_eq_ok.mp hAmount, Result.ofExcept_eq_ok.mp hParsed,
      Result.require_eq_ok.mp hPositive⟩
  have hRefused : ¬ ∃ bank, s.bank.sendCoinsFromAccountToModule addr (newCoins coin) = .ok bank :=
    fun hFunded => h ⟨addr, coin, hRequested, Bank.sendCoins_isOk_iff.mp hFunded⟩
  -- both ids are drawn, and then the escrow fails
  refine Result.bind_congr (x := Result.wrap "failed to escrow funds"
    (Keeper.escrowFunds s addr (newCoins coin))) ?_
  intro s' hEscrow
  simp only [Keeper.escrowFunds, Result.wrap_eq_ok, Result.bind_eq_ok] at hEscrow
  obtain ⟨bank, hFunded, -⟩ := hEscrow
  exact absurd ⟨bank, hFunded⟩ hRefused

/-- The random bytes matter to an admitted deposit only. -/
theorem handle_congr {s : State} {msg : Msg} {height : Nat} {randBytes randBytes' : Vector UInt8 4}
    (h : ∀ req, msg = .deposit req → k.Admits s req → randBytes = randBytes') :
    k.handle ⟨height, .ok randBytes⟩ s msg = k.handle ⟨height, .ok randBytes'⟩ s msg := by
  cases msg with
  | deposit req =>
    by_cases hAdmits : k.Admits s req
    · rw [h req rfl hAdmits]
    · exact deposit_congr hAdmits height randBytes randBytes'
  | updateParams req => rfl
  | submitBatchProof req => rfl
  | claimWithdraw req => rfl

-- ---------------------------------------------------------------------------
-- Two runs of the same messages
-- ---------------------------------------------------------------------------

/-- What a validator delivers: the messages of the chain, each with the height
of its block, and with the bytes the validator would draw for it. -/
def deliveries : List (Nat × Msg) → (Nat → Vector UInt8 4) → List Op
  | [], _ => []
  | (height, msg) :: msgs, rand =>
    ⟨⟨height, .ok (rand 0)⟩, msg⟩ :: deliveries msgs fun i => rand (i + 1)

/-- What the validator answers to each message. -/
abbrev Keeper.responses (k : Keeper) (s : State) (ops : List Op) : List (Result Response) :=
  Run.trace k.step (fun s op => [response (k.handle op.ctx s op.msg)]) s ops

theorem responses_cons (k : Keeper) (s : State) (op : Op) (ops : List Op) :
    k.responses s (op :: ops) =
      response (k.handle op.ctx s op.msg) :: k.responses (k.step s op) ops := rfl

/-- Two validators end in the same state of the module and have answered every
message alike. -/
structure Agree (k : Keeper) (s : State) (ops ops' : List Op) : Prop where
  depositRecords : (Run.exec k.step s ops).depositRecords =
    (Run.exec k.step s ops').depositRecords
  depositProcessed : (Run.exec k.step s ops).depositProcessed =
    (Run.exec k.step s ops').depositProcessed
  withdrawRecords : (Run.exec k.step s ops).withdrawRecords =
    (Run.exec k.step s ops').withdrawRecords
  nullifierUsed : (Run.exec k.step s ops).nullifierUsed =
    (Run.exec k.step s ops').nullifierUsed
  batchRecords : (Run.exec k.step s ops).batchRecords =
    (Run.exec k.step s ops').batchRecords
  stateRoot : (Run.exec k.step s ops).getStateRoot = (Run.exec k.step s ops').getStateRoot
  balance : (Run.exec k.step s ops).bank.balance = (Run.exec k.step s ops').bank.balance
  responses : k.responses s ops = k.responses s ops'

/-- The two validators draw the same bytes for every deposit the first of them
admits. -/
def SameDraws (k : Keeper) (s : State) :
    List (Nat × Msg) → (Nat → Vector UInt8 4) → (Nat → Vector UInt8 4) → Prop
  | [], _, _ => True
  | (height, msg) :: msgs, rand, rand' =>
    (∀ req, msg = .deposit req → k.Admits s req → rand 0 = rand' 0) ∧
      SameDraws k (k.step s ⟨⟨height, .ok (rand 0)⟩, msg⟩) msgs (fun i => rand (i + 1))
        fun i => rand' (i + 1)

section Deliveries

variable {s : State} {height : Nat} {msg : Msg} {msgs : List (Nat × Msg)}
  {rand rand' : Nat → Vector UInt8 4}

/-- A step draws the same if its random bytes do not matter. -/
theorem step_congr
    (h : ∀ req, msg = .deposit req → k.Admits s req → rand 0 = rand' 0) :
    k.step s ⟨⟨height, .ok (rand 0)⟩, msg⟩ = k.step s ⟨⟨height, .ok (rand' 0)⟩, msg⟩ :=
  congrArg (commit s) (handle_congr h)

/-- The same draws make the same run. -/
theorem SameDraws.run (h : SameDraws k s msgs rand rand') :
    Run.exec k.step s (deliveries msgs rand) = Run.exec k.step s (deliveries msgs rand') ∧
      k.responses s (deliveries msgs rand) = k.responses s (deliveries msgs rand') := by
  induction msgs generalizing s rand rand' with
  | nil => exact ⟨rfl, rfl⟩
  | cons m msgs ih =>
    obtain ⟨height, msg⟩ := m
    obtain ⟨hHead, hTail⟩ := h
    obtain ⟨hExec, hResponses⟩ := ih hTail
    rw [step_congr hHead] at hExec hResponses
    rw [deliveries, deliveries]
    constructor
    · rw [Run.exec_cons, Run.exec_cons, step_congr hHead, hExec]
    · rw [responses_cons, responses_cons, step_congr hHead, hResponses]
      exact congrArg (response · :: _) (handle_congr hHead)

/-- Equal states and responses are an agreement. -/
theorem Agree.of_run
    (hExec : Run.exec k.step s (deliveries msgs rand) = Run.exec k.step s (deliveries msgs rand'))
    (hResponses : k.responses s (deliveries msgs rand) = k.responses s (deliveries msgs rand')) :
    Agree k s (deliveries msgs rand) (deliveries msgs rand') := by
  constructor
  case responses => exact hResponses
  all_goals rw [hExec]

/-- Answers that agree show the same draws. -/
theorem sameDraws_of_responses
    (h : k.responses s (deliveries msgs rand) = k.responses s (deliveries msgs rand')) :
    SameDraws k s msgs rand rand' := by
  induction msgs generalizing s rand rand' with
  | nil => trivial
  | cons m msgs ih =>
    obtain ⟨height, msg⟩ := m
    rw [deliveries, deliveries, responses_cons, responses_cons] at h
    obtain ⟨hHead, hTail⟩ := List.cons.inj h
    have hSame : ∀ req, msg = .deposit req → k.Admits s req → rand 0 = rand' 0 := by
      rintro req rfl hAdmits
      have hRecords := (hAdmits.deposit height (rand 0)).symm.trans
        (hHead.trans (hAdmits.deposit height (rand' 0)))
      have hRecord := Response.deposit.inj (Except.ok.inj hRecords)
      exact depositIdOf_inj (congrArg DepositRecord.depositId hRecord)
    refine ⟨hSame, ih ?_⟩
    rw [← step_congr hSame] at hTail
    exact hTail

/-- Two validators agree exactly when they draw the same bytes for every
deposit that is admitted. -/
theorem agree_iff_sameDraws : Agree k s (deliveries msgs rand) (deliveries msgs rand') ↔
    SameDraws k s msgs rand rand' := by
  constructor
  · intro h
    exact sameDraws_of_responses h.responses
  · intro h
    exact Agree.of_run h.run.1 h.run.2

end Deliveries

-- ---------------------------------------------------------------------------
-- Validators that draw what they like
-- ---------------------------------------------------------------------------

/-- The message is no deposit that the state admits. -/
def Keeper.DrawsNothing (k : Keeper) (s : State) (op : Op) : Prop :=
  ∀ req, op.msg = .deposit req → ¬ k.Admits s req

/-- The draws with `r` before them. -/
def precede (r : Vector UInt8 4) (rand : Nat → Vector UInt8 4) : Nat → Vector UInt8 4
  | 0 => r
  | i + 1 => rand i

/-- There are other random bytes. -/
theorem exists_ne_randBytes (r : Vector UInt8 4) : ∃ r', r' ≠ r := by
  by_contra hAll
  have hEq : ∀ r', r' = r := fun r' => Decidable.of_not_not fun hne => hAll ⟨r', hne⟩
  have hSame : Vector.replicate 4 (0 : UInt8) = Vector.replicate 4 1 :=
    (hEq _).trans (hEq _).symm
  exact absurd hSame (by decide)

/-- All draws are the same exactly if nothing is drawn. -/
theorem sameDraws_iff {s : State} {msgs : List (Nat × Msg)} :
    (∀ rand rand', SameDraws k s msgs rand rand') ↔
      ∀ rand, Run.Steps k.step k.DrawsNothing s (deliveries msgs rand) := by
  induction msgs generalizing s with
  | nil => exact ⟨fun _ _ => trivial, fun _ _ _ => trivial⟩
  | cons m msgs ih =>
    obtain ⟨height, msg⟩ := m
    constructor
    · intro h rand
      refine ⟨?_, ?_⟩
      · intro req hReq hAdmits
        obtain ⟨r, hne⟩ := exists_ne_randBytes (rand 0)
        exact hne ((h rand fun _ => r).1 req hReq hAdmits).symm
      · refine ih.mp ?_ fun i => rand (i + 1)
        intro tail tail'
        exact (h (precede (rand 0) tail) (precede (rand 0) tail')).2
    · intro h rand rand'
      refine ⟨fun req hReq hAdmits => absurd hAdmits ((h rand).1 req hReq), ?_⟩
      refine ih.mpr ?_ _ _
      intro tail
      exact (h (precede (rand 0) tail)).2

/-- **Replica agreement.** From any state, and for any sequence of messages with
their heights: whatever two validators draw, they end with the same stores,
root and balances and answer every message alike, exactly when no `Deposit` of
the sequence is admitted by the state it is delivered in. -/
theorem replicas_agree_iff (k : Keeper) (s : State) (msgs : List (Nat × Msg)) :
    (∀ rand rand', Agree k s (deliveries msgs rand) (deliveries msgs rand')) ↔
      ∀ rand, Run.Steps k.step k.DrawsNothing s (deliveries msgs rand) := by
  rw [← sameDraws_iff]
  exact forall_congr' fun rand => forall_congr' fun rand' => agree_iff_sameDraws

open Ganc.Zkdex.Sample in
/-- **Two validators part.** Each of them accepts Alice's deposit, stores it
under an id of its own and answers with that id. -/
theorem replicas_diverge :
    (keeper.reach bank (deliveries [(1, .deposit aliceDeposits)] fun _ => zeros)
      ).depositRecords.toList.map Prod.fst = [depositIdOf aliceDeposits.creator 1 zeros] ∧
    (keeper.reach bank (deliveries [(1, .deposit aliceDeposits)] fun _ => ones)
      ).depositRecords.toList.map Prod.fst = [depositIdOf aliceDeposits.creator 1 ones] ∧
    ¬ Agree keeper (State.genesis bank) (deliveries [(1, .deposit aliceDeposits)] fun _ => zeros)
      (deliveries [(1, .deposit aliceDeposits)] fun _ => ones) := by
  refine ⟨by decide +kernel, by decide +kernel, ?_⟩
  intro hAgree
  exact absurd hAgree.responses (by decide +kernel)

end Ganc.Zkdex
