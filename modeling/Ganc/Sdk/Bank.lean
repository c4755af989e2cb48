import Ganc.Lib.Ledger
import Ganc.Sdk.Core

/-!
# x/bank

The bank keeper as the modules use it, as a ledger of its own: a send moves
exactly the coins named, it is refused when the sender lacks them, and sending
no coins does nothing. Assumed is that this is all a send can run into: no
recipient is blocked, no coins are locked (all of a balance is spendable), no
denomination is disabled for sending, and the account of the module exists.
Other modules do not touch the balances between the messages. `log` is a history
variable, the sends carried out so far; no handler reads it.
-/

namespace Ganc

/-- A send the bank carried out. -/
structure Transfer where
  src : Account
  dst : Account
  coins : Coins
deriving DecidableEq, Repr

structure Bank where
  balance : Ledger.Balances Account String
  log : List Transfer

namespace Bank

/-- The amount of denom `d` in a coin set. -/
def amountOf (cs : Coins) (d : String) : Nat :=
  Ledger.amountOf (cs.map fun c => (c.denom, c.amount)) d

def sendCoins (b : Bank) (src dst : Account) (amt : Coins) : Result Bank :=
  match Ledger.moveAll b.balance src dst (amt.map fun c => (c.denom, c.amount)) with
  | some balance => .ok ⟨balance, b.log ++ [⟨src, dst, amt⟩]⟩
  | none => .error (.error (.insufficientFunds src) [])

/-- `SendCoinsFromAccountToModule`, to the module at hand. -/
def sendCoinsFromAccountToModule (b : Bank) (sender : AccAddress) (amt : Coins) : Result Bank :=
  b.sendCoins (.user sender) .module amt

/-- `SendCoinsFromModuleToAccount`, from the module at hand. -/
def sendCoinsFromModuleToAccount (b : Bank) (recipient : AccAddress) (amt : Coins) :
    Result Bank :=
  b.sendCoins .module (.user recipient) amt

/-- Carries the sends out one after the other. -/
def sendAll (b : Bank) : List Transfer → Result Bank
  | [] => .ok b
  | t :: ts => do
    let b' ← b.sendCoins t.src t.dst t.coins
    b'.sendAll ts

/-- What the sends together bring an account, less what they take from it. -/
def net (ts : List Transfer) (a : Account) (d : String) : Int :=
  (ts.map fun t => (if t.dst = a then (amountOf t.coins d : Int) else 0) -
    if t.src = a then (amountOf t.coins d : Int) else 0).sum

-- ---------------------------------------------------------------------------
-- What a send does
-- ---------------------------------------------------------------------------

/-- A send succeeds exactly if the ledger can move all the coins, and it is logged. -/
theorem sendCoins_eq_ok {b b' : Bank} {src dst : Account} {amt : Coins} :
    b.sendCoins src dst amt = .ok b' ↔
      Ledger.moveAll b.balance src dst (amt.map fun c => (c.denom, c.amount)) =
        some b'.balance ∧ b'.log = b.log ++ [⟨src, dst, amt⟩] := by
  unfold sendCoins
  cases b'
  split
  next balance h => simp [h, eq_comm]
  next h => simp [h]

/-- A send fails for lack of funds only. -/
theorem sendCoins_eq_error {b : Bank} {src dst : Account} {amt : Coins} {e : Failure}
    (h : b.sendCoins src dst amt = .error e) : e = .error (.insufficientFunds src) [] := by
  unfold sendCoins at h
  split at h
  · cases h
  · cases h; rfl

@[simp] theorem amountOf_newCoins (c : Coin) (d : String) :
    amountOf (newCoins c) d = if c.denom = d then c.amount else 0 := by
  unfold newCoins amountOf
  split <;> simp_all

/-- Sending one coin is refused exactly when the sender lacks it. -/
theorem sendCoins_isOk_iff {b : Bank} {src dst : Account} {c : Coin} :
    (∃ b', b.sendCoins src dst (newCoins c) = .ok b') ↔ c.amount ≤ b.balance src c.denom := by
  unfold sendCoins newCoins
  by_cases h0 : c.amount = 0
  · rw [if_pos h0, h0]
    exact ⟨fun _ => Nat.zero_le _, fun _ => ⟨_, rfl⟩⟩
  · rw [if_neg h0]
    have hMove : (Ledger.moveAll b.balance src dst [(c.denom, c.amount)]).isSome ↔
        c.amount ≤ b.balance src c.denom := Ledger.moveAll_singleton_isSome
    rw [← hMove, show [c].map (fun c => (c.denom, c.amount)) = [(c.denom, c.amount)] from rfl]
    cases Ledger.moveAll b.balance src dst [(c.denom, c.amount)] <;> simp

@[simp] theorem sendAll_nil (b : Bank) : b.sendAll [] = .ok b := rfl

@[simp] theorem net_nil (a : Account) (d : String) : net [] a d = 0 := rfl

theorem sendAll_cons_eq_ok {b b' : Bank} {t : Transfer} {ts : List Transfer} :
    b.sendAll (t :: ts) = .ok b' ↔
      ∃ b₁, b.sendCoins t.src t.dst t.coins = .ok b₁ ∧ b₁.sendAll ts = .ok b' :=
  Result.bind_eq_ok

/-- Two lists of sends, one after the other, are one list. -/
theorem sendAll_append_eq_ok {b b' : Bank} {ts ts' : List Transfer} :
    b.sendAll (ts ++ ts') = .ok b' ↔
      ∃ b₁, b.sendAll ts = .ok b₁ ∧ b₁.sendAll ts' = .ok b' := by
  induction ts generalizing b with
  | nil => simp
  | cons t ts ih =>
    simp only [List.cons_append, sendAll_cons_eq_ok, ih]
    constructor
    · rintro ⟨b₁, hHead, b₂, hTail, hRest⟩
      exact ⟨b₂, ⟨b₁, hHead, hTail⟩, hRest⟩
    · rintro ⟨b₂, ⟨b₁, hHead, hTail⟩, hRest⟩
      exact ⟨b₁, hHead, b₂, hTail, hRest⟩

/-- A sequence of sends that went through is what the log gains, and the
balances of all accounts move by its net amounts. -/
theorem sendAll_eq_ok {b b' : Bank} {ts : List Transfer} (h : b.sendAll ts = .ok b') :
    b'.log = b.log ++ ts ∧ ∀ a d, (b'.balance a d : Int) = b.balance a d + net ts a d := by
  induction ts generalizing b with
  | nil =>
    obtain rfl := Except.ok.inj h
    simp
  | cons t ts ih =>
    obtain ⟨b₁, hHead, hTail⟩ := sendAll_cons_eq_ok.mp h
    obtain ⟨hMove, hLog₁⟩ := sendCoins_eq_ok.mp hHead
    obtain ⟨hLog, hBalance⟩ := ih hTail
    refine ⟨?_, ?_⟩
    · rw [hLog, hLog₁, List.append_assoc, List.singleton_append]
    · intro a d
      have h₁ := Ledger.moveAll_balance hMove a d
      have hNet : net (t :: ts) a d = (if t.dst = a then (amountOf t.coins d : Int) else 0) -
          (if t.src = a then (amountOf t.coins d : Int) else 0) + net ts a d := List.sum_cons
      rw [hBalance, hNet, h₁]
      unfold amountOf
      omega

/-- The same sends lead from `b` to `c` and from `b'` to `c'`. -/
def SentAlike (b c b' c' : Bank) : Prop :=
  ∃ ts, b.sendAll ts = .ok c ∧ b'.sendAll ts = .ok c'

/-- Alike sends, one after the other, are alike. -/
theorem SentAlike.trans {b c d b' c' d' : Bank} (h : SentAlike b c b' c')
    (h' : SentAlike c d c' d') : SentAlike b d b' d' := by
  obtain ⟨ts, hb, hb'⟩ := h
  obtain ⟨ts', hc, hc'⟩ := h'
  exact ⟨ts ++ ts', sendAll_append_eq_ok.mpr ⟨c, hb, hc⟩, sendAll_append_eq_ok.mpr ⟨c', hb', hc'⟩⟩

/-- Alike sends move every balance by the same amount. -/
theorem SentAlike.balance {b c b' c' : Bank} (h : SentAlike b c b' c') (a : Account) (d : String) :
    (c.balance a d : Int) - b.balance a d = c'.balance a d - b'.balance a d := by
  obtain ⟨ts, hb, hb'⟩ := h
  have h₁ := (sendAll_eq_ok hb).2 a d
  have h₂ := (sendAll_eq_ok hb').2 a d
  omega

/-- What the module account holds of a denom. -/
def held (b : Bank) (d : String) : Int := b.balance .module d

theorem held_nonneg (b : Bank) (d : String) : 0 ≤ b.held d := Int.natCast_nonneg _

section Module

variable {b b' : Bank} {a : AccAddress} {amt : Coins}

/-- An escrow adds the coins to the module account. -/
theorem held_of_sendFromAccount (h : b.sendCoinsFromAccountToModule a amt = .ok b')
    (d : String) : b'.held d = b.held d + amountOf amt d := by
  have hDst := Ledger.moveAll_dst (sendCoins_eq_ok.mp h).1 (by simp) d
  unfold held amountOf
  omega

/-- A release takes the coins from the module account. -/
theorem held_of_sendFromModule (h : b.sendCoinsFromModuleToAccount a amt = .ok b')
    (d : String) : b'.held d = b.held d - amountOf amt d := by
  have hSrc := Ledger.moveAll_src (sendCoins_eq_ok.mp h).1 (by simp) d
  unfold held amountOf
  omega

/-- Releasing one coin is refused only when the module account lacks it. -/
theorem sendFromModule_isOk {c : Coin} (hc : (c.amount : Int) ≤ b.held c.denom) :
    ∃ b', b.sendCoinsFromModuleToAccount a (newCoins c) = .ok b' :=
  sendCoins_isOk_iff.mpr (Int.ofNat_le.mp hc)

end Module

end Bank

end Ganc
