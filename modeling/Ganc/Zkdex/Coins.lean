import Ganc.Sdk.CoinText
import Ganc.Zkdex.Sample
import Ganc.Zkdex.StepSpec

/-!
# x/zkdex — the strings of a record and the coin behind it

`Deposit` and `ClaimWithdraw` both write the amount of a record before its
denom, let `ParseCoinNormalized` read the whole and move the coin it makes of
it, while the record keeps the two strings. `Moves` is one such movement. The
coin is the one the record names exactly when the two strings are plain
(`records_name_coins_iff`): with a digit at the front of the denom, a fraction
or spaces, the record stands for something else than what is in custody.
-/

namespace Ganc.Zkdex

variable {k : Keeper} {ctx : Context} {s s' : State}

/-- An accepted message moves `coin` on behalf of a record with these strings. -/
inductive Moves (k : Keeper) (ctx : Context) (s s' : State) :
    Msg → (amount denom : String) → Coin → Prop
  | deposit {req : MsgDeposit} {addr : AccAddress} {coin : Coin} {record : DepositRecord}
      (hAccepted : k.deposit ctx s req = .ok (s', .deposit record))
      (hStored : s'.depositRecords[record.depositId]? = some record)
      (hEscrowed : s.bank.sendCoinsFromAccountToModule addr [coin] = .ok s'.bank) :
      Moves k ctx s s' (.deposit req) record.amount record.denom coin
  | claimWithdraw {req : MsgClaimWithdraw} {addr : AccAddress} {coin : Coin}
      {record : WithdrawRecord}
      (hAccepted : k.claimWithdraw s req = .ok (s', .claimWithdraw record))
      (hStored : s'.withdrawRecords[req.withdrawId]? = some record)
      (hReleased : s.bank.sendCoinsFromModuleToAccount addr [coin] = .ok s'.bank) :
      Moves k ctx s s' (.claimWithdraw req) record.amount record.denom coin

theorem newCoins_of_pos {coin : Coin} (h : 0 < coin.amount) : newCoins coin = [coin] :=
  if_neg h.ne'

/-- What the bank has logged tells the coin that was sent. -/
theorem sent_eq {b b' : Bank} {src dst src' dst' : Account} {coin coin' : Coin}
    (h : b.sendCoins src dst [coin] = .ok b') (h' : b.sendCoins src' dst' [coin'] = .ok b') :
    coin = coin' := by
  have hLog := (Bank.sendCoins_eq_ok.mp h).2.symm.trans (Bank.sendCoins_eq_ok.mp h').2
  have hSame : src = src' ∧ dst = dst' ∧ coin = coin' := by
    simpa using List.append_cancel_left hLog
  exact hSame.2.2

-- ---------------------------------------------------------------------------
-- Every accepted message moves what it parsed
-- ---------------------------------------------------------------------------

/-- A deposit moves the coin that its two strings are parsed to. -/
theorem Moves.of_deposit {req : MsgDeposit} {r : Response}
    (hOk : k.deposit ctx s req = .ok (s', r)) :
    ∃ coin, k.sdk.parseCoinNormalized (req.amount ++ req.denom) = .ok coin ∧
      Moves k ctx s s' (.deposit req) req.amount req.denom coin := by
  have hAccepted := hOk
  obtain ⟨addr, coin, randBytes, bank, hDeposited, rfl, rfl⟩ := deposit_eq_ok.mp hOk
  have hFunded := hDeposited.funded
  rw [newCoins_of_pos hDeposited.positive] at hFunded
  refine ⟨coin, hDeposited.parsed, .deposit hAccepted ?_ hFunded⟩
  exact (Store.get?_insert ..).trans (if_pos rfl)

/-- A claim moves the coin that the strings of its record are parsed to. -/
theorem Moves.of_claimWithdraw {req : MsgClaimWithdraw} {r : Response}
    (hOk : k.claimWithdraw s req = .ok (s', r)) :
    ∃ amount denom coin, k.sdk.parseCoinNormalized (amount ++ denom) = .ok coin ∧
      Moves k ctx s s' (.claimWithdraw req) amount denom coin := by
  have hAccepted := hOk
  obtain ⟨addr, record, coin, bank, hClaimed, rfl, rfl⟩ := claimWithdraw_eq_ok.mp hOk
  have hReleased := hClaimed.released
  rw [newCoins_of_pos hClaimed.positive] at hReleased
  have hMoves : Moves k ctx s _ (.claimWithdraw req) _ _ coin :=
    .claimWithdraw hAccepted ((Store.get?_insert ..).trans (if_pos rfl)) hReleased
  exact ⟨_, _, coin, hClaimed.parsed, hMoves⟩

/-- The coin that moves is the one that the strings are parsed to. -/
theorem Moves.parsed {msg : Msg} {amount denom : String} {coin : Coin}
    (h : Moves k ctx s s' msg amount denom coin) :
    k.sdk.parseCoinNormalized (amount ++ denom) = .ok coin := by
  cases h with
  | deposit hAccepted hStored hEscrowed =>
    obtain ⟨addr, coin', randBytes, bank, hDeposited, rfl, hResponse⟩ :=
      deposit_eq_ok.mp hAccepted
    obtain rfl := Response.deposit.inj hResponse
    have hFunded := hDeposited.funded
    rw [newCoins_of_pos hDeposited.positive] at hFunded
    rw [sent_eq hEscrowed hFunded]
    exact hDeposited.parsed
  | claimWithdraw hAccepted hStored hReleased =>
    obtain ⟨addr, record, coin', bank, hClaimed, rfl, hResponse⟩ :=
      claimWithdraw_eq_ok.mp hAccepted
    obtain rfl := Response.claimWithdraw.inj hResponse
    have hSent := hClaimed.released
    rw [newCoins_of_pos hClaimed.positive] at hSent
    rw [sent_eq hReleased hSent]
    exact hClaimed.parsed

-- ---------------------------------------------------------------------------
-- The coin is the one the record names
-- ---------------------------------------------------------------------------

/-- **Records and coins.** Every accepted `Deposit` and every accepted
`ClaimWithdraw` moves one coin for its record. The coin has the denom of the
record, and the amount of the record is its amount in digits, exactly when the
strings are plain; records with plain strings move the same denom only when
they name the same. -/
theorem records_name_coins_iff (hReads : k.sdk.ReadsCoins) :
    (∀ (ctx : Context) (s s' : State) (req : MsgDeposit) (r : Response),
      k.deposit ctx s req = .ok (s', r) →
      ∃ coin, Moves k ctx s s' (.deposit req) req.amount req.denom coin) ∧
    (∀ (ctx : Context) (s s' : State) (req : MsgClaimWithdraw) (r : Response),
      k.claimWithdraw s req = .ok (s', r) →
      ∃ amount denom coin, Moves k ctx s s' (.claimWithdraw req) amount denom coin) ∧
    (∀ (ctx : Context) (s s' : State) (msg : Msg) (amount denom : String) (coin : Coin),
      Moves k ctx s s' msg amount denom coin →
      (coin.NamedBy amount denom ↔ PlainPair amount denom)) ∧
    ∀ (ctx₁ ctx₂ : Context) (s₁ s₁' s₂ s₂' : State) (msg₁ msg₂ : Msg)
      (amount₁ denom₁ amount₂ denom₂ : String) (coin₁ coin₂ : Coin),
      Moves k ctx₁ s₁ s₁' msg₁ amount₁ denom₁ coin₁ →
      Moves k ctx₂ s₂ s₂' msg₂ amount₂ denom₂ coin₂ →
      PlainPair amount₁ denom₁ → PlainPair amount₂ denom₂ → denom₁ ≠ denom₂ →
      coin₁.denom ≠ coin₂.denom := by
  refine ⟨?_, ?_, ?_, ?_⟩
  · intro ctx s s' req r hOk
    obtain ⟨coin, -, hMoves⟩ := Moves.of_deposit hOk
    exact ⟨coin, hMoves⟩
  · intro ctx s s' req r hOk
    obtain ⟨amount, denom, coin, -, hMoves⟩ := Moves.of_claimWithdraw hOk
    exact ⟨amount, denom, coin, hMoves⟩
  · intro ctx s s' msg amount denom coin hMoves
    exact hReads.named_iff hMoves.parsed
  · intro ctx₁ ctx₂ s₁ s₁' s₂ s₂' msg₁ msg₂ amount₁ denom₁ amount₂ denom₂ coin₁ coin₂ hMoves₁
      hMoves₂ hPlain₁ hPlain₂ hDenom hSame
    have hNamed₁ := (hReads.named_iff hMoves₁.parsed).mpr hPlain₁
    have hNamed₂ := (hReads.named_iff hMoves₂.parsed).mpr hPlain₂
    exact hDenom (hNamed₁.denom.symm.trans (hSame.trans hNamed₂.denom))

section Sample

open Ganc.Zkdex.Sample Ganc.Sample

/-- Alice deposits `100` of `uatom`, which is what the module account gets. -/
theorem records_name_coins_iff_sample : ∃ s' coin,
    Moves keeper ⟨1, .ok zeros⟩ (State.genesis bank) s' (.deposit aliceDeposits) "100" "uatom"
      coin ∧ coin.NamedBy "100" "uatom" := by
  obtain ⟨⟨s', r⟩, hOk⟩ := Result.exists_of_isOk
    (x := keeper.deposit ⟨1, .ok zeros⟩ (State.genesis bank) aliceDeposits) (by decide +kernel)
  have hTheorem := records_name_coins_iff (k := keeper) Sdk.sample_readsCoins
  obtain ⟨coin, hMoves⟩ := hTheorem.1 _ _ _ _ _ hOk
  refine ⟨s', coin, hMoves, (hTheorem.2.2.1 _ _ _ _ _ _ _ hMoves).mpr
    ⟨by decide, ⟨'u', by decide, by decide⟩, ?_⟩⟩
  have hSolid : "uatom".toList.all (fun c => !isSpace c) := by decide
  intro c hc
  simpa using List.all_eq_true.mp hSolid c hc

/-- `1` of `0uatom` is read as `10` of `uatom`: two records with different
denoms move the same coin, and the first names another. -/
theorem denom_with_digit :
    (∃ s', Moves keeper ⟨1, .ok zeros⟩ (State.genesis bank) s' (.deposit ⟨alice, "0uatom", "1"⟩)
      "1" "0uatom" ⟨"uatom", 10⟩) ∧
    (∃ s', Moves keeper ⟨1, .ok zeros⟩ (State.genesis bank) s' (.deposit ⟨alice, "uatom", "10"⟩)
      "10" "uatom" ⟨"uatom", 10⟩) ∧
    ¬ (⟨"uatom", 10⟩ : Coin).NamedBy "1" "0uatom" := by
  have hBoth : ∀ req ∈ [(⟨alice, "0uatom", "1"⟩ : MsgDeposit), ⟨alice, "uatom", "10"⟩],
      ∃ s', Moves keeper ⟨1, .ok zeros⟩ (State.genesis bank) s' (.deposit req) req.amount
        req.denom ⟨"uatom", 10⟩ := by
    intro req hReq
    have hAll : ∀ req ∈ [(⟨alice, "0uatom", "1"⟩ : MsgDeposit), ⟨alice, "uatom", "10"⟩],
        (keeper.deposit ⟨1, .ok zeros⟩ (State.genesis bank) req).isOk = true ∧
        keeper.sdk.parseCoinNormalized (req.amount ++ req.denom) = .ok ⟨"uatom", 10⟩ := by
      decide +kernel
    obtain ⟨⟨s', r⟩, hOk⟩ := Result.exists_of_isOk (hAll req hReq).1
    obtain ⟨coin, hParsed, hMoves⟩ := Moves.of_deposit hOk
    rw [(hAll req hReq).2] at hParsed
    obtain rfl := Except.ok.inj hParsed
    exact ⟨s', hMoves⟩
  refine ⟨hBoth _ (by decide), hBoth _ (by decide), ?_⟩
  intro hNamed
  exact absurd hNamed.denom (by decide)

end Sample

end Ganc.Zkdex
