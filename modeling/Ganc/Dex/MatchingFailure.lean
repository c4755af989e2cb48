import Ganc.Dex.MatchingSpec

/-!
# x/dex — how the matching engine fails

Nothing in `matching.go` returns an error of its own: a match panics, or it
passes on the error of a settlement that the module account cannot pay. So a
match whose fills are all funded can only panic (`fillEntry_error` for one
fill, `executeLoop_error` and `matchOrders_error` around it).
-/

namespace Ganc.Dex

variable {k : Keeper}

/-- With the funds at hand a payment can only panic. -/
theorem payOut_error {bank : Bank} {addr : AccAddress} {denom : String} {amount : Int}
    {f : Failure} (h : k.payOut bank addr denom amount = .error f)
    (hHeld : amount ≤ bank.held denom) : f.IsPanic := by
  simp only [Keeper.payOut, Result.bind_eq_error, Sdk.newCoin_eq_ok] at h
  rcases h with h | ⟨coin, ⟨-, n, hAmount, rfl⟩, hSend⟩
  · exact Sdk.newCoin_error h
  · obtain rfl := Option.some.inj hAmount
    obtain ⟨bank', hOk⟩ := Bank.sendFromModule_isOk (a := addr) (c := ⟨denom, n⟩) hHeld
    rw [hOk] at hSend
    cases hSend

/-- With the coins in escrow, a settlement can only panic. -/
theorem settleAssets_error {bank : Bank} {taker maker : AccAddress} {takerSide : String}
    {qty quote : Int} {m : Market} {f : Failure}
    (h : k.settleAssets bank taker maker takerSide qty quote m = .error f)
    (hQty : 0 ≤ qty) (hQuote : 0 ≤ quote)
    (hHeld : ∀ d, paid m.baseDenom qty d + paid m.quoteDenom quote d ≤ bank.held d) :
    f.IsPanic := by
  have hSelf : ∀ (denom : String) (amount : Int), paid denom amount denom = amount :=
    fun denom amount => if_pos rfl
  have hBase := hHeld m.baseDenom
  have hQuoted := hHeld m.quoteDenom
  rw [hSelf] at hBase hQuoted
  have hBase0 : 0 ≤ paid m.baseDenom qty m.quoteDenom := paid_nonneg _ hQty
  have hQuote0 : 0 ≤ paid m.quoteDenom quote m.baseDenom := paid_nonneg _ hQuote
  unfold Keeper.settleAssets at h
  split at h <;> rcases Result.bind_eq_error.mp h with h | ⟨bank₁, hFirst, h⟩
  · exact payOut_error h (by omega)
  · refine payOut_error h ?_
    rw [(payOut_eq_ok hFirst).2]
    omega
  · exact payOut_error h (by omega)
  · refine payOut_error h ?_
    rw [(payOut_eq_ok hFirst).2]
    omega

/-- A fill whose settlement is funded can only panic. -/
theorem fillEntry_error {taker : Order} {takerId : String} {market : Market}
    {entry : Orderbook} {rem : Int} {s : State} {f : Failure}
    (h : k.fillEntry taker takerId market entry rem s = .error f)
    (hFunded : ∀ r p, k.sdk.newIntFromString (s.order[entry.orderId]?.getD default).remaining =
        some r → k.sdk.newIntFromString (s.order[entry.orderId]?.getD default).price = some p →
      0 ≤ min rem r ∧ 0 ≤ min rem r * p ∧ ∀ d, paid market.baseDenom (min rem r) d +
        paid market.quoteDenom (min rem r * p) d ≤ s.bank.held d) : f.IsPanic := by
  simp only [Keeper.fillEntry, Result.bind_eq_error, Result.pure_ne_error, and_false,
    exists_false, or_false] at h
  rcases h with h | ⟨q, hMin, h | ⟨quote, hMul, h | ⟨_, _, h | ⟨_, _, h⟩⟩⟩⟩
  · exact MathInt.minInt_error h
  · exact MathInt.mul_error h
  · simp only [MathInt.minInt, MathInt.mul, Result.bind_eq_ok, Result.pure_eq_ok,
      MathInt.deref_eq_ok, MathInt.checked_eq_ok, Option.some.injEq, exists_eq_left'] at hMin hMul
    obtain ⟨r, hr, rfl⟩ := hMin
    obtain ⟨p, hp, -, rfl⟩ := hMul
    obtain ⟨h0, h0', hHeld⟩ := hFunded r p hr hp
    exact settleAssets_error h h0 h0' hHeld
  · exact MathInt.sub_error h
  · exact MathInt.sub_error h

/-- What the loop fails with, some fill or some reading of a number has failed with. -/
theorem executeLoop_error {taker : Order} {takerId : String} {market : Market}
    {I : List Orderbook → Int → State → Prop} {Q : Failure → Prop}
    (hFill : ∀ {entry rest rem s maker r p q left s'}, rem ≠ 0 →
      Filled k taker takerId market entry rem s maker r p q left s' →
      I (entry :: rest) rem s → I rest left s')
    (hError : ∀ {entry rest rem s f}, rem ≠ 0 →
      k.fillEntry taker takerId market entry rem s = .error f → I (entry :: rest) rem s → Q f)
    {cs : List Orderbook} {rem : Int} {s : State} {f : Failure}
    (h : k.executeLoop taker takerId market cs rem s = .error f) (hI : I cs rem s) : Q f := by
  induction cs generalizing rem s with
  | nil => cases h
  | cons entry rest ih =>
    rw [Keeper.executeLoop] at h
    split at h
    · cases h
    next hRem =>
      rcases Result.bind_eq_error.mp h with hEntry | ⟨⟨left₁, s₁⟩, hEntry, hRest⟩
      · exact hError hRem hEntry hI
      · obtain ⟨maker, r, p, q, hFilled⟩ := fillEntry_eq_ok hEntry
        exact ih hRest (hFill hRem hFilled hI)

/-- The filter can only panic. -/
theorem fetchCandidates_error {taker : Order} {kvs : List (String × Orderbook)} {f : Failure}
    (h : k.fetchCandidates taker kvs = .error f) : f.IsPanic := by
  have hPrice : ∀ {val f}, k.priceCompatible taker val = .error f → f.IsPanic := by
    intro val f h
    unfold Keeper.priceCompatible at h
    split at h
    · dsimp only at h
      split at h
      · rcases Result.bind_eq_error.mp h with h | ⟨_, _, h⟩
        · exact MathInt.gt_error h
        · cases h
      split at h
      · rcases Result.bind_eq_error.mp h with h | ⟨_, _, h⟩
        · exact MathInt.gt_error h
        · cases h
      · cases h
    · cases h
  induction kvs with
  | nil => cases h
  | cons kv rest ih =>
    rw [Keeper.fetchCandidates] at h
    split at h
    · rcases Result.bind_eq_error.mp h with h | ⟨_, _, h⟩
      · exact hPrice h
      rcases Result.bind_eq_error.mp h with h | ⟨_, _, h⟩
      · exact ih h
      · cases h
    · exact ih h

/-- Closing the matching can only panic. -/
theorem finalizeTaker_error {taker : Order} {takerId : String} {market : Market} {left : Int}
    {s : State} {f : Failure} (h : k.finalizeTaker taker takerId market left s = .error f) :
    f.IsPanic := by
  have hRefund : ∀ {addr : AccAddress}, k.handleRefund s.bank addr left taker.side market =
      .error f → f.IsPanic := by
    intro addr h
    unfold Keeper.handleRefund at h
    split at h
    · cases h
    split at h
    · rcases Result.bind_eq_error.mp h with h | ⟨_, _, h⟩
      · exact Sdk.newCoin_error h
      · -- the error of the send is dropped
        split at h <;> cases h
    · cases h
  unfold Keeper.finalizeTaker at h
  split at h
  · cases h
  dsimp only at h
  split at h
  · rcases Result.bind_eq_error.mp h with h | ⟨_, _, h⟩
    · exact hRefund h
    · cases h
  · cases h

/-- A match fails by a panic, or in its loop. -/
theorem matchOrders_error {ctx : Context} {s : State} {taker : Order} {takerId : String}
    {market : Market} {f : Failure} (h : k.matchOrders ctx s taker takerId market = .error f) :
    f.IsPanic ∨ ∃ cs rem,
      (∀ e, e ∈ cs ↔ e ∈ s.orderbook.toList.map Prod.snd ∧ Compatible k taker e) ∧
      (∃ fetched, cs.Perm fetched ∧ fetched.Sublist (s.orderbook.toList.map Prod.snd)) ∧
      k.sdk.newIntFromString taker.remaining = some rem ∧
      k.executeLoop taker takerId market cs rem s = .error f := by
  simp only [Keeper.matchOrders, Result.bind_eq_error] at h
  rcases h with h | ⟨fetched, hFetch, h | ⟨cs, hSort, h | ⟨rem, hRem, h | ⟨_, _, h⟩⟩⟩⟩
  · exact .inl (fetchCandidates_error h)
  · simp only [Keeper.sortCandidates, Result.bind_eq_error, Result.require_eq_error,
      Result.pure_ne_error, and_false, exists_false, or_false] at h
    exact .inl ⟨_, h.2.symm⟩
  · exact .inl (MathInt.deref_error h)
  · have hPerm := sortCandidates_perm hSort
    refine .inr ⟨cs, rem, ?_, ⟨fetched, hPerm, fetchCandidates_sublist hFetch⟩,
      MathInt.deref_eq_ok.mp hRem, h⟩
    intro e
    rw [hPerm.mem_iff, mem_fetchCandidates hFetch]
  · exact .inl (finalizeTaker_error h)

end Ganc.Dex
