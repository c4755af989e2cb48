import Ganc.Dex.MatchingSpec

/-!
# x/dex — when the matching engine succeeds

The other side of `MatchingFailure`: what a match has to find so that nothing
in it panics and every settlement is paid. `Fillable` is what one fill needs,
`executeLoop_isOk` and `matchOrders_isOk` are the loop and the match around
it.
-/

namespace Ganc.Dex

variable {k : Keeper}

-- ---------------------------------------------------------------------------
-- Payments
-- ---------------------------------------------------------------------------

/-- A coin of a valid denomination and an amount that is not negative is made. -/
theorem newCoin_isOk {denom : String} {amount : Int} (hDenom : k.sdk.validateDenom denom)
    (h0 : 0 ≤ amount) : k.sdk.newCoin denom (some amount) = .ok ⟨denom, amount.toNat⟩ :=
  Sdk.newCoin_eq_ok.mpr ⟨hDenom, amount.toNat, by rw [Int.toNat_of_nonneg h0], rfl⟩

/-- A payment that the escrow can pay is made. -/
theorem payOut_isOk {bank : Bank} (addr : AccAddress) {denom : String} {amount : Int}
    (hDenom : k.sdk.validateDenom denom) (h0 : 0 ≤ amount) (hHeld : amount ≤ bank.held denom) :
    ∃ bank', k.payOut bank addr denom amount = .ok bank' := by
  have hCoin : ((⟨denom, amount.toNat⟩ : Coin).amount : Int) ≤ bank.held denom := by
    rwa [Int.toNat_of_nonneg h0]
  obtain ⟨bank', hSend⟩ := Bank.sendFromModule_isOk (a := addr) hCoin
  exact ⟨bank', Result.bind_eq_ok.mpr ⟨_, newCoin_isOk hDenom h0, hSend⟩⟩

/-- A settlement that the escrow can pay is made. -/
theorem settleAssets_isOk {bank : Bank} (taker maker : AccAddress) (takerSide : String)
    {qty quote : Int} {m : Market} (hBase : k.sdk.validateDenom m.baseDenom)
    (hQuote : k.sdk.validateDenom m.quoteDenom) (hQty0 : 0 ≤ qty) (hQuote0 : 0 ≤ quote)
    (hHeld : ∀ d, paid m.baseDenom qty d + paid m.quoteDenom quote d ≤ bank.held d) :
    ∃ bank', k.settleAssets bank taker maker takerSide qty quote m = .ok bank' := by
  have hSelf : ∀ (denom : String) (amount : Int), paid denom amount denom = amount :=
    fun denom amount => if_pos rfl
  have hHeldBase := hHeld m.baseDenom
  have hHeldQuote := hHeld m.quoteDenom
  rw [hSelf] at hHeldBase hHeldQuote
  have hBaseNonneg : 0 ≤ paid m.baseDenom qty m.quoteDenom := paid_nonneg _ hQty0
  have hQuoteNonneg : 0 ≤ paid m.quoteDenom quote m.baseDenom := paid_nonneg _ hQuote0
  unfold Keeper.settleAssets
  split
  · obtain ⟨bank₁, hFirst⟩ :=
      payOut_isOk taker hBase hQty0 (show qty ≤ bank.held m.baseDenom by omega)
    have hHeld₁ := (payOut_eq_ok hFirst).2 m.quoteDenom
    obtain ⟨bank₂, hSecond⟩ :=
      payOut_isOk maker hQuote hQuote0 (show quote ≤ bank₁.held m.quoteDenom by omega)
    exact ⟨bank₂, Result.bind_eq_ok.mpr ⟨bank₁, hFirst, hSecond⟩⟩
  · obtain ⟨bank₁, hFirst⟩ :=
      payOut_isOk taker hQuote hQuote0 (show quote ≤ bank.held m.quoteDenom by omega)
    have hHeld₁ := (payOut_eq_ok hFirst).2 m.baseDenom
    obtain ⟨bank₂, hSecond⟩ :=
      payOut_isOk maker hBase hQty0 (show qty ≤ bank₁.held m.baseDenom by omega)
    exact ⟨bank₂, Result.bind_eq_ok.mpr ⟨bank₁, hFirst, hSecond⟩⟩

-- ---------------------------------------------------------------------------
-- One fill and the loop
-- ---------------------------------------------------------------------------

/-- What a fill of a taker with `rem` left needs to find of a maker with `r` remaining
at price `p`. -/
structure Fillable (k : Keeper) (market : Market) (entry : Orderbook) (rem r p : Int)
    (s : State) : Prop where
  maker : ∃ o, s.order[entry.orderId]? = some o ∧ k.sdk.newIntFromString o.remaining = some r ∧
    k.sdk.newIntFromString o.price = some p
  base : k.sdk.validateDenom market.baseDenom
  quote : k.sdk.validateDenom market.quoteDenom
  qty_nonneg : 0 ≤ min rem r
  quote_nonneg : 0 ≤ min rem r * p
  quote_fits : MathInt.Fits (min rem r * p)
  maker_fits : MathInt.Fits (r - min rem r)
  taker_fits : MathInt.Fits (rem - min rem r)
  funded : ∀ d, paid market.baseDenom (min rem r) d +
    paid market.quoteDenom (min rem r * p) d ≤ s.bank.held d

/-- A fill succeeds where its entry can be filled. -/
theorem fillEntry_isOk {taker : Order} {takerId : String} {market : Market} {entry : Orderbook}
    {rem r p : Int} {s : State} (h : Fillable k market entry rem r p s) :
    ∃ res, k.fillEntry taker takerId market entry rem s = .ok res := by
  obtain ⟨o, ho, hr, hp⟩ := h.maker
  obtain ⟨bank, hSettle⟩ := settleAssets_isOk
    ((k.sdk.accAddressFromBech32 taker.creator).getD [])
    ((k.sdk.accAddressFromBech32 o.creator).getD []) taker.side
    h.base h.quote h.qty_nonneg h.quote_nonneg h.funded
  have hMin : MathInt.minInt (some rem) (some r) = .ok (min rem r) := rfl
  have hMul : MathInt.mul (some (min rem r)) (some p) = .ok (min rem r * p) :=
    MathInt.checked_eq_ok.mpr ⟨h.quote_fits, rfl⟩
  have hMaker : MathInt.sub (some r) (some (min rem r)) = .ok (r - min rem r) :=
    MathInt.checked_eq_ok.mpr ⟨h.maker_fits, rfl⟩
  have hTaker : MathInt.sub (some rem) (some (min rem r)) = .ok (rem - min rem r) :=
    MathInt.checked_eq_ok.mpr ⟨h.taker_fits, rfl⟩
  simp only [Keeper.fillEntry, ho, Option.getD_some, hr, hp, Result.bind_eq_ok,
    Result.pure_eq_ok]
  exact ⟨_, _, hMin, _, hMul, bank, hSettle, _, hMaker, _, hTaker, rfl⟩

/-- The loop succeeds if the invariant makes every fill succeed. -/
theorem executeLoop_isOk {taker : Order} {takerId : String} {market : Market}
    {I : List Orderbook → Int → State → Prop}
    (hFill : ∀ {entry rest rem s maker r p q left s'}, rem ≠ 0 →
      Filled k taker takerId market entry rem s maker r p q left s' →
      I (entry :: rest) rem s → I rest left s')
    (hOk : ∀ {entry rest rem s}, rem ≠ 0 → I (entry :: rest) rem s →
      ∃ res, k.fillEntry taker takerId market entry rem s = .ok res)
    {cs : List Orderbook} {rem : Int} {s : State} (hI : I cs rem s) :
    ∃ res, k.executeLoop taker takerId market cs rem s = .ok res := by
  induction cs generalizing rem s with
  | nil => exact ⟨_, rfl⟩
  | cons entry rest ih =>
    rw [Keeper.executeLoop]
    split
    · exact ⟨_, rfl⟩
    next hRem =>
      obtain ⟨⟨left, s₁⟩, hEntry⟩ := hOk hRem hI
      obtain ⟨maker, r, p, q, hFilled⟩ := fillEntry_eq_ok hEntry
      obtain ⟨res, hRest⟩ := ih (hFill hRem hFilled hI)
      exact ⟨res, Result.bind_eq_ok.mpr ⟨_, hEntry, hRest⟩⟩

-- ---------------------------------------------------------------------------
-- The match
-- ---------------------------------------------------------------------------

/-- Prices that are numbers are compared. -/
theorem priceCompatible_isOk {taker : Order} {e : Orderbook} {limit price : Int}
    (hTaker : k.sdk.newIntFromString taker.price = some limit)
    (hMaker : k.sdk.newIntFromString e.price = some price) :
    ∃ fits, k.priceCompatible taker e = .ok fits := by
  unfold Keeper.priceCompatible
  split
  · dsimp only
    rw [hTaker, hMaker]
    split
    · exact ⟨_, rfl⟩
    split <;> exact ⟨_, rfl⟩
  · exact ⟨_, rfl⟩

/-- The filter succeeds if every entry on the other side can be compared. -/
theorem fetchCandidates_isOk {taker : Order} {kvs : List (String × Orderbook)}
    (h : ∀ e ∈ kvs.map Prod.snd, e.marketId = taker.marketId →
      e.side = Keeper.targetSide taker.side → ∃ fits, k.priceCompatible taker e = .ok fits) :
    ∃ cs, k.fetchCandidates taker kvs = .ok cs := by
  induction kvs with
  | nil => exact ⟨_, rfl⟩
  | cons kv rest ih =>
    obtain ⟨cs, hRest⟩ := ih fun e he => h e (List.mem_cons_of_mem _ he)
    rw [Keeper.fetchCandidates]
    split
    next hTarget =>
      obtain ⟨fits, hFits⟩ := h kv.2 (List.mem_cons_self ..) hTarget.1 hTarget.2
      exact ⟨_, Result.bind_eq_ok.mpr ⟨fits, hFits, Result.bind_eq_ok.mpr ⟨cs, hRest, rfl⟩⟩⟩
    next => exact ⟨cs, hRest⟩

/-- A limit order is matched when its price and those of the other side of its market
parse, and its fills succeed in whatever order they come. -/
theorem matchOrders_isOk (ctx : Context) {s : State} {taker : Order} (takerId : String)
    (market : Market) {limit rem : Int} (hType : taker.orderType ≠ "MARKET")
    (hTaker : k.sdk.newIntFromString taker.price = some limit)
    (hRem : k.sdk.newIntFromString taker.remaining = some rem)
    (hParsed : ∀ e ∈ s.orderbook.toList.map Prod.snd, e.marketId = taker.marketId →
      e.side = Keeper.targetSide taker.side → ∃ p, k.sdk.newIntFromString e.price = some p)
    (hLoop : ∀ cs, (∀ e, e ∈ cs ↔ e ∈ s.orderbook.toList.map Prod.snd ∧ Compatible k taker e) →
      (∃ fetched, cs.Perm fetched ∧ fetched.Sublist (s.orderbook.toList.map Prod.snd)) →
      ∃ res, k.executeLoop taker takerId market cs rem s = .ok res) :
    ∃ s', k.matchOrders ctx s taker takerId market = .ok s' := by
  have hCompatible : ∀ e ∈ s.orderbook.toList.map Prod.snd, e.marketId = taker.marketId →
      e.side = Keeper.targetSide taker.side → ∃ fits, k.priceCompatible taker e = .ok fits := by
    intro e he hMarket hSide
    obtain ⟨p, hp⟩ := hParsed e he hMarket hSide
    exact priceCompatible_isOk hTaker hp
  obtain ⟨fetched, hFetch⟩ := fetchCandidates_isOk hCompatible
  -- the sort compares prices that parse
  have hAll : (fetched.map fun e => k.sdk.newIntFromString e.price).all Option.isSome := by
    rw [List.all_map, List.all_eq_true]
    intro e he
    obtain ⟨hIn, hComp⟩ := (mem_fetchCandidates hFetch).mp he
    obtain ⟨p, hp⟩ := hParsed e hIn hComp.market hComp.side
    simp [hp]
  have hSort : k.sortCandidates ctx.ties (Keeper.targetSide taker.side) fetched =
      .ok ((ctx.ties.arrange fetched).insertionSort (k.Ranked (Keeper.targetSide taker.side))) :=
    Result.bind_eq_ok.mpr ⟨(), Result.require_eq_ok.mpr (.inl hAll), rfl⟩
  have hPerm := sortCandidates_perm hSort
  obtain ⟨⟨left, s₁⟩, hDone⟩ := hLoop _ (fun e => by rw [hPerm.mem_iff, mem_fetchCandidates hFetch])
    ⟨fetched, hPerm, fetchCandidates_sublist hFetch⟩
  have hEnd : ∃ s', k.finalizeTaker taker takerId market left s₁ = .ok s' := by
    unfold Keeper.finalizeTaker
    split
    · exact ⟨_, rfl⟩
    · rw [if_neg hType]
      exact ⟨_, rfl⟩
  obtain ⟨s', hEnd⟩ := hEnd
  refine ⟨s', ?_⟩
  simp only [Keeper.matchOrders, Result.bind_eq_ok, MathInt.deref_eq_ok]
  exact ⟨fetched, hFetch, _, hSort, rem, hRem, (left, s₁), hDone, hEnd⟩

end Ganc.Dex
