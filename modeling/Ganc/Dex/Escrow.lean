import Ganc.Dex.LifeCycle
import Ganc.Dex.MatchingFailure

/-!
# x/dex — the escrow ledger

On a well-formed run without market bids the module account holds, denom by
denom, exactly what the orders at rest have left (`reserve`), and on top of it
what the limit bids that matched below their own price have left behind
(`surplus`): a fill trades at the maker's price, and the difference is not
paid back.

`Ledger` is the statement in the middle of a match, where the taker still has
a reserve of its own (`share` of what remains of it). Every fill moves equal
amounts on both sides (`ledger_fill`), and because the right-hand side is a
sum of non-negative amounts, every payment of the match is funded
(`ledger_funds`).
-/

namespace Ganc.Dex

variable {k : Keeper}

-- ---------------------------------------------------------------------------
-- The amounts of the ledger
-- ---------------------------------------------------------------------------

/-- What an order of the given side, price and remaining quantity has in
escrow: the base coins of an ask, the price of a bid. -/
def share (side : String) (price remaining : Int) (m : Market) (d : String) : Int :=
  if side = "SELL" then paid m.baseDenom remaining d
  else if side = "BUY" then paid m.quoteDenom (price * remaining) d
  else 0

/-- What the order of an entry has in escrow. -/
def reserve (k : Keeper) (d : String) (e : Orderbook) (o : Order) (m : Market) : Int :=
  share e.side (k.value o.price) (k.value o.remaining) m d

/-- What a fill of a limit bid leaves with the module. -/
def improvement (k : Keeper) (d : String) (f : Fill) : Int :=
  if f.taker.side = "BUY" ∧ f.taker.orderType = "LIMIT" then
    paid f.market.quoteDenom ((k.value f.taker.price - f.price) * f.qty) d
  else 0

/-- What all fills so far have left with the module. -/
def surplus (k : Keeper) (d : String) (s : State) : Int :=
  (s.fills.map (improvement k d)).sum

/-- An ask has the base coins in escrow that remain. -/
theorem share_ask (price remaining : Int) (m : Market) (d : String) :
    share "SELL" price remaining m d = paid m.baseDenom remaining d := rfl

/-- A bid has the quote coins in escrow that what remains costs. -/
theorem share_bid (price remaining : Int) (m : Market) (d : String) :
    share "BUY" price remaining m d = paid m.quoteDenom (price * remaining) d := rfl

/-- The share of a difference is the difference of the shares. -/
theorem share_sub (side : String) (price a b : Int) (m : Market) (d : String) :
    share side price (a - b) m d = share side price a m d - share side price b m d := by
  unfold share
  rw [Int.mul_sub, paid_sub, paid_sub]
  split
  · rfl
  · split <;> omega

theorem share_zero (side : String) (price : Int) (m : Market) (d : String) :
    share side price 0 m d = 0 := by
  have h := share_sub side price 0 0 m d
  rw [Int.sub_zero] at h
  omega

theorem share_nonneg {side : String} {price remaining : Int} (m : Market) (d : String)
    (hPrice : 0 ≤ price) (hRemaining : 0 ≤ remaining) : 0 ≤ share side price remaining m d := by
  unfold share
  split
  · exact paid_nonneg d hRemaining
  · split
    · exact paid_nonneg d (Int.mul_nonneg hPrice hRemaining)
    · exact le_refl 0

/-- The share depends on the coins of the market only. -/
theorem share_congr {side : String} {price remaining : Int} {m m' : Market} {d : String}
    (hBase : m'.baseDenom = m.baseDenom) (hQuote : m'.quoteDenom = m.quoteDenom) :
    share side price remaining m' d = share side price remaining m d := by
  unfold share
  rw [hBase, hQuote]

/-- No entry holds less than nothing in reserve. -/
theorem Agree.reserve_nonneg {s : State} (h : Agree k s) (d : String)
    {kk : String} {e : Orderbook} (hEntry : s.orderbook[kk]? = some e) :
    0 ≤ weigh (reserve k d) s e := by
  obtain ⟨-, o, ho, -, -⟩ := h.entry kk e hEntry
  obtain ⟨q, r, hLive⟩ := h.order e.orderId o ho
  obtain ⟨p, hp, hp0⟩ := hLive.price
  unfold weigh
  rw [ho]
  split
  next o' m hEq _ =>
    obtain rfl := Option.some.inj hEq
    refine share_nonneg m d ?_ ?_
    · rw [Keeper.value_eq hp]
      exact hp0
    · rw [Keeper.value_eq hLive.remaining]
      exact hLive.nonneg
  next => exact le_refl 0

-- ---------------------------------------------------------------------------
-- The ledger during a match
-- ---------------------------------------------------------------------------

/-- What the module holds when a taker has `rem` left to fill. -/
structure Ledger (k : Keeper) (taker : Order) (market : Market) (rem : Int) (s : State) :
    Prop where
  balance : ∀ d, s.bank.held d = bookTotal (reserve k d) s + surplus k d s +
    share taker.side (k.value taker.price) rem market d
  gain : ∀ f ∈ s.fills, ∀ d, 0 ≤ improvement k d f
  market : s.market[taker.marketId]? = some market

/-- A taker that pays its own way: an ask, or a bid with a price. -/
def Paying (k : Keeper) (taker : Order) : Prop :=
  taker.side = "SELL" ∨
    (taker.side = "BUY" ∧ taker.orderType = "LIMIT" ∧ k.Positive taker.price)

/-- A bid that pays has a price that is not negative. -/
theorem Paying.value_nonneg {taker : Order} (h : Paying k taker) (hSide : taker.side = "BUY") :
    0 ≤ k.value taker.price := by
  rcases h with hSell | ⟨-, -, p, hp, hPos⟩
  · rw [hSell] at hSide
    exact absurd hSide (by decide)
  · rw [Keeper.value_eq hp]
    omega

/-- A limit bid only meets asks at or below its price. -/
theorem Compatible.price_le {taker : Order} {e : Orderbook} {p : Int}
    (h : Compatible k taker e) (hPaying : Paying k taker) (hSide : taker.side = "BUY")
    (hPrice : k.sdk.newIntFromString e.price = some p) : p ≤ k.value taker.price := by
  rcases hPaying with hSell | ⟨-, hType, tp, hTaker, -⟩
  · rw [hSell] at hSide
    exact absurd hSide (by decide)
  · rw [Keeper.value_eq hTaker]
    exact (h.within hType hTaker hPrice).1 hSide

section Fill

variable {taker : Order} {takerId : String} {market : Market} {entry : Orderbook}
variable {rem left r p n : Int} {s s' : State} {maker : Order}

/-- A fill adds its improvement to the surplus. -/
theorem surplus_fill (hFilled : Filled k taker takerId market entry rem s maker r p n left s')
    (d : String) : surplus k d s' =
      surplus k d s + improvement k d ⟨takerId, entry.orderId, taker, maker, market, n, p⟩ := by
  rw [surplus, hFilled.fills, List.map_append, List.sum_append, surplus]
  simp

/-- What the two orders of a fill of `n` at the maker's price `p` give up is what
the two are paid and what is left over. -/
theorem share_trade (takerId makerId : String) (market : Market) (o : Order) (n p : Int)
    {e : Orderbook} (hPaying : Paying k taker) (hComp : Compatible k taker e) (d : String) :
    share e.side p n market d + share taker.side (k.value taker.price) n market d =
      paid market.baseDenom n d + paid market.quoteDenom (n * p) d +
        improvement k d ⟨takerId, makerId, taker, o, market, n, p⟩ := by
  rw [improvement]
  rcases hPaying with hSell | ⟨hBuy, hType, -⟩
  · have hBid : e.side = "BUY" := by rw [hComp.side, hSell]; rfl
    have hNotBuy : ¬ (taker.side = "BUY" ∧ taker.orderType = "LIMIT") := by
      rw [hSell]
      exact fun hBuy => absurd hBuy.1 (by decide)
    rw [if_neg hNotBuy, hBid, hSell, share_bid, share_ask, Int.mul_comm p n]
    omega
  · have hAsk : e.side = "SELL" := by rw [hComp.side, hBuy]; rfl
    rw [if_pos ⟨hBuy, hType⟩, hAsk, hBuy, share_ask, share_bid]
    show paid market.baseDenom n d + paid market.quoteDenom (k.value taker.price * n) d =
      paid market.baseDenom n d + paid market.quoteDenom (n * p) d +
        paid market.quoteDenom ((k.value taker.price - p) * n) d
    rw [Int.sub_mul, paid_sub, Int.mul_comm p n]
    omega

/-- A fill moves equal amounts on both sides of the ledger. -/
theorem ledger_fill (hLaw : k.sdk.Lawful) (hAgree : Agree k s) (hPaying : Paying k taker)
    (hEntry : s.orderbook[entry.key]? = some entry) (hComp : Compatible k taker entry)
    (hFilled : Filled k taker takerId market entry rem s maker r p n left s')
    (h : Ledger k taker market rem s) : Ledger k taker market left s' := by
  obtain ⟨o, q, r', ho, hPartial, he, hLive, -⟩ := hAgree.maker hEntry
  obtain rfl : o = maker := Option.some.inj (ho.symm.trans (hFilled.maker_stored hLaw))
  obtain rfl : r' = r := Option.some.inj (hLive.remaining.symm.trans hFilled.remaining)
  have hn0 := hFilled.qty_nonneg
  have hn := hFilled.qty
  have hLive' := hLive.makerAfter hLaw hPartial hn0 (by omega)
  have hMarket : s.market[entry.marketId]? = some market := hComp.market ▸ h.market
  have hPrice : k.sdk.newIntFromString entry.price = some p := by
    rw [he]
    exact hFilled.price
  -- the book gives up the maker's share of the filled quantity
  have hBook : ∀ d, bookTotal (reserve k d) s' =
      bookTotal (reserve k d) s - share entry.side p n market d := by
    intro d
    have hFill := bookTotal_fill (w := reserve k d) hFilled hAgree.distinct hEntry ho hMarket
    rw [reserve, reserve, Keeper.value_eq hFilled.price, Keeper.value_eq hFilled.remaining,
      makerAfter_price, Keeper.value_eq hFilled.price,
      Keeper.value_eq hLive'.remaining] at hFill
    have hSub := share_sub entry.side p r' n market d
    split at hFill
    next hZero =>
      rw [hZero, share_zero] at hSub
      omega
    next => omega
  refine ⟨?_, ?_, hFilled.markets ▸ h.market⟩
  · intro d
    have hTrade := share_trade takerId entry.orderId market o n p hPaying hComp d
    rw [hFilled.held, surplus_fill hFilled, hBook, hFilled.left_eq, share_sub, h.balance]
    omega
  · intro f hf d
    rw [hFilled.fills, List.mem_append, List.mem_singleton] at hf
    rcases hf with hOld | rfl
    · exact h.gain f hOld d
    · unfold improvement
      split
      next hBuy =>
        have hle : p ≤ k.value taker.price := hComp.price_le hPaying hBuy.1 hPrice
        exact paid_nonneg d (Int.mul_nonneg (Int.sub_nonneg.mpr hle) hn0)
      next => exact le_refl 0

/-- The surplus is not negative while no improvement is. -/
theorem surplus_nonneg (h : ∀ f ∈ s.fills, ∀ d, 0 ≤ improvement k d f) (d : String) :
    0 ≤ surplus k d s := by
  refine List.sum_nonneg ?_
  intro x hx
  obtain ⟨f, hf, rfl⟩ := List.mem_map.mp hx
  exact h f hf d

/-- Every fill is funded, so it can only panic. -/
theorem ledger_funds (hAgree : Agree k s) (hPaying : Paying k taker)
    (hEntry : s.orderbook[entry.key]? = some entry) (hComp : Compatible k taker entry)
    (hRem : 0 < rem) (h : Ledger k taker market rem s) {f : Failure}
    (hError : k.fillEntry taker takerId market entry rem s = .error f) : f.IsPanic := by
  obtain ⟨o, q, r, ho, -, he, hLive, hPos⟩ := hAgree.maker hEntry
  obtain ⟨p, hp, hp0⟩ := hLive.price
  refine fillEntry_error hError ?_
  intro r' p' hr' hp'
  rw [ho, Option.getD_some] at hr' hp'
  obtain rfl : r = r' := Option.some.inj (hLive.remaining.symm.trans hr')
  obtain rfl : p = p' := Option.some.inj (hp.symm.trans hp')
  have hn0 : 0 ≤ min rem r := by omega
  refine ⟨hn0, Int.mul_nonneg hn0 hp0, ?_⟩
  intro d
  have hMarket : s.market[entry.marketId]? = some market := hComp.market ▸ h.market
  -- the book holds at least the maker's share of the filled quantity
  have hMaker : share entry.side p (min rem r) market d ≤ bookTotal (reserve k d) s := by
    have hOne := Store.le_total (f := fun _ e => weigh (reserve k d) s e)
      (fun _ _ he => hAgree.reserve_nonneg d he) hEntry
    have hShare : 0 ≤ share entry.side p (r - min rem r) market d :=
      share_nonneg market d hp0 (by omega)
    rw [share_sub] at hShare
    rw [weigh_eq ho hMarket, reserve, Keeper.value_eq hp, Keeper.value_eq hLive.remaining] at hOne
    unfold bookTotal
    omega
  -- and the taker has its own share of it
  have hTaker : share taker.side (k.value taker.price) (min rem r) market d ≤
      share taker.side (k.value taker.price) rem market d := by
    have hShare : 0 ≤ share taker.side (k.value taker.price) (rem - min rem r) market d := by
      rcases hPaying with hSell | hBuy
      · rw [hSell, share_ask]
        exact paid_nonneg d (by omega)
      · exact share_nonneg market d (Paying.value_nonneg (.inr hBuy) hBuy.1) (by omega)
    rw [share_sub] at hShare
    omega
  have hGain : 0 ≤ improvement k d ⟨takerId, entry.orderId, taker, o, market, min rem r, p⟩ := by
    unfold improvement
    split
    next hBuy =>
      have hle : p ≤ k.value taker.price := hComp.price_le hPaying hBuy.1 (he ▸ hp)
      exact paid_nonneg d (Int.mul_nonneg (Int.sub_nonneg.mpr hle) hn0)
    next => exact le_refl 0
  have hTrade := share_trade takerId entry.orderId market o (min rem r) p hPaying hComp d
  have hSurplus := surplus_nonneg h.gain d
  have hBalance := h.balance d
  omega

end Fill

-- ---------------------------------------------------------------------------
-- The ledger between messages
-- ---------------------------------------------------------------------------

structure Balanced (k : Keeper) (s : State) : Prop where
  balance : ∀ d, s.bank.held d = bookTotal (reserve k d) s + surplus k d s
  gain : ∀ f ∈ s.fills, ∀ d, 0 ≤ improvement k d f
  /-- The id of a market determines its denoms. -/
  pair : ∀ (id : String) (m : Market), s.market[id]? = some m →
    id = pairId m.baseDenom m.quoteDenom ∧ '-' ∉ m.baseDenom.toList
  /-- The market of an entry is registered. -/
  listed : ∀ (kk : String) (e : Orderbook), s.orderbook[kk]? = some e →
    ∃ m, s.market[e.marketId]? = some m

theorem Balanced.paired {s : State} (h : Balanced k s) : Paired s := ⟨h.pair, h.listed⟩

section Placement

variable {ctx : Context} {s s' : State} {msg : MsgPlaceOrder} {market : Market} {quantity : Int}
variable {coins : Coins} {bank : Bank}

/-- An order puts the share of its whole quantity into escrow. -/
theorem escrowed_eq_share (h : Paying k msg.toOrder) (d : String) :
    escrowed k market msg.side msg.price quantity d =
      share msg.side (k.value msg.price) quantity market d := by
  rcases h with hSell | ⟨hBuy, hType, -⟩
  · have hSell : msg.side = "SELL" := hSell
    rw [escrowed, hSell, share_ask]
    rfl
  · have hBuy : msg.side = "BUY" := hBuy
    rw [escrowed, hBuy, share_bid, if_pos rfl, if_neg (orderTypeOf_eq_limit.mp hType)]
    rfl

/-- The escrow of an order opens its ledger. -/
theorem Balanced.opened (h : Balanced k s) (hPaying : Paying k msg.toOrder)
    (hPlaced : Admitted k s msg market quantity coins bank) :
    Ledger k msg.toOrder market quantity { s with bank := bank } where
  balance d := by
    have hHeld := hPlaced.held d
    rw [h.balance, escrowed_eq_share hPaying] at hHeld
    exact hHeld
  gain := h.gain
  market := hPlaced.listed

/-- A market order that is cut short is an ask, and its refund is funded. -/
theorem Ledger.refund {s₁ : State} {left : Int}
    (h : Ledger k msg.toOrder market left s₁) (hAgree : Agree k s₁)
    (hPaying : Paying k msg.toOrder) (hMarket : msg.toOrder.orderType = "MARKET") :
    msg.side = "SELL" ∧ left ≤ s₁.bank.held market.baseDenom := by
  have hSell : msg.toOrder.side = "SELL" := by
    rcases hPaying with hSell | ⟨-, hType, -⟩
    · exact hSell
    · rw [hMarket] at hType
      exact absurd hType (by decide)
  have hBook : 0 ≤ bookTotal (reserve k market.baseDenom) s₁ :=
    Store.total_nonneg fun _ _ he => hAgree.reserve_nonneg market.baseDenom he
  have hSurplus := surplus_nonneg h.gain market.baseDenom
  have hBase := h.balance market.baseDenom
  rw [hSell, share_ask, paid, if_pos rfl] at hBase
  exact ⟨hSell, by omega⟩

/-- The end of a taker closes its ledger: what is left of its share is zero,
is paid back, or goes to the book. -/
theorem Ledger.closed (hLaw : k.sdk.Lawful) {s₁ : State} {takerId : String} {left : Int}
    (h : Ledger k msg.toOrder market left s₁) (hAgree : Agree k s₁)
    (hMsg : WellFormed k msg) (hPaying : Paying k msg.toOrder)
    (hNamed : PlacedId msg.marketId takerId)
    (hQuantity : k.sdk.newIntFromString msg.quantity = some quantity) (h0 : 0 ≤ left)
    (hle : left ≤ quantity) (hFresh : takerId ∉ s₁.order)
    (hEnd : Finalized k msg.toOrder takerId market left s₁ s') (d : String) :
    s'.bank.held d = bookTotal (reserve k d) s' + surplus k d s' := by
  have hUnnamed := hAgree.unnamed hFresh
  have hSame : ∀ (o : Order) (bank : Bank), bookTotal (reserve k d)
      { s₁ with bank := bank, order := s₁.order.insert takerId o } =
      bookTotal (reserve k d) s₁ :=
    fun o bank => bookTotal_unnamed rfl rfl (fun id hne => Store.get?_insert_ne hne) hUnnamed
  have hBalance := h.balance d
  cases hEnd with
  | filled hLeft =>
    rw [hLeft, share_zero] at hBalance
    rw [hSame]
    exact hBalance.trans (Int.add_zero _)
  | cancelled hLeft hMarket bank hRefund =>
    obtain ⟨hSell, hFunds⟩ := h.refund hAgree hPaying hMarket
    have hPaid := (handleRefund_funded hRefund hLeft hSell hFunds).1 d
    rw [show msg.toOrder.side = "SELL" from hSell, share_ask] at hBalance
    rw [hSame]
    show bank.held d = bookTotal (reserve k d) s₁ + surplus k d s₁
    omega
  | resting hLeft hLimit =>
    have hLive : (takerAfter msg.toOrder left "PARTIAL").Live k quantity left :=
      (hMsg.regular hLaw).takerAfter_live hLaw hQuantity h0 hle (by
        rw [statusOf, if_neg hLeft, if_neg hLimit])
    have hFree := hAgree.resting_free hLaw (hMsg.regular hLaw) hNamed hFresh
    have hBook := bookTotal_rest (reserve k d) (restingEntry msg.toOrder takerId)
      (takerAfter msg.toOrder left "PARTIAL") hUnnamed h.market
    have hOwn : reserve k d (restingEntry msg.toOrder takerId)
        (takerAfter msg.toOrder left "PARTIAL") market =
        share msg.toOrder.side (k.value msg.toOrder.price) left market d := by
      rw [reserve, Keeper.value_eq hLive.remaining]
      rfl
    rw [hOwn, Store.erase_of_get?_none hFree] at hBook
    refine Eq.trans ?_ (congrArg (· + surplus k d s₁) hBook.symm)
    show s₁.bank.held d = _ + bookTotal (reserve k d) s₁ + surplus k d s₁
    omega

/-- What the fills of a placed order keep. -/
def Matching (k : Keeper) (msg : MsgPlaceOrder) (market : Market) (s : State) (rem : Int)
    (s₁ : State) : Prop :=
  Ledger k msg.toOrder market rem s₁ ∧ BookLE s₁ s ∧ s₁.market = s.market

/-- Every fill of a matching keeps the ledger. -/
theorem matching_fills (hLaw : k.sdk.Lawful) (hPaying : Paying k msg.toOrder) (takerId : String) :
    FillsKeep k msg.toOrder takerId market (Matching k msg market s) := by
  rintro entry rem left r p n s₁ s₂ maker hAgree hEntry hComp - hFilled ⟨hLedger, hLE, hMarket⟩
  exact ⟨ledger_fill hLaw hAgree hPaying hEntry hComp hFilled hLedger, hFilled.bookLE.trans hLE,
    hFilled.markets.trans hMarket⟩

/-- The state in which the fills of a placed order start. -/
theorem Balanced.matching (h : Balanced k s) (hPaying : Paying k msg.toOrder)
    (hPlaced : Admitted k s msg market quantity coins bank) :
    Matching k msg market { s with bank := bank } quantity { s with bank := bank } :=
  ⟨h.opened hPaying hPlaced, .refl _, rfl⟩

/-- The state in which its fills end, and how it ends. -/
theorem Balanced.matched (hLaw : k.sdk.Lawful) (h : Balanced k s) (hAgree : Agree k s)
    (hMsg : WellFormed k msg) (hPaying : Paying k msg.toOrder)
    (hPlaced : Placed k ctx s msg market quantity coins bank s') :
    ∃ rest left s₁, Looping k msg.toOrder (Matching k msg market { s with bank := bank })
        { s with bank := bank } quantity rest left s₁ ∧
      Finalized k msg.toOrder (msg.orderId ctx.height) market left s₁ s' := by
  exact hAgree.matched hLaw (hMsg.regular hLaw) hPlaced (matching_fills hLaw hPaying _)
    (h.matching hPaying hPlaced.toAdmitted)

/-- A placed order keeps the ledger balanced. -/
theorem Balanced.placed (hLaw : k.sdk.Lawful) (h : Balanced k s) (hAgree : Agree k s)
    (hMsg : WellFormed k msg) (hPaying : Paying k msg.toOrder)
    (hFresh : msg.orderId ctx.height ∉ s.order)
    (hPlaced : Placed k ctx s msg market quantity coins bank s') : Balanced k s' := by
  obtain ⟨_, left, s₁, hDone, hEnd⟩ := h.matched hLaw hAgree hMsg hPaying hPlaced
  have hLedger := hDone.extra.1
  have hNamed := MsgPlaceOrder.placedId hPlaced.creator ctx.height
  obtain ⟨hPair, hListed⟩ := h.paired.placed hPlaced
  refine ⟨?_, by rw [hEnd.frame.2]; exact hLedger.gain, hPair, hListed⟩
  intro d
  exact hLedger.closed hLaw hDone.agree hMsg hPaying hNamed hPlaced.parsed hDone.nonneg hDone.le
    (fun hIn => hFresh ((hDone.keys _).mp hIn)) hEnd d

/-- No settlement of a placed order fails for lack of funds. -/
theorem Balanced.funded (hLaw : k.sdk.Lawful) (h : Balanced k s) (hAgree : Agree k s)
    (hMsg : WellFormed k msg) (hPaying : Paying k msg.toOrder) (wraps : List String) :
    k.placeOrder ctx s msg ≠ .error (.error (.insufficientFunds .module) wraps) := by
  intro hError
  obtain ⟨market, quantity, coins, bank, hAdmitted, hMatch⟩ := placeOrder_lacks_funds hError
  have hNot : ¬ (Failure.error (.insufficientFunds .module) wraps).IsPanic := by
    rintro ⟨_, h⟩
    cases h
  obtain ⟨cs, rem, hMem, hSub, hRem, hLoop⟩ := (matchOrders_error hMatch).resolve_left hNot
  obtain rfl : quantity = rem := Option.some.inj (hAdmitted.parsed.symm.trans hRem)
  obtain ⟨q, hq, hPos⟩ := hMsg.quantity
  obtain rfl : q = quantity := Option.some.inj (hq.symm.trans hAdmitted.parsed)
  have hAgree₀ : Agree k { s with bank := bank } := hAgree.of_stores rfl rfl
  have hStart := hAgree₀.looping hMem hSub (Int.le_of_lt hPos) (h.matching hPaying hAdmitted)
  refine hNot (executeLoop_error (Q := Failure.IsPanic)
    (fun hRem hFilled h => h.next hLaw (matching_fills hLaw hPaying _) hRem hFilled) ?_
    hLoop hStart)
  intro entry rest rem₁ s₁ f hRem₁ hEntry hLooping
  have h0 := hLooping.nonneg
  exact ledger_funds hLooping.agree hPaying hLooping.pending.head
    (hLooping.compatible entry (List.mem_cons_self ..)) (by omega) hLooping.extra.1 hEntry

/-- A market order that ends cut short has been paid back, as the last thing
that happened. -/
theorem Balanced.refunded (hLaw : k.sdk.Lawful) (h : Balanced k s) (hAgree : Agree k s)
    (hMsg : WellFormed k msg) (hPaying : Paying k msg.toOrder)
    (hPlaced : Placed k ctx s msg market quantity coins bank s') {o : Order}
    (ho : s'.order[msg.orderId ctx.height]? = some o) (hCut : o.status = "CANCELLED_PARTIAL") :
    ∃ left, k.sdk.newIntFromString o.remaining = some left ∧ 0 < left ∧
      s'.bank.log.getLast? = some ⟨.module,
        .user ((k.sdk.accAddressFromBech32 msg.creator).getD []),
        newCoins ⟨market.baseDenom, left.toNat⟩⟩ := by
  obtain ⟨_, left, s₁, hDone, hEnd⟩ := h.matched hLaw hAgree hMsg hPaying hPlaced
  have h0 := hDone.nonneg
  have hFits := (hLaw.newInt_fits hPlaced.parsed).of_le h0 hDone.le
  cases hEnd with
  | filled =>
    rw [Std.ExtTreeMap.getElem?_insert_self] at ho
    rw [← Option.some.inj ho] at hCut
    exact absurd hCut (show "FILLED" ≠ "CANCELLED_PARTIAL" by decide)
  | resting =>
    rw [Std.ExtTreeMap.getElem?_insert_self] at ho
    rw [← Option.some.inj ho] at hCut
    exact absurd hCut (show "PARTIAL" ≠ "CANCELLED_PARTIAL" by decide)
  | cancelled hLeft hMarket bank' hRefund =>
    rw [Std.ExtTreeMap.getElem?_insert_self] at ho
    obtain ⟨hSell, hFunds⟩ := hDone.extra.1.refund hDone.agree hPaying hMarket
    have hLog := (handleRefund_funded hRefund hLeft hSell hFunds).2
    refine ⟨left, ?_, by omega, ?_⟩
    · rw [← Option.some.inj ho]
      exact hLaw.newInt_toString hFits
    · show bank'.log.getLast? = _
      rw [hLog, List.getLast?_append, List.getLast?_singleton, Option.some_or]
      rfl

end Placement

-- ---------------------------------------------------------------------------
-- Steps and runs
-- ---------------------------------------------------------------------------

/-- Purging a filled order, which has nothing in reserve, keeps the balance. -/
theorem Balanced.purge (hLaw : k.sdk.Lawful) {s : State} (h : Balanced k s) (hAgree : Agree k s)
    {id : String} {o : Order} (hStored : s.order[id]? = some o) (hFilled : o.status = "FILLED") :
    Balanced k (purgeOrder s id o) := by
  have hMissed := hAgree.purge_misses hLaw hStored
  refine ⟨?_, h.gain, h.pair, by rw [hMissed]; exact h.listed⟩
  intro d
  rw [bookTotal_unnamed hMissed rfl (fun id' hne => Store.get?_erase_ne hne)
    (hAgree.unnamed_of_filled hStored hFilled)]
  exact h.balance d

/-- So does a whole purge. -/
theorem Balanced.purges (hLaw : k.sdk.Lawful) {s : State} (h : Balanced k s)
    (hAgree : Agree k s) (limit : Nat) : Balanced k (Keeper.batchCleanFilledOrders s limit).1 :=
  (purge_induction (P := fun s => Agree k s ∧ Balanced k s)
    (fun _ _ _ hStored hFilled h =>
      ⟨h.1.purge hLaw hStored hFilled, h.2.purge hLaw h.1 hStored hFilled⟩) limit ⟨hAgree, h⟩).2

/-- Registering a pair again changes no denom of its market. -/
theorem Balanced.register {s : State} (h : Balanced k s) (hAgree : Agree k s)
    {msg : MsgRegisterPairs} (hDash : '-' ∉ msg.baseDenom.toList) :
    Balanced k { s with
      market := s.market.insert (pairId msg.baseDenom msg.quoteDenom) msg.toMarket } := by
  obtain ⟨hPair, hListed⟩ := h.paired.register hDash
  refine ⟨?_, h.gain, hPair, hListed⟩
  intro d
  have hTotal : bookTotal (reserve k d) { s with
      market := s.market.insert (pairId msg.baseDenom msg.quoteDenom) msg.toMarket } =
      bookTotal (reserve k d) s := by
    refine bookTotal_congr rfl ?_
    intro kk e he
    obtain ⟨m, hm⟩ := h.listed kk e he
    obtain ⟨-, o, ho, -⟩ := hAgree.entry kk e he
    rw [weigh_eq ho hm]
    by_cases hId : e.marketId = pairId msg.baseDenom msg.quoteDenom
    · obtain ⟨hBase, hQuote⟩ := h.paired.denoms hm hId hDash
      have hNew : (s.market.insert (pairId msg.baseDenom msg.quoteDenom) msg.toMarket)[
          e.marketId]? = some msg.toMarket := by
        rw [hId]
        exact Std.ExtTreeMap.getElem?_insert_self
      refine Eq.trans (weigh_eq ho hNew) ?_
      exact share_congr hBase hQuote
    · exact weigh_eq ho ((Store.get?_insert_ne hId).trans hm)
  rw [hTotal]
  exact h.balance d

/-- A well-formed order that is no market bid. -/
structure Funded (k : Keeper) (msg : MsgPlaceOrder) : Prop extends WellFormed k msg where
  bid : msg.side = "BUY" → k.Positive msg.price

instance (msg : MsgPlaceOrder) : Decidable (Funded k msg) :=
  decidable_of_iff (WellFormed k msg ∧ (msg.side = "BUY" → k.Positive msg.price))
    ⟨fun h => ⟨h.1, h.2⟩, fun h => ⟨h.toWellFormed, h.bid⟩⟩

/-- A well-formed order pays for what it asks. -/
theorem Funded.paying (hLaw : k.sdk.Lawful) {msg : MsgPlaceOrder} (h : Funded k msg) :
    Paying k msg.toOrder := by
  rcases h.side with hBuy | hSell
  · exact .inr ⟨hBuy, (h.bid hBuy).limit hLaw, h.bid hBuy⟩
  · exact .inl hSell

def EscrowOp (k : Keeper) : Op → Prop
  | .deliver _ (.registerPairs msg) =>
    k.sdk.validateDenom msg.baseDenom ∧ k.sdk.validateDenom msg.quoteDenom ∧
      '-' ∉ msg.baseDenom.toList ∧ '-' ∉ msg.quoteDenom.toList
  | .deliver _ (.placeOrder msg) => Funded k msg
  | .deliver _ (.cleanOrders _) => True
  | .endBlock => True
  | _ => False

instance : DecidablePred (EscrowOp k)
  | .deliver _ (.registerPairs _) => inferInstanceAs (Decidable (_ ∧ _ ∧ _ ∧ _))
  | .deliver _ (.placeOrder msg) => inferInstanceAs (Decidable (Funded k msg))
  | .deliver _ (.cleanOrders _) | .endBlock => isTrue trivial
  | .deliver _ (.updateParams _) | .deliver _ (.createMarket _) | .deliver _ (.updateMarket _)
  | .deliver _ (.deleteMarket _) | .deliver _ (.createOrder _) | .deliver _ (.updateOrder _)
  | .deliver _ (.deleteOrder _) => isFalse id

theorem EscrowOp.wellFormed {op : Op} (h : EscrowOp k op) : WellFormedOp k op := by
  unfold EscrowOp at h
  split at h
  · exact ⟨h.1, h.2.1⟩
  · exact h.toWellFormed
  · trivial
  · trivial
  · exact h.elim

structure EscrowRun (k : Keeper) (bank : Bank) (ops : List Op) : Prop where
  op : ∀ op ∈ ops, EscrowOp k op
  slots : (k.slots (State.empty bank) ops).Nodup

/-- Every step of a well-formed run keeps the ledger balanced. -/
theorem balanced_step (hLaw : k.sdk.Lawful) {record : List (String × Nat)} {s : State} {op : Op}
    (hOp : EscrowOp k op) (hNodup : (record ++ k.accepted slots s op).Nodup)
    (hAlive : Alive k record s) (h : Balanced k s) : Balanced k (k.step s op) := by
  revert hNodup
  refine step_accepted (P := fun new s' => (record ++ new).Nodup → Balanced k s') op ?_ ?_ ?_
  · exact fun _ => h
  · rintro ctx msg s' r rfl hHandle hNodup
    have hEffect := handle_effect hHandle
    cases hEffect with
    | rejected => exact h
    | registerPairs => exact h.register hAlive.agree hOp.2.2.1
    | cleanOrders limit => exact h.purges hLaw hAlive.agree limit
    | placeOrder hPlaced =>
      have hNew := not_issued hNodup hPlaced.creator
      exact h.placed hLaw hAlive.agree hOp.toWellFormed (hOp.paying hLaw)
        (fun hid => hNew (hAlive.issued _ hid)) hPlaced
    | _ => exact hOp.elim
  · rintro rfl -
    exact h.purges hLaw hAlive.agree 5

/-- In every state of a well-formed run the ledger is balanced. -/
theorem balanced_reach (hLaw : k.sdk.Lawful) {bank : Bank} {ops : List Op}
    (hRun : EscrowRun k bank ops) (hEmpty : ∀ d, bank.held d = 0) :
    Agree k (k.reach bank ops) ∧ Balanced k (k.reach bank ops) := by
  have hInit : Balanced k (State.empty bank) := by
    refine ⟨fun d => ?_, ?_, ?_, ?_⟩
    · rw [bookTotal, surplus, State.empty, Store.total_empty]
      exact hEmpty d
    · intro f hf
      simp [State.empty] at hf
    all_goals
      intro _ _ h
      simp [State.empty] at h
  have hStep : ∀ record s op, EscrowOp k op → (record ++ k.accepted slots s op).Nodup →
      Alive k record s ∧ Balanced k s →
      Alive k (record ++ k.accepted slots s op) (k.step s op) ∧ Balanced k (k.step s op) :=
    fun record s op hOp hQ h =>
      ⟨(alive_step hLaw (hOp.wellFormed.regular hLaw) hQ h.1).1, balanced_step hLaw hOp hQ h.1 h.2⟩
  have hAll := Run.exec_history (P := fun record s => Alive k record s ∧ Balanced k s)
    (fun _ _ => List.Nodup.of_append_left) hStep (Run.steps_of_forall hRun.op) (h := [])
    hRun.slots ⟨alive_empty k bank, hInit⟩
  exact ⟨hAll.1.agree, hAll.2⟩

/-- **The escrow ledger.** On every well-formed run without market bids the
module account holds exactly what the orders at rest have in escrow and what
the fills of limit bids have left behind, and the latter is never negative.
After such a run no order finds the module account short of coins to settle
with, and a market order that is cut short is paid back. -/
theorem escrow_ledger_exact (hLaw : k.sdk.Lawful) {bank : Bank} {ops : List Op}
    (hRun : EscrowRun k bank ops) (hEmpty : ∀ d, bank.held d = 0) :
    (∀ d, (k.reach bank ops).bank.held d =
        bookTotal (reserve k d) (k.reach bank ops) + surplus k d (k.reach bank ops) ∧
      0 ≤ surplus k d (k.reach bank ops)) ∧
    (∀ (ctx : Context) (msg : MsgPlaceOrder) (wraps : List String), Funded k msg →
      k.placeOrder ctx (k.reach bank ops) msg ≠
        .error (.error (.insufficientFunds .module) wraps)) ∧
    (∀ (ctx : Context) (msg : MsgPlaceOrder) (s' : State) (r : Response) (o : Order),
      Funded k msg → k.placeOrder ctx (k.reach bank ops) msg = .ok (s', r) →
      s'.order[msg.orderId ctx.height]? = some o → o.status = "CANCELLED_PARTIAL" →
      ∃ market left, (k.reach bank ops).market[msg.marketId]? = some market ∧
        k.sdk.newIntFromString o.remaining = some left ∧ 0 < left ∧
        s'.bank.log.getLast? = some ⟨.module,
          .user ((k.sdk.accAddressFromBech32 msg.creator).getD []),
          newCoins ⟨market.baseDenom, left.toNat⟩⟩) := by
  obtain ⟨hAgree, hBalanced⟩ := balanced_reach hLaw hRun hEmpty
  refine ⟨fun d => ⟨hBalanced.balance d, surplus_nonneg hBalanced.gain d⟩, ?_, ?_⟩
  · intro ctx msg wraps hMsg
    exact hBalanced.funded hLaw hAgree hMsg.toWellFormed (hMsg.paying hLaw) wraps
  · intro ctx msg s' r o hMsg hOk ho hCut
    obtain ⟨-, market, quantity, coins, bank₁, hPlaced⟩ := placeOrder_eq_ok hOk
    obtain ⟨left, hLeft⟩ := hBalanced.refunded hLaw hAgree hMsg.toWellFormed (hMsg.paying hLaw)
      hPlaced ho hCut
    exact ⟨market, left, hPlaced.listed, hLeft⟩

open Ganc.Dex.Sample in
theorem escrow_ledger_exact_sample :
    (keeper.reach bank trade).bank.held "uusdt" =
      bookTotal (reserve keeper "uusdt") (keeper.reach bank trade) +
        surplus keeper "uusdt" (keeper.reach bank trade) :=
  ((escrow_ledger_exact Sdk.sample_lawful ⟨by decide +kernel, by decide +kernel⟩
    (fun _ => rfl)).1 "uusdt").1

end Ganc.Dex
