import Ganc.Dex.Refunds

/-!
# x/dex — splitting an order

One order of some quantity, and two orders of the same creator that have this
quantity together, one after the other. Both hand the quantity out greedily
(`Agree.allocated`), the second of the two to what the first has left
(`Allocated.makers`), and so by `Greedy.BestFirst.level_split` they take the same
from every price level, if not from the same makers: equal prices may come in
another order the second time. What the orders fill, pay and leave in the book
depends on the levels alone. What a market ask gets back also depends on what the
module holds, since a refund that cannot be paid is dropped
(`split_gains_nothing_iff`).
-/

namespace Ganc.Dex

variable {k : Keeper}

-- ---------------------------------------------------------------------------
-- Price levels
-- ---------------------------------------------------------------------------

/-- The smaller the better for a taker of the given side. -/
def level (side : String) (price : Int) : Int := if side = "SELL" then -price else price

/-- A lower level is a better price. -/
theorem level_lt_iff {side : String} {p p' : Int} :
    level side p < level side p' ↔ BetterPrice side p p' := by
  unfold level BetterPrice
  split <;> omega

theorem level_eq_iff {side : String} {p p' : Int} : level side p = level side p' ↔ p = p' := by
  unfold level
  split <;> omega

/-- What the fills take at a price. -/
def filledAt (price : Int) (fills : List Fill) : Int :=
  Greedy.sumOn (fun f => f.price = price) Fill.qty fills

/-- What two lists fill at a price adds up. -/
theorem filledAt_append (price : Int) (fs gs : List Fill) :
    filledAt price (fs ++ gs) = filledAt price fs + filledAt price gs :=
  Greedy.sumOn_append fs gs

/-- Fills that take at every price what some items have there trade their quantity for the
same quote coins. -/
theorem sums_of_levels {α : Type} {fs : List Fill} {as : List α} {lev f : α → Int}
    (h : ∀ price, filledAt price fs = Greedy.sumOn (fun a => lev a = price) f as) :
    (fs.map Fill.qty).sum = (as.map f).sum ∧
      (fs.map fun g => g.qty * g.price).sum = (as.map fun a => f a * lev a).sum := by
  refine ⟨?_, Greedy.sum_mul_eq_of_levels h id⟩
  have hCount := Greedy.sum_mul_eq_of_levels h fun _ => 1
  simp only [mul_one] at hCount
  exact hCount

/-- What a service fills at a price is the sum over the makers of that price. -/
theorem filledAt_fillsOf (taker : Order) (takerId : String) (market : Market) (s : State)
    (f : Orderbook → Int) (cs : List Orderbook) (price : Int) :
    filledAt price (fillsOf k taker takerId market s f cs) =
      Greedy.sumOn (fun e => k.priceOf s e = price) f cs := by
  rw [filledAt, Greedy.sumOn, fillsOf, List.map_map]
  refine Greedy.sumOn_filter (D := fun e => k.priceOf s e = price) (f := f) ?_
  intro e _ hNone
  simpa using hNone

/-- The other side is another side. -/
theorem targetSide_ne {side : String} (h : side = "BUY" ∨ side = "SELL") :
    Keeper.targetSide side ≠ side := by
  rcases h with rfl | rfl <;> decide

-- ---------------------------------------------------------------------------
-- A placed order as an allocation
-- ---------------------------------------------------------------------------

section Allocation

variable {ctx : Context} {s s' : State} {msg : MsgPlaceOrder} {market : Market}
variable {quantity : Int} {coins : Coins} {bank : Bank} {takerId : String}

/-- A regular order of a fresh id can be matched. -/
theorem Agree.matchable (hLaw : k.sdk.Lawful) (h : Agree k s) (hMsg : Regular k msg)
    (hNamed : PlacedId msg.marketId takerId)
    (hParsed : k.sdk.newIntFromString msg.quantity = some quantity)
    (hFresh : takerId ∉ s.order) : Matchable k s msg.toOrder takerId quantity where
  keyed := h.keyed
  maker kk e he _ _ := by
    obtain ⟨hKey, -⟩ := h.entry kk e he
    obtain ⟨o, q, r, ho, -, hEntry, hLive, hPos⟩ := h.maker (hKey ▸ he)
    obtain ⟨p, hp, -⟩ := hLive.price
    refine ⟨o, p, r, ho, ?_, ?_, ?_, hp, hLive.remaining, hPos⟩
    · rw [hEntry]
      rfl
    · rw [hEntry]
      rfl
    · rw [hEntry]
      exact hp
  distinct k₁ k₂ e₁ e₂ h₁ h₂ _ _ _ _ hId := h.distinct k₁ k₂ e₁ e₂ h₁ h₂ hId
  side := hMsg.side
  orderType := by
    obtain ⟨p, hp, -⟩ := hMsg.price
    by_cases hMarket : orderTypeOf msg.price = "MARKET"
    · exact .inl hMarket
    · exact .inr ⟨orderTypeOf_eq_limit.mpr hMarket, p, hp⟩
  remaining := hParsed
  nonneg := by
    obtain ⟨q, hq, hPos⟩ := hMsg.quantity
    obtain rfl : q = quantity := Option.some.inj (hq.symm.trans hParsed)
    exact hPos.le
  newId := hFresh
  newKey := Store.notMem_iff.mpr
    (h.resting_free hLaw hMsg hNamed hFresh)

section After

variable {taker : Order} {cs : List Orderbook} {f : Orderbook → Int} {rem left : Int} {s₁ : State}

/-- A match leaves an entry of the side it trades with in the book, unless it uses it up. -/
theorem Matchable.still_stored (h : Matchable k s taker takerId quantity)
    (hPerm : cs.Perm (k.makers s taker))
    (hSwept : Swept k taker takerId market s cs f rem s left s₁)
    (hEnd : Finalized k taker takerId market left s₁ s') {e : Orderbook}
    (hSide : e.side = Keeper.targetSide taker.side) :
    s'.orderbook[e.key]? = some e ↔ s.orderbook[e.key]? = some e ∧
      ¬ (e ∈ k.makers s taker ∧ f e = k.openQty s e) := by
  constructor
  · intro hStored
    -- an entry of the other side is not the one the taker may have left
    have hLoop : s₁.orderbook[e.key]? = some e := by
      refine (hEnd.book_cases hStored).resolve_right ?_
      rintro ⟨rfl, -⟩
      exact targetSide_ne h.side hSide.symm
    rw [hSwept.book] at hLoop
    split at hLoop
    · cases hLoop
    next hNotFull =>
      exact ⟨hLoop, fun ⟨hMaker, hFull⟩ => hNotFull ⟨e, hPerm.mem_iff.mpr hMaker, rfl, hFull⟩⟩
  · rintro ⟨hStored, hNotFull⟩
    have hKey : e.key ≠ (restingEntry taker takerId).key := by
      intro hEq
      exact h.newKey (hEq ▸ Store.mem_iff.mpr ⟨e, hStored⟩)
    rw [hEnd.get?_book hKey, hSwept.book, if_neg]
    · exact hStored
    · rintro ⟨e', he', hKey', hFull⟩
      have hMaker := hPerm.mem_iff.mp he'
      have hStored' := (h.maker_offered hMaker).1
      rw [hKey', hStored] at hStored'
      obtain rfl := Option.some.inj hStored'
      exact hNotFull ⟨hMaker, hFull⟩

/-- After the matching, the makers that were served have their new record. -/
theorem Matchable.makerOf_after (h : Matchable k s taker takerId quantity)
    (hPerm : cs.Perm (k.makers s taker))
    (hSwept : Swept k taker takerId market s cs f rem s left s₁)
    (hEnd : Finalized k taker takerId market left s₁ s') {e : Orderbook}
    (he : e ∈ k.makers s taker) : makerOf s' e =
      if f e = 0 then makerOf s e else makerAfter (makerOf s e) (k.openQty s e) (f e) := by
  obtain ⟨status, hOrder⟩ := hEnd.order_eq
  have hne : e.orderId ≠ takerId := by
    intro hEq
    exact h.newId (hEq ▸ Store.mem_iff.mpr ⟨_, (h.maker_offered he).2.stored⟩)
  rw [makerOf, hOrder, Store.get?_insert_ne hne, hSwept.makers e (hPerm.mem_iff.mpr he),
    Option.getD_some]

/-- After the matching, each maker has open what it was not served. -/
theorem Matchable.openQty_after (hLaw : k.sdk.Lawful) (h : Matchable k s taker takerId quantity)
    (hPerm : cs.Perm (k.makers s taker))
    (hSwept : Swept k taker takerId market s cs f rem s left s₁)
    (hEnd : Finalized k taker takerId market left s₁ s') {e : Orderbook}
    (he : e ∈ k.makers s taker) (hBounds : 0 ≤ f e ∧ f e ≤ k.openQty s e) :
    k.openQty s' e = k.openQty s e - f e := by
  rw [Keeper.openQty, h.makerOf_after hPerm hSwept hEnd he]
  split
  next hZero =>
    rw [hZero, sub_zero]
    rfl
  next =>
    have hFits : MathInt.Fits (k.openQty s e - f e) :=
      (hLaw.newInt_fits (h.maker_offered he).2.remaining).of_le (by omega) (by omega)
    exact Keeper.value_eq (hLaw.newInt_toString hFits)

end After

/-- The record a placed order ends with. -/
theorem Placed.stored (h : Placed k ctx s msg market quantity coins bank s') :
    ∃ left status, s'.order[msg.orderId ctx.height]? =
      some (takerAfter msg.toOrder left status) := by
  obtain ⟨_, _, left, _, -, -, -, -, hEnd⟩ := matchOrders_eq_ok h.matched
  obtain ⟨status, hOrder⟩ := hEnd.order_eq
  refine ⟨left, status, ?_⟩
  rw [hOrder, Std.ExtTreeMap.getElem?_insert_self]

/-- An order that was placed has handed `quantity` out to the makers as `f` says, in the
fills `new`. -/
structure Allocated (k : Keeper) (s : State) (msg : MsgPlaceOrder) (market : Market)
    (quantity : Int) (f : Orderbook → Int) (new : List Fill) (s' : State) : Prop where
  greedy : Greedy.BestFirst (k.openQty s)
    (fun e e' => level msg.side (k.priceOf s e) < level msg.side (k.priceOf s e'))
    (k.makers s msg.toOrder) quantity f
  fills : s'.fills = s.fills ++ new
  traded : ∀ g ∈ new, g.taker = msg.toOrder ∧ g.market = market ∧ 0 ≤ g.qty ∧
    0 ≤ g.qty * g.price
  levels : ∀ price, filledAt price new =
    Greedy.sumOn (fun e => k.priceOf s e = price) f (k.makers s msg.toOrder)
  /-- The makers that are not used up are there for the next order. -/
  makers : ∀ e, e ∈ k.makers s' msg.toOrder ↔
    e ∈ k.makers s msg.toOrder ∧ f e ≠ k.openQty s e
  openQty : ∀ e ∈ k.makers s msg.toOrder, k.openQty s' e = k.openQty s e - f e
  priceOf : ∀ e ∈ k.makers s msg.toOrder, k.priceOf s' e = k.priceOf s e
  others : ∀ (id : String) (o : Order), s.order[id]? = some o → o.side = msg.side →
    s'.order[id]? = some o

/-- What the makers of an order have open together. -/
def Keeper.onOffer (k : Keeper) (s : State) (taker : Order) : Int :=
  ((k.makers s taker).map (k.openQty s)).sum

/-- What this comes to in quote coins. -/
def Keeper.offerWorth (k : Keeper) (s : State) (taker : Order) : Int :=
  ((k.makers s taker).map fun e => k.openQty s e * k.priceOf s e).sum

section Totals

variable {f : Orderbook → Int} {new : List Fill}

/-- An order trades as much as it asks for, or as there is. -/
theorem Allocated.traded_qty (h : Allocated k s msg market quantity f new s') :
    (new.map Fill.qty).sum = min quantity (k.onOffer s msg.toOrder) := by
  rw [(sums_of_levels h.levels).1, h.greedy.total, Keeper.onOffer]

/-- An order that asks for all there is trades it for what it is worth. -/
theorem Allocated.traded_worth (h : Allocated k s msg market quantity f new s')
    (hAll : k.onOffer s msg.toOrder ≤ quantity) :
    (new.map fun g => g.qty * g.price).sum = k.offerWorth s msg.toOrder := by
  rw [(sums_of_levels h.levels).2, Keeper.offerWorth]
  refine congrArg List.sum (List.map_congr_left ?_)
  intro e he
  rw [h.greedy.full hAll he]

end Totals

/-- A placed order is an allocation to the makers, best price first. -/
theorem Agree.allocated (hLaw : k.sdk.Lawful) (h : Agree k s) (hMsg : Regular k msg)
    (hFresh : msg.orderId ctx.height ∉ s.order)
    (hPlaced : Placed k ctx s msg market quantity coins bank s') :
    ∃ f new, Allocated k s msg market quantity f new s' := by
  have hAgree : Agree k { s with bank := bank } := h.of_stores rfl rfl
  have hMatchable := hAgree.matchable hLaw hMsg
    (MsgPlaceOrder.placedId hPlaced.creator ctx.height) hPlaced.parsed hFresh
  obtain ⟨hAgree', hKept⟩ := h.placed hLaw hMsg hFresh hPlaced
  obtain ⟨cs, f, left, s₁, hPerm, hServed, hSwept, hEnd⟩ := hMatchable.swept hPlaced.matched
  obtain ⟨status, hOrder⟩ := hEnd.order_eq
  have hPriceOf : ∀ e, s.orderbook[e.key]? = some e → k.priceOf s' e = k.priceOf s e := by
    intro e he
    obtain ⟨o, -, -, ho, -⟩ := h.maker he
    obtain ⟨o', ho', hEvolved⟩ := hKept _ o ho
    rw [Keeper.priceOf, Keeper.priceOf, makerOf, makerOf, ho, ho', Option.getD_some,
      Option.getD_some, hEvolved.price]
  refine ⟨f, fillsOf k msg.toOrder (msg.orderId ctx.height) market { s with bank := bank } f cs, ?_⟩
  constructor
  case greedy =>
    refine (hServed.perm hPerm).congr (fun _ _ => rfl) ?_
    intro e _ e' _ hLess
    exact level_lt_iff.mp hLess
  case fills => rw [hEnd.frame.2, hSwept.fills]
  case traded =>
    intro g hg
    obtain ⟨e, he, rfl⟩ := List.mem_map.mp hg
    have hIn := (List.mem_filter.mp he).1
    exact ⟨rfl, rfl, (hServed.bounds e hIn).1, hSwept.quotes e hIn⟩
  case levels =>
    intro price
    rw [filledAt_fillsOf]
    exact Greedy.sumOn_perm hPerm
  case makers =>
    intro e
    rw [hAgree'.keyed.mem_makers, h.keyed.mem_makers]
    constructor
    · rintro ⟨hStored', hMarket, hSide, hWithin⟩
      obtain ⟨hStored, hNotFull⟩ :=
        (hMatchable.still_stored hPerm hSwept hEnd hSide).mp hStored'
      rw [hPriceOf e hStored] at hWithin
      have hMaker : e ∈ k.makers s msg.toOrder :=
        h.keyed.mem_makers.mpr ⟨hStored, hMarket, hSide, hWithin⟩
      exact ⟨⟨hStored, hMarket, hSide, hWithin⟩, fun hFull => hNotFull ⟨hMaker, hFull⟩⟩
    · rintro ⟨⟨hStored, hMarket, hSide, hWithin⟩, hNotFull⟩
      refine ⟨?_, hMarket, hSide, ?_⟩
      · exact (hMatchable.still_stored hPerm hSwept hEnd hSide).mpr
          ⟨hStored, fun hFull => hNotFull hFull.2⟩
      · rwa [hPriceOf e hStored]
  case openQty =>
    intro e he
    exact hMatchable.openQty_after hLaw hPerm hSwept hEnd he
      (hServed.bounds e (hPerm.mem_iff.mpr he))
  case priceOf =>
    intro e he
    exact hPriceOf e (h.keyed.mem_makers.mp he).1
  case others =>
    intro id o ho hSide
    have hne : id ≠ msg.orderId ctx.height := fun hEq => hFresh (hEq ▸ Store.mem_iff.mpr ⟨o, ho⟩)
    rw [hOrder, Store.get?_insert_ne hne, hSwept.others]
    · exact ho
    · intro hIn
      obtain ⟨e, he, rfl⟩ := List.mem_map.mp hIn
      obtain ⟨hStored, -, hTarget, -⟩ := h.keyed.mem_makers.mp (hPerm.mem_iff.mp he)
      obtain ⟨o', -, -, ho', -, hEntry, -⟩ := h.maker hStored
      obtain rfl : o' = o := Option.some.inj (ho'.symm.trans ho)
      rw [hEntry] at hTarget
      exact targetSide_ne hMsg.side (hTarget.symm.trans hSide)

-- ---------------------------------------------------------------------------
-- What comes to rest
-- ---------------------------------------------------------------------------

/-- What remains of an order of the creator of a message, if it is in the same market,
on the same side and at the same price. -/
def alike (k : Keeper) (msg : MsgPlaceOrder) (e : Orderbook) (o : Order) (_ : Market) : Int :=
  if e.marketId = msg.marketId ∧ e.side = msg.side ∧ k.value o.price = k.value msg.price ∧
    o.creator = msg.creator then k.value o.remaining else 0

/-- What all such orders have resting in the book. -/
def restingAt (k : Keeper) (msg : MsgPlaceOrder) (s : State) : Int :=
  bookTotal (alike k msg) s

/-- An entry of the other side does not count as alike. -/
theorem alike_other {e : Orderbook} (h : e.side ≠ msg.side) (o : Order) (m : Market) :
    alike k msg e o m = 0 :=
  if_neg fun hSame => h hSame.2.1

/-- What fills of asks take out of the base coins of the module. -/
def drain (market : Market) (fills : List Fill) : Int :=
  paid market.quoteDenom (fills.map fun g => g.qty * g.price).sum market.baseDenom

/-- The match of an order placed in `s`, after the fills `new` and with `rem` left to fill. -/
structure Halfway (k : Keeper) (msg : MsgPlaceOrder) (market : Market) (quantity : Int)
    (s : State) (bank : Bank) (rem : Int) (s₁ : State) (new : List Fill) : Prop where
  markets : s₁.market = s.market
  resting : restingAt k msg s₁ = restingAt k msg s
  fills : s₁.fills = s.fills ++ new
  sum : rem + (new.map Fill.qty).sum = quantity
  sent : bank.sendAll (new.flatMap (Fill.transfers k)) = .ok s₁.bank
  /-- An ask escrows base coins, and is paid from the base coins the module had before only
  if the quote coins are the same. -/
  funds : msg.side = "SELL" →
    s₁.bank.held market.baseDenom = s.bank.held market.baseDenom + rem - drain market new

/-- Every fill of the matching moves what it says. -/
theorem halfway_fills (hSide : msg.side = "BUY" ∨ msg.side = "SELL")
    (hListed : s.market[msg.marketId]? = some market) :
    FillsKeep k msg.toOrder takerId market
      (fun rem s₁ => ∃ new, Halfway k msg market quantity s bank rem s₁ new) := by
  rintro entry rem left r p n s₁ s₂ maker hAgree hEntry hComp - hFilled ⟨new, h⟩
  have hLeft := hFilled.left_eq
  refine ⟨new ++ [⟨takerId, entry.orderId, msg.toOrder, maker, market, n, p⟩], ?_⟩
  constructor
  case markets => exact hFilled.markets.trans h.markets
  case resting =>
    -- the maker is on the other side
    obtain ⟨o, -, -, ho, -⟩ := hAgree.maker hEntry
    obtain rfl : o = maker := by
      have hEq := hFilled.maker_eq
      rwa [ho, Option.getD_some, eq_comm] at hEq
    have hOther : entry.side ≠ msg.side := by
      rw [hComp.side]
      exact targetSide_ne hSide
    have hTotal := bookTotal_fill (w := alike k msg) hFilled hAgree.distinct hEntry ho
      (by rw [h.markets, hComp.market]; exact hListed)
    rw [alike_other hOther, alike_other hOther, ite_self] at hTotal
    have hResting := h.resting
    rw [restingAt] at hResting ⊢
    omega
  case fills => rw [hFilled.fills, h.fills, List.append_assoc]
  case sum =>
    have hSum := h.sum
    rw [List.map_append, List.sum_append, List.map_singleton, List.sum_singleton]
    show left + (_ + n) = quantity
    omega
  case sent =>
    rw [List.flatMap_append, Bank.sendAll_append_eq_ok]
    refine ⟨s₁.bank, h.sent, ?_⟩
    rw [List.flatMap_singleton]
    exact hFilled.sent
  case funds =>
    intro hSell
    have hFunds := h.funds hSell
    rw [hFilled.held, paid, if_pos rfl, drain, List.map_append, List.sum_append, List.map_singleton,
      List.sum_singleton, paid_add]
    rw [drain] at hFunds
    show _ = s.bank.held market.baseDenom + left - (_ + paid market.quoteDenom (n * p) _)
    omega

/-- The state in which the fills of an order end, and how it ends. -/
theorem Agree.halfway (hLaw : k.sdk.Lawful) (h : Agree k s) (hMsg : Regular k msg)
    (hFresh : msg.orderId ctx.height ∉ s.order)
    (hPlaced : Placed k ctx s msg market quantity coins bank s') {new : List Fill}
    (hNew : s'.fills = s.fills ++ new) :
    ∃ left s₁, Halfway k msg market quantity s bank left s₁ new ∧ Agree k s₁ ∧
      msg.orderId ctx.height ∉ s₁.order ∧ 0 ≤ left ∧ left ≤ quantity ∧
      Finalized k msg.toOrder (msg.orderId ctx.height) market left s₁ s' := by
  have hStart : Halfway k msg market quantity s bank quantity { s with bank := bank } [] := by
    refine ⟨rfl, rfl, by simp, by simp, rfl, ?_⟩
    intro hSell
    show bank.held market.baseDenom = _
    rw [hPlaced.held, escrowed, if_neg (by rw [hSell]; decide), paid, if_pos rfl, drain,
      List.map_nil, List.sum_nil, paid_zero, Int.sub_zero]
  obtain ⟨_, left, s₁, hDone, hEnd⟩ := h.matched hLaw hMsg hPlaced
    (halfway_fills hMsg.side hPlaced.listed) ⟨[], hStart⟩
  obtain ⟨new', hHalfway⟩ := hDone.extra
  obtain rfl : new' = new := by
    rw [hEnd.frame.2, hHalfway.fills] at hNew
    exact List.append_cancel_left hNew
  exact ⟨left, s₁, hHalfway, hDone.agree, fun hIn => hFresh ((hDone.keys _).mp hIn),
    hDone.nonneg, hDone.le, hEnd⟩

/-- A limit order comes to rest with what its fills leave, a market order never does. -/
theorem Halfway.restingAt_eq (hLaw : k.sdk.Lawful) {left : Int} {s₁ : State} {new : List Fill}
    (h : Halfway k msg market quantity s bank left s₁ new) (hMsg : Regular k msg)
    (hPlaced : Placed k ctx s msg market quantity coins bank s')
    (hAgree : Agree k s₁) (hFresh : msg.orderId ctx.height ∉ s₁.order) (h0 : 0 ≤ left)
    (hle : left ≤ quantity)
    (hEnd : Finalized k msg.toOrder (msg.orderId ctx.height) market left s₁ s') :
    restingAt k msg s' = restingAt k msg s +
      if msg.toOrder.orderType = "MARKET" then 0 else left := by
  have hUnnamed := hAgree.unnamed hFresh
  have hDropped : ∀ (b : Bank) (o : Order), restingAt k msg { s₁ with
      bank := b
      order := s₁.order.insert (msg.orderId ctx.height) o } = restingAt k msg s₁ :=
    fun b o => bookTotal_unnamed rfl rfl (fun _ hne => Store.get?_insert_ne hne) hUnnamed
  cases hEnd with
  | filled hLeft =>
    rw [hDropped s₁.bank, h.resting]
    split <;> omega
  | cancelled hLeft hType bank' hRefund => rw [if_pos hType, hDropped, h.resting, Int.add_zero]
  | resting hLeft hType =>
    have hListed : s₁.market[(restingEntry msg.toOrder (msg.orderId ctx.height)).marketId]? =
        some market := by
      rw [h.markets]
      exact hPlaced.listed
    have hRest := bookTotal_rest (alike k msg) (restingEntry msg.toOrder (msg.orderId ctx.height))
      (takerAfter msg.toOrder left "PARTIAL") hUnnamed hListed
    have hOwn : alike k msg (restingEntry msg.toOrder (msg.orderId ctx.height))
        (takerAfter msg.toOrder left "PARTIAL") market = k.value (toString left) :=
      if_pos ⟨rfl, rfl, rfl, rfl⟩
    have hFits := (hLaw.newInt_fits hPlaced.parsed).of_le h0 hle
    rw [Store.erase_of_get?_none (hAgree.resting_free hLaw hMsg
      (MsgPlaceOrder.placedId hPlaced.creator ctx.height) hFresh), hOwn,
      Keeper.value_eq (hLaw.newInt_toString hFits)] at hRest
    rw [if_neg hType, ← h.resting, Int.add_comm]
    exact hRest

/-- What is left of an order. -/
def unfilled (k : Keeper) (s : State) (id : String) : Int :=
  k.value (s.order[id]?.getD default).remaining

/-- The record of the taker says what was left. -/
theorem Finalized.unfilled_eq (hLaw : k.sdk.Lawful) {taker : Order} {left : Int} {s₁ : State}
    (h : Finalized k taker takerId market left s₁ s') (hFits : MathInt.Fits left) :
    unfilled k s' takerId = left := by
  obtain ⟨status, hOrder⟩ := h.order_eq
  rw [unfilled, hOrder, Std.ExtTreeMap.getElem?_insert_self, Option.getD_some]
  exact Keeper.value_eq (hLaw.newInt_toString hFits)

-- ---------------------------------------------------------------------------
-- What is paid
-- ---------------------------------------------------------------------------

theorem paid_sum {α : Type} (denom : String) (f : α → Int) (as : List α) (d : String) :
    (as.map fun a => paid denom (f a) d).sum = paid denom (as.map f).sum d := by
  unfold paid
  split <;> simp

/-- What the transfers of the fills move, fill by fill. -/
theorem moved_map (send : Fill → Transfer) (fs : List Fill) (d : String) :
    moved (fs.map send) d = (fs.map fun g => (Bank.amountOf (send g).coins d : Int)).sum := by
  rw [moved, List.map_map]
  rfl

/-- The coins of fills of one side in one market: base by the quantity one way, quote by
the quantity times the price the other way. -/
theorem moved_traded {side : String} {fs : List Fill}
    (h : ∀ g ∈ fs, g.taker.side = side ∧ g.market = market ∧ 0 ≤ g.qty ∧ 0 ≤ g.qty * g.price)
    (d : String) :
    moved (fs.map (Fill.toTaker k)) d =
        (if side = "BUY" then paid market.baseDenom (fs.map Fill.qty).sum d
          else paid market.quoteDenom (fs.map fun g => g.qty * g.price).sum d) ∧
      moved (fs.map (Fill.toMaker k)) d =
        (if side = "BUY" then paid market.quoteDenom (fs.map fun g => g.qty * g.price).sum d
          else paid market.baseDenom (fs.map Fill.qty).sum d) := by
  have hTaker : ∀ g ∈ fs, (Bank.amountOf (g.toTaker k).coins d : Int) =
      if side = "BUY" then paid market.baseDenom g.qty d
      else paid market.quoteDenom (g.qty * g.price) d := by
    intro g hg
    obtain ⟨hSide, hMarket, hQty, hQuote⟩ := h g hg
    rw [Fill.toTaker_coins hQty hQuote, hSide, hMarket]
  have hMaker : ∀ g ∈ fs, (Bank.amountOf (g.toMaker k).coins d : Int) =
      if side = "BUY" then paid market.quoteDenom (g.qty * g.price) d
      else paid market.baseDenom g.qty d := by
    intro g hg
    obtain ⟨hSide, hMarket, hQty, hQuote⟩ := h g hg
    rw [Fill.toMaker_coins hQty hQuote, hSide, hMarket]
  rw [moved_map, moved_map, List.map_congr_left hTaker, List.map_congr_left hMaker]
  split
  · exact ⟨paid_sum _ _ _ d, paid_sum _ _ _ d⟩
  · exact ⟨paid_sum _ _ _ d, paid_sum _ _ _ d⟩

/-- What a market ask gets back: what its fills leave, unless they have taken more than the
module held before. -/
def paidBack (s : State) (market : Market) (quantity : Int) (fills : List Fill) : Int :=
  if drain market fills ≤ s.bank.held market.baseDenom then
    quantity - (fills.map Fill.qty).sum
  else 0

/-- A refund that the module account cannot pay is dropped. -/
theorem handleRefund_short {bank' : Bank} {addr : AccAddress} {remaining : Int} {side : String}
    (h : k.handleRefund bank addr remaining side market = .ok bank')
    (hShort : bank.held market.baseDenom < remaining) : bank' = bank := by
  refine (handleRefund_eq_ok h).resolve_right ?_
  rintro ⟨-, -, hHeld⟩
  have hLeft := bank'.held_nonneg market.baseDenom
  rw [hHeld, paid, if_pos rfl] at hLeft
  omega

/-- The refund of a market ask, and the base coins of the module after it. -/
theorem Halfway.refund_eq {left : Int} {s₁ : State} {new : List Fill} {refund : List Transfer}
    (h : Halfway k msg market quantity s bank left s₁ new) (h0 : 0 ≤ left)
    (hSell : msg.side = "SELL") (hMarket : msg.toOrder.orderType = "MARKET")
    (hEnd : Finalized k msg.toOrder takerId market left s₁ s')
    (hSent : bank.sendAll (new.flatMap (Fill.transfers k) ++ refund) = .ok s'.bank) :
    (∀ d, moved refund d = paid market.baseDenom (paidBack s market quantity new) d) ∧
      s'.bank.held market.baseDenom = s.bank.held market.baseDenom + left - drain market new -
        paidBack s market quantity new := by
  have hLog : s'.bank.log = s₁.bank.log ++ refund := by
    rw [(Bank.sendAll_eq_ok hSent).1, (Bank.sendAll_eq_ok h.sent).1, List.append_assoc]
  have hFunds := h.funds hSell
  have hLeft : quantity - (new.map Fill.qty).sum = left := by
    have hSum := h.sum
    omega
  rw [paidBack, hLeft]
  cases hEnd with
  | filled hZero =>
    obtain rfl : refund = [] := List.append_right_eq_self.mp hLog.symm
    rw [hZero, ite_self]
    refine ⟨fun d => (paid_zero _ d).symm, ?_⟩
    show s₁.bank.held market.baseDenom = _
    omega
  | cancelled hne _ bank' hRefund =>
    show _ ∧ bank'.held market.baseDenom = _
    split
    next hCovered =>
      have hHeld : left ≤ s₁.bank.held market.baseDenom := by omega
      obtain ⟨hAfter, hPaid⟩ := handleRefund_funded hRefund hne hSell hHeld
      obtain rfl := List.append_cancel_left (hPaid.symm.trans hLog)
      refine ⟨?_, ?_⟩
      · intro d
        rw [moved, List.map_singleton, List.sum_singleton]
        exact amountOf_release _ _ d h0
      · rw [hAfter, paid, if_pos rfl]
        omega
    next hShort =>
      obtain rfl : bank' = s₁.bank := handleRefund_short hRefund (by omega)
      obtain rfl : refund = [] := List.append_right_eq_self.mp hLog.symm
      refine ⟨fun d => (paid_zero _ d).symm, ?_⟩
      omega
  | resting _ hLimit => exact absurd hMarket hLimit

-- ---------------------------------------------------------------------------
-- One order
-- ---------------------------------------------------------------------------

/-- What an accepted order did: its fills, what its creator has paid in, and what the
module has paid out. -/
structure Outcome (k : Keeper) (ctx : Context) (msg : MsgPlaceOrder) (s s' : State)
    (new : List Fill) (refund : List Transfer) : Prop where
  fills : s'.fills = s.fills ++ new
  own : ∀ f ∈ new, f.takerId = msg.orderId ctx.height ∧ f.taker = msg.toOrder
  refunded : refund = [] ∨ ∃ denom n, refund = [release (k.addressOf msg.creator) denom n]
  log : ∃ coins, s'.bank.log = s.bank.log ++ ⟨.user (k.addressOf msg.creator), .module, coins⟩ ::
    (new.flatMap (fun f => [f.toTaker k, f.toMaker k]) ++ refund)

/-- An accepted order, and how what it did follows from the makers. -/
structure Deal (k : Keeper) (ctx : Context) (msg : MsgPlaceOrder) (s : State) (market : Market)
    (quantity : Int) (f : Orderbook → Int) (new : List Fill) (refund : List Transfer)
    (s' : State) : Prop extends Allocated k s msg market quantity f new s' where
  outcome : Outcome k ctx msg s s' new refund
  left : unfilled k s' (msg.orderId ctx.height) = quantity - (new.map Fill.qty).sum
  resting : restingAt k msg s' = restingAt k msg s +
    if msg.toOrder.orderType = "MARKET" then 0 else quantity - (new.map Fill.qty).sum
  repaid : ∀ d, moved refund d = if msg.toOrder.orderType = "MARKET" then
    paid market.baseDenom (paidBack s market quantity new) d else 0
  held : msg.toOrder.orderType = "MARKET" → s'.bank.held market.baseDenom =
    s.bank.held market.baseDenom + (quantity - (new.map Fill.qty).sum) - drain market new -
      paidBack s market quantity new

theorem Allocated.traded_side {f : Orderbook → Int} {new : List Fill}
    (h : Allocated k s msg market quantity f new s') : ∀ g ∈ new,
      g.taker.side = msg.side ∧ g.market = market ∧ 0 ≤ g.qty ∧ 0 ≤ g.qty * g.price := by
  intro g hg
  obtain ⟨hTaker, hRest⟩ := h.traded g hg
  exact ⟨congrArg Order.side hTaker, hRest⟩

/-- A placed order is a deal: an allocation, with a refund. -/
theorem Agree.deal (hLaw : k.sdk.Lawful) (h : Agree k s) (hMsg : Proper k msg)
    (hFresh : msg.orderId ctx.height ∉ s.order)
    (hPlaced : Placed k ctx s msg market quantity coins bank s') :
    ∃ f new refund, Deal k ctx msg s market quantity f new refund s' := by
  obtain ⟨f, new, hAllocated⟩ := h.allocated hLaw hMsg.toRegular hFresh hPlaced
  obtain ⟨new', refund, hFills, hExecuted, hRefund, hSent⟩ := matchOrders_fills hLaw hPlaced.matched
  obtain rfl : new' = new := List.append_cancel_left (hFills.symm.trans hAllocated.fills)
  obtain ⟨left, s₁, hHalfway, hAgree, hFresh₁, h0, hle, hEnd⟩ :=
    h.halfway hLaw hMsg.toRegular hFresh hPlaced hAllocated.fills
  have hLeft : left = quantity - (new'.map Fill.qty).sum := by
    have hSum := hHalfway.sum
    omega
  have hMarketAsk : msg.toOrder.orderType = "MARKET" → _ := fun hMarket =>
    hHalfway.refund_eq h0 (hMsg.sell_of_market hLaw hMarket) hMarket hEnd hSent
  refine ⟨f, new', refund, hAllocated, ?_, ?_, ?_, ?_, ?_⟩
  · refine ⟨hFills, ?_, ?_, coins, hPlaced.log hSent⟩
    · intro g hg
      exact ⟨(hExecuted g hg).takerId_eq, (hExecuted g hg).taker_eq⟩
    · exact hRefund.imp_right fun ⟨_, n, hRefund⟩ => ⟨_, n, hRefund⟩
  · rw [hEnd.unfilled_eq hLaw ((hLaw.newInt_fits hPlaced.parsed).of_le h0 hle), hLeft]
  · rw [← hLeft]
    exact hHalfway.restingAt_eq hLaw hMsg.toRegular hPlaced hAgree hFresh₁ h0 hle hEnd
  · intro d
    split
    next hMarket => exact (hMarketAsk hMarket).1 d
    next hLimit =>
      rcases hRefund with rfl | ⟨hMarket, -⟩
      · rfl
      · exact absurd hMarket hLimit
  · intro hMarket
    rw [← hLeft]
    exact (hMarketAsk hMarket).2

end Allocation

-- ---------------------------------------------------------------------------
-- The blocks in between
-- ---------------------------------------------------------------------------

section Blocks

variable {s s' s'' : State}

/-- Filled orders may be gone. -/
structure Quiet (s s' : State) : Prop where
  market : s'.market = s.market
  bank : s'.bank = s.bank
  orderbook : s'.orderbook = s.orderbook
  order : ∀ (kk : String) (e : Orderbook), s.orderbook[kk]? = some e →
    s'.order[e.orderId]? = s.order[e.orderId]?
  kept : ∀ (id : String) (o : Order), s.order[id]? = some o →
    s'.order[id]? = some o ∨ o.status = "FILLED" ∧ id ∉ s'.order
  fewer : ∀ id ∈ s'.order, id ∈ s.order

theorem Quiet.refl (s : State) : Quiet s s :=
  ⟨rfl, rfl, rfl, fun _ _ _ => rfl, fun _ _ ho => .inl ho, fun _ hid => hid⟩

theorem Quiet.trans (h : Quiet s s') (h' : Quiet s' s'') : Quiet s s'' where
  market := h'.market.trans h.market
  bank := h'.bank.trans h.bank
  orderbook := h'.orderbook.trans h.orderbook
  order kk e he := (h'.order kk e (h.orderbook ▸ he)).trans (h.order kk e he)
  kept id o ho := by
    rcases h.kept id o ho with hThere | ⟨hFilled, hGone⟩
    · exact h'.kept id o hThere
    · exact .inr ⟨hFilled, fun hid => hGone (h'.fewer id hid)⟩
  fewer id hid := h.fewer id (h'.fewer id hid)

/-- A purge removes filled orders, and no entry with them. -/
theorem Agree.quiet_purge (hLaw : k.sdk.Lawful) (h : Agree k s) (limit : Nat) :
    Quiet s (Keeper.batchCleanFilledOrders s limit).1 := by
  refine (purge_induction (P := fun s' => Agree k s' ∧ Quiet s s') ?_ limit ⟨h, .refl s⟩).2
  rintro s₁ id o hStored hFilled ⟨hAgree, hQuiet⟩
  refine ⟨hAgree.purge hLaw hStored hFilled, hQuiet.trans ⟨rfl, rfl, ?_, ?_, ?_, ?_⟩⟩
  · exact hAgree.purge_misses hLaw hStored
  · intro kk e he
    exact Store.get?_erase_ne (hAgree.unnamed_of_filled hStored hFilled kk e he)
  · intro id' o' ho'
    by_cases hId : id' = id
    · subst hId
      obtain rfl := Option.some.inj (hStored.symm.trans ho')
      exact .inr ⟨hFilled, fun hIn => (Store.mem_erase.mp hIn).1 rfl⟩
    · exact .inl ((Store.get?_erase_ne hId).trans ho')
  · intro id' hid
    exact (Store.mem_erase.mp hid).2

/-- Blocks that end without messages change nothing that orders see. -/
theorem Agree.endBlocks (hLaw : k.sdk.Lawful) (h : Agree k s) (n : Nat) :
    Agree k (Run.exec k.step s (.replicate n .endBlock)) ∧
      Quiet s (Run.exec k.step s (.replicate n .endBlock)) := by
  induction n generalizing s with
  | zero => exact ⟨h, .refl s⟩
  | succ n ih =>
    rw [List.replicate_succ, Run.exec_cons]
    have hStep : Agree k (k.step s .endBlock) := h.purges hLaw 5
    have hQuiet : Quiet s (k.step s .endBlock) := h.quiet_purge hLaw 5
    obtain ⟨hAgree, hRest⟩ := ih hStep
    exact ⟨hAgree, hQuiet.trans hRest⟩

theorem Quiet.makerOf_eq (h : Quiet s s') {kk : String} {e : Orderbook}
    (he : s.orderbook[kk]? = some e) : makerOf s' e = makerOf s e := by
  rw [makerOf, makerOf, h.order kk e he]

/-- After a quiet stretch an order has the same makers. -/
theorem Quiet.makers_eq (h : Quiet s s') (taker : Order) :
    k.makers s' taker = k.makers s taker := by
  rw [Keeper.makers, Keeper.makers, h.orderbook]
  refine List.filter_congr ?_
  intro e he
  obtain ⟨kv, hkv, rfl⟩ := List.mem_map.mp he
  rw [Keeper.priceOf, Keeper.priceOf, h.makerOf_eq (Store.mem_toList.mp hkv)]

/-- After a quiet stretch the same quantity rests beside the order. -/
theorem Quiet.restingAt_eq (h : Quiet s s') (msg : MsgPlaceOrder) :
    restingAt k msg s' = restingAt k msg s := by
  refine bookTotal_congr h.orderbook ?_
  intro kk e he
  exact weigh_congr (h.order kk e he) (by rw [h.market])

end Blocks

-- ---------------------------------------------------------------------------
-- One order, and two
-- ---------------------------------------------------------------------------

section Split

variable {ctx ctx₁ ctx₂ : Context} {msg : MsgPlaceOrder} {t₁ t₂ : String} {market : Market}
variable {q₁ q₂ : Int} {s s' s₁ s₁' s₂ : State} {f f₁ f₂ : Orderbook → Int}
variable {new new₁ new₂ : List Fill} {refund refund₁ refund₂ : List Transfer}

/-- The same order for another quantity. -/
def MsgPlaceOrder.part (msg : MsgPlaceOrder) (quantity : String) : MsgPlaceOrder :=
  { msg with quantity := quantity }

/-- The part of an order has the makers of the whole. -/
theorem makers_part (s : State) (msg : MsgPlaceOrder) (t : String) :
    k.makers s (msg.part t).toOrder = k.makers s msg.toOrder := rfl

/-- **The price levels.** The one order and the two take the same at every price. -/
theorem filledAt_split (hOnce : Allocated k s msg market (q₁ + q₂) f new s')
    (hFirst : Allocated k s (msg.part t₁) market q₁ f₁ new₁ s₁) (hQuiet : Quiet s₁ s₁')
    (hSecond : Allocated k s₁' (msg.part t₂) market q₂ f₂ new₂ s₂) (hKeyed : Keyed s)
    (hKeyed₁ : Keyed s₁) (hq₂ : 0 ≤ q₂) (price : Int) :
    filledAt price new = filledAt price (new₁ ++ new₂) := by
  have hLeft : ∀ e, e ∈ k.makers s₁ msg.toOrder ↔
      e ∈ k.makers s msg.toOrder ∧ f₁ e ≠ k.openQty s e := hFirst.makers
  have hMaker : ∀ e ∈ k.makers s₁ msg.toOrder, makerOf s₁' e = makerOf s₁ e :=
    fun e he => hQuiet.makerOf_eq (hKeyed₁.mem_makers.mp he).1
  have hOpen : ∀ e ∈ k.makers s₁ msg.toOrder, k.openQty s₁' e = k.openQty s e - f₁ e := by
    intro e he
    rw [← hFirst.openQty e ((hLeft e).mp he).1, Keeper.openQty, hMaker e he, Keeper.openQty]
  have hPrice : ∀ e ∈ k.makers s₁ msg.toOrder, k.priceOf s₁' e = k.priceOf s e := by
    intro e he
    rw [← hFirst.priceOf e ((hLeft e).mp he).1, Keeper.priceOf, hMaker e he, Keeper.priceOf]
  have hPerm : (k.makers s₁ msg.toOrder).Perm
      ((k.makers s msg.toOrder).filter fun e => f₁ e ≠ k.openQty s e) := by
    refine (List.perm_ext_iff_of_nodup (hKeyed₁.nodup_makers _)
      ((hKeyed.nodup_makers _).filter _)).mpr ?_
    intro e
    rw [List.mem_filter, decide_eq_true_eq]
    exact hLeft e
  have hAfter := hSecond.greedy
  rw [makers_part, hQuiet.makers_eq] at hAfter
  have hRest : Greedy.BestFirst (fun e => k.openQty s e - f₁ e)
      (fun e e' => level msg.side (k.priceOf s e) < level msg.side (k.priceOf s e'))
      (k.makers s₁ msg.toOrder) q₂ f₂ := by
    refine hAfter.congr (fun e he => (hOpen e he).symm) ?_
    intro e he e' he' hLess
    show level msg.side _ < level msg.side _
    rwa [hPrice e he, hPrice e' he']
  have hLevel := hOnce.greedy.level_split hFirst.greedy hRest hPerm hq₂ (level msg.side price)
  have hSame : ∀ (g : Orderbook → Int) (es : List Orderbook),
      Greedy.sumOn (fun e => k.priceOf s e = price) g es =
        Greedy.sumOn (fun e => level msg.side (k.priceOf s e) = level msg.side price) g es :=
    fun g es => Greedy.sumOn_iff fun e _ => level_eq_iff.symm
  have hThere : Greedy.sumOn (fun e => k.priceOf s₁' e = price) f₂ (k.makers s₁ msg.toOrder) =
      Greedy.sumOn (fun e => k.priceOf s e = price) f₂ (k.makers s₁ msg.toOrder) :=
    Greedy.sumOn_iff fun e he => by rw [hPrice e he]
  rw [filledAt_append, hOnce.levels, hFirst.levels, hSecond.levels, makers_part, makers_part,
    hQuiet.makers_eq, hThere, hSame, hSame, hSame, hLevel]

/-- What is left of an order does not change while its side is the one that trades. -/
theorem unfilled_kept (hLaw : k.sdk.Lawful) {id : String} {o : Order} (hAgree : Agree k s₁)
    (ho : s₁.order[id]? = some o) (hSide : o.side = msg.side) (hQuiet : Quiet s₁ s₁')
    (hSecond : Allocated k s₁' (msg.part t₂) market q₂ f₂ new₂ s₂)
    (hNoNew : id ∉ s₁'.order → id ∉ s₂.order) : unfilled k s₂ id = unfilled k s₁ id := by
  rcases hQuiet.kept id o ho with hThere | ⟨hFilled, hGone⟩
  · rw [unfilled, unfilled, ho, hSecond.others id o hThere hSide]
  · -- a filled order that is gone has as little left as one that is not there
    obtain ⟨q, r, hLive⟩ := hAgree.order id o ho
    have hNone : (default : Order).remaining = "" := rfl
    rw [unfilled, unfilled, ho, Store.notMem_iff.mp (hNoNew hGone), Option.getD_none,
      Option.getD_some, hNone, Keeper.value, hLaw.newInt_empty, Keeper.value_eq hLive.remaining,
      hLive.filled_iff.mp hFilled]
    rfl

/-- What the one order traded and left, which filled `new` and led from `s` to `s'`, is what
the two did, which filled `fills` and led to `s₂`. -/
structure SameTrades (k : Keeper) (msg : MsgPlaceOrder) (s' s₂ : State) (id id₁ id₂ : String)
    (new fills : List Fill) : Prop where
  quantity : (new.map Fill.qty).sum = (fills.map Fill.qty).sum
  received : ∀ d, moved (new.map (Fill.toTaker k)) d = moved (fills.map (Fill.toTaker k)) d
  paid : ∀ d, moved (new.map (Fill.toMaker k)) d = moved (fills.map (Fill.toMaker k)) d
  levels : ∀ price, filledAt price new = filledAt price fills
  left : unfilled k s' id = unfilled k s₂ id₁ + unfilled k s₂ id₂
  resting : restingAt k msg s' = restingAt k msg s₂

/-- The one order came to the same as the two, the refunds included. -/
structure SameDeal (k : Keeper) (msg : MsgPlaceOrder) (s' s₂ : State) (id id₁ id₂ : String)
    (new fills : List Fill) (refund refunds : List Transfer) : Prop
    extends SameTrades k msg s' s₂ id id₁ id₂ new fills where
  refunded : ∀ d, moved refund d = moved refunds d

/-- Two parts trade, price by price, what the whole trades. -/
theorem sameTrades (hOnce : Deal k ctx msg s market (q₁ + q₂) f new refund s')
    (hFirst : Deal k ctx₁ (msg.part t₁) s market q₁ f₁ new₁ refund₁ s₁) (hQuiet : Quiet s₁ s₁')
    (hSecond : Deal k ctx₂ (msg.part t₂) s₁' market q₂ f₂ new₂ refund₂ s₂) (hKeyed : Keyed s)
    (hKeyed₁ : Keyed s₁) (hq₂ : 0 ≤ q₂)
    (hKept : unfilled k s₂ (msg.orderId ctx₁.height) = unfilled k s₁ (msg.orderId ctx₁.height)) :
    SameTrades k msg s' s₂ (msg.orderId ctx.height) (msg.orderId ctx₁.height)
      (msg.orderId ctx₂.height) new (new₁ ++ new₂) := by
  have hLevels := filledAt_split hOnce.toAllocated hFirst.toAllocated hQuiet
    hSecond.toAllocated hKeyed hKeyed₁ hq₂
  obtain ⟨hQty, hQuote⟩ := sums_of_levels hLevels
  have hTraded := hOnce.traded_side
  have hTraded' : ∀ g ∈ new₁ ++ new₂, g.taker.side = msg.side ∧ g.market = market ∧ 0 ≤ g.qty ∧
      0 ≤ g.qty * g.price := by
    intro g hg
    rcases List.mem_append.mp hg with hg | hg
    · exact hFirst.traded_side g hg
    · exact hSecond.traded_side g hg
  have hSum : (new.map Fill.qty).sum = (new₁.map Fill.qty).sum + (new₂.map Fill.qty).sum := by
    rw [hQty, List.map_append, List.sum_append]
  constructor
  case quantity => exact hQty
  case received =>
    intro d
    rw [(moved_traded hTraded d).1, (moved_traded hTraded' d).1, hQty, hQuote]
  case paid =>
    intro d
    rw [(moved_traded hTraded d).2, (moved_traded hTraded' d).2, hQty, hQuote]
  case levels => exact hLevels
  case left =>
    have hLeft₁ : unfilled k s₁ (msg.orderId ctx₁.height) = _ := hFirst.left
    have hLeft₂ : unfilled k s₂ (msg.orderId ctx₂.height) = _ := hSecond.left
    rw [hOnce.left, hKept, hLeft₁, hLeft₂]
    omega
  case resting =>
    have hResting₁ : restingAt k msg s₁ = restingAt k msg s + _ := hFirst.resting
    have hResting₂ : restingAt k msg s₂ = restingAt k msg s₁' + _ := hSecond.resting
    rw [hOnce.resting, hResting₂, hQuiet.restingAt_eq, hResting₁]
    show _ = _ + (if msg.toOrder.orderType = "MARKET" then 0 else _) +
      if msg.toOrder.orderType = "MARKET" then 0 else _
    split <;> omega

-- ---------------------------------------------------------------------------
-- Refunds
-- ---------------------------------------------------------------------------

/-- A market ask of which `q₁` are placed first gets the same refund either way: its base
coins are no quote coins, or the bids take the whole first part, or the module held before
what all the bids pay. -/
def Refundable (k : Keeper) (s : State) (msg : MsgPlaceOrder) (market : Market) (q₁ : Int) :
    Prop :=
  msg.toOrder.orderType = "MARKET" → market.baseDenom = market.quoteDenom →
    k.onOffer s msg.toOrder < q₁ →
      k.offerWorth s msg.toOrder ≤ s.bank.held market.baseDenom

instance (msg : MsgPlaceOrder) (market : Market) (q₁ : Int) :
    Decidable (Refundable k s msg market q₁) := by
  unfold Refundable
  infer_instance

/-- Whether the first part is refunded, as a condition on the offer and the balance. -/
theorem refundable_iff (hMarket : msg.toOrder.orderType = "MARKET") :
    Refundable k s msg market q₁ ↔ (k.onOffer s msg.toOrder < q₁ →
      paid market.quoteDenom (k.offerWorth s msg.toOrder) market.baseDenom ≤
        s.bank.held market.baseDenom) := by
  have hHeld := s.bank.held_nonneg market.baseDenom
  rw [paid]
  constructor
  · intro hCan hMore
    split
    next hSame => exact hCan hMarket hSame.symm hMore
    next => exact hHeld
  · intro hCan _ hSame hMore
    have hLe := hCan hMore
    rwa [if_pos hSame.symm] at hLe

/-- What is paid back of `rest`, if no more was drained than was held. -/
def payable (held drained rest : Int) : Int := if drained ≤ held then rest else 0

/-- The refunds of two parts that take from one offer, against that of the whole: the first
part's own drain is all that can keep them apart. -/
theorem payable_add {held held₁ offer worth q₁ q₂ sold₁ sold₂ drain₁ drain₂ : Int}
    (hSold₁ : sold₁ = min q₁ offer) (hSold : sold₁ + sold₂ = min (q₁ + q₂) offer) (hq₂ : 0 < q₂)
    (hWorth : offer ≤ q₁ → drain₁ = worth ∧ drain₁ + drain₂ = worth)
    (hHeld : held₁ = held + (q₁ - sold₁) - drain₁ - payable held drain₁ (q₁ - sold₁))
    (hSolvent : 0 ≤ held₁) :
    payable held (drain₁ + drain₂) (q₁ + q₂ - (sold₁ + sold₂)) =
        payable held drain₁ (q₁ - sold₁) + payable held₁ drain₂ (q₂ - sold₂) ↔
      (offer < q₁ → worth ≤ held) := by
  rcases Int.lt_or_le offer q₁ with hMore | hMet
  · -- the first part takes all there is, and the second is paid back in full
    obtain ⟨hAll₁, hAll⟩ := hWorth hMore.le
    have hSecond : payable held₁ drain₂ (q₂ - sold₂) = q₂ := by
      rw [payable, if_pos (by omega)]
      omega
    by_cases hCan : worth ≤ held
    · have hFirst : payable held drain₁ (q₁ - sold₁) = q₁ - sold₁ := if_pos (by omega)
      have hBoth : payable held (drain₁ + drain₂) (q₁ + q₂ - (sold₁ + sold₂)) =
          q₁ + q₂ - (sold₁ + sold₂) := if_pos (by omega)
      rw [hFirst, hSecond, hBoth]
      exact iff_of_true (by omega) fun _ => hCan
    · have hFirst : payable held drain₁ (q₁ - sold₁) = 0 := if_neg (by omega)
      have hBoth : payable held (drain₁ + drain₂) (q₁ + q₂ - (sold₁ + sold₂)) = 0 :=
        if_neg (by omega)
      rw [hFirst, hSecond, hBoth]
      exact iff_of_false (by omega) fun h => hCan (h hMore)
  · -- the first part is sold, so that nothing of it is paid back
    have hFirst : payable held drain₁ (q₁ - sold₁) = 0 := by
      rw [payable]
      split
      · omega
      · rfl
    have hLeft : held₁ = held - drain₁ := by omega
    have hRest : q₁ + q₂ - (sold₁ + sold₂) = q₂ - sold₂ := by omega
    have hSame : payable held (drain₁ + drain₂) (q₂ - sold₂) =
        payable held₁ drain₂ (q₂ - sold₂) := by
      rw [payable, payable, hLeft]
      exact if_congr (by omega) rfl rfl
    rw [hFirst, hRest, hSame, Int.zero_add]
    exact iff_of_true rfl fun h => absurd h (Int.not_lt.mpr hMet)

/-- **The refunds.** What the first part does not find keeps the module from paying the
refund of the whole, and goes into the refund of the second part. -/
theorem refunds_iff (hOnce : Deal k ctx msg s market (q₁ + q₂) f new refund s')
    (hFirst : Deal k ctx₁ (msg.part t₁) s market q₁ f₁ new₁ refund₁ s₁) (hQuiet : Quiet s₁ s₁')
    (hSecond : Deal k ctx₂ (msg.part t₂) s₁' market q₂ f₂ new₂ refund₂ s₂) (hKeyed : Keyed s)
    (hKeyed₁ : Keyed s₁) (hq₂ : 0 < q₂) :
    (∀ d, moved refund d = moved (refund₁ ++ refund₂) d) ↔ Refundable k s msg market q₁ := by
  by_cases hMarket : msg.toOrder.orderType = "MARKET"
  · have hMarket₁ : (msg.part t₁).toOrder.orderType = "MARKET" := hMarket
    have hMarket₂ : (msg.part t₂).toOrder.orderType = "MARKET" := hMarket
    have hBase : (∀ d, moved refund d = moved (refund₁ ++ refund₂) d) ↔
        paidBack s market (q₁ + q₂) new =
          paidBack s market q₁ new₁ + paidBack s₁' market q₂ new₂ := by
      simp only [moved_append, hOnce.repaid, hFirst.repaid, hSecond.repaid, if_pos hMarket,
        if_pos hMarket₁, if_pos hMarket₂, ← paid_add]
      refine ⟨fun h => ?_, fun h d => by rw [h]⟩
      have hAt := h market.baseDenom
      rwa [paid, paid, if_pos rfl, if_pos rfl] at hAt
    obtain ⟨hQty, hQuote⟩ := sums_of_levels (filledAt_split hOnce.toAllocated
      hFirst.toAllocated hQuiet hSecond.toAllocated hKeyed hKeyed₁ hq₂.le)
    rw [List.map_append, List.sum_append] at hQty hQuote
    have hDrain : drain market new = drain market new₁ + drain market new₂ := by
      rw [drain, hQuote, paid_add]
      rfl
    have hTraded := hOnce.traded_qty
    have hTraded₁ : (new₁.map Fill.qty).sum = min q₁ (k.onOffer s msg.toOrder) :=
      hFirst.traded_qty
    have hHeld : s₁'.bank.held market.baseDenom = s.bank.held market.baseDenom +
        (q₁ - (new₁.map Fill.qty).sum) - drain market new₁ - paidBack s market q₁ new₁ :=
      (congrArg (fun b => Bank.held b market.baseDenom) hQuiet.bank).trans (hFirst.held hMarket₁)
    -- a first part that is not met in full takes all there is
    have hWorth : k.onOffer s msg.toOrder ≤ q₁ →
        drain market new₁ =
          paid market.quoteDenom (k.offerWorth s msg.toOrder) market.baseDenom ∧
        drain market new₁ + drain market new₂ =
          paid market.quoteDenom (k.offerWorth s msg.toOrder) market.baseDenom := by
      intro hLess
      have hWorth₁ : (new₁.map fun g => g.qty * g.price).sum = k.offerWorth s msg.toOrder :=
        hFirst.traded_worth hLess
      rw [← hDrain, drain, drain, hWorth₁, hOnce.traded_worth (by omega)]
      exact ⟨rfl, rfl⟩
    rw [hBase, refundable_iff hMarket, paidBack, hDrain, hQty]
    rw [hQty] at hTraded
    exact payable_add hTraded₁ hTraded hq₂ hWorth hHeld (s₁'.bank.held_nonneg market.baseDenom)
  · refine ⟨fun _ hIs => absurd hIs hMarket, fun _ d => ?_⟩
    rw [moved_append, hOnce.repaid, hFirst.repaid, hSecond.repaid, if_neg hMarket]
    show 0 = (if msg.toOrder.orderType = "MARKET" then _ else 0) +
      if msg.toOrder.orderType = "MARKET" then _ else 0
    rw [if_neg hMarket, if_neg hMarket, Int.add_zero]

/-- An order for two quantities together: a limit order at a positive price, or a market
ask. -/
structure Splits (k : Keeper) (msg : MsgPlaceOrder) (t₁ t₂ : String) (q₁ q₂ : Int) : Prop where
  side : msg.side = "BUY" ∨ msg.side = "SELL"
  price : k.Positive msg.price ∨ msg.side = "SELL" ∧ msg.price = "0"
  first : k.sdk.newIntFromString t₁ = some q₁ ∧ 0 < q₁
  second : k.sdk.newIntFromString t₂ = some q₂ ∧ 0 < q₂
  whole : k.sdk.newIntFromString msg.quantity = some (q₁ + q₂)

/-- The whole and both parts are proper orders. -/
theorem Splits.proper (hLaw : k.sdk.Lawful) (h : Splits k msg t₁ t₂ q₁ q₂) :
    Proper k msg ∧ Proper k (msg.part t₁) ∧ Proper k (msg.part t₂) := by
  have hPrice : ∃ p, k.sdk.newIntFromString msg.price = some p ∧ 0 ≤ p := by
    rcases h.price with ⟨p, hp, hPos⟩ | ⟨-, hZero⟩
    · exact ⟨p, hp, hPos.le⟩
    · exact ⟨0, by rw [hZero, hLaw.newInt_zero], le_refl 0⟩
  have hBid : msg.side = "BUY" → k.Positive msg.price := by
    intro hBuy
    refine h.price.resolve_right ?_
    rintro ⟨hSell, -⟩
    exact absurd (hBuy.symm.trans hSell) (by decide)
  have hWhole : 0 < q₁ + q₂ := Int.add_pos h.first.2 h.second.2
  exact ⟨⟨⟨h.side, ⟨_, h.whole, hWhole⟩, hPrice⟩, hBid⟩,
    ⟨⟨h.side, ⟨_, h.first⟩, hPrice⟩, hBid⟩, ⟨⟨h.side, ⟨_, h.second⟩, hPrice⟩, hBid⟩⟩

end Split

-- ---------------------------------------------------------------------------
-- Runs of orders
-- ---------------------------------------------------------------------------

/-- A run of well-formed orders under fresh ids, in any markets. -/
structure OrderRun (k : Keeper) (start : State) (ops : List Op) : Prop where
  opening : Opening start
  op : ∀ op ∈ ops, RegularOp k op
  fresh : (Run.trace k.step (k.accepted orderIds) start ops).Nodup

/-- In a run that has placed the orders `ids`, orders and entries agree. -/
theorem agree_step (hLaw : k.sdk.Lawful) {ids : List String} {s : State} {op : Op}
    (hOp : RegularOp k op) (hNodup : (ids ++ k.accepted orderIds s op).Nodup)
    (h : Agree k s ∧ ∀ id ∈ s.order, id ∈ ids) :
    Agree k (k.step s op) ∧
      ∀ id ∈ (k.step s op).order, id ∈ ids ++ k.accepted orderIds s op := by
  obtain ⟨hAgree, hIds⟩ := h
  have hPurge : ∀ (new : List String) (limit : Nat),
      Agree k (Keeper.batchCleanFilledOrders s limit).1 ∧
        ∀ id ∈ (Keeper.batchCleanFilledOrders s limit).1.order, id ∈ ids ++ new :=
    fun new limit => ⟨hAgree.purges hLaw limit,
      fun id hid => List.mem_append_left _ (hIds id (purge_mem_order s limit id hid))⟩
  revert hNodup
  refine step_accepted (P := fun new s' => (ids ++ new).Nodup →
    Agree k s' ∧ ∀ id ∈ s'.order, id ∈ ids ++ new) op ?_ ?_ ?_
  · exact fun _ => ⟨hAgree, fun id hid => List.mem_append_left _ (hIds id hid)⟩
  · rintro ctx msg s' r rfl hHandle hNodup
    cases handle_effect hHandle with
    | rejected => exact ⟨hAgree, fun id hid => List.mem_append_left _ (hIds id hid)⟩
    | registerPairs =>
      exact ⟨hAgree.of_stores rfl rfl, fun id hid => List.mem_append_left _ (hIds id hid)⟩
    | cleanOrders limit => exact hPurge _ limit
    | @placeOrder _ msg market quantity coins bank _ hPlaced =>
      have hFresh : msg.orderId ctx.height ∉ s.order := fun hid =>
        (List.nodup_append.mp hNodup).2.2 _ (hIds _ hid) _ (List.mem_singleton_self _) rfl
      refine ⟨(hAgree.placed hLaw hOp hFresh hPlaced).1, ?_⟩
      intro id hid
      rcases (matchOrders_mem_order hLaw hPlaced.matched).mp hid with rfl | hOld
      · exact List.mem_append_right _ (List.mem_singleton_self _)
      · exact List.mem_append_left _ (hIds id hOld)
    | _ => exact hOp.elim
  · rintro rfl -
    exact hPurge _ 5

/-- Every run of orders ends with orders and book in agreement. -/
theorem OrderRun.agree (hLaw : k.sdk.Lawful) {start : State} {ops : List Op}
    (h : OrderRun k start ops) : Agree k (Run.exec k.step start ops) := by
  let P : List String → State → Prop := fun ids s => Agree k s ∧ ∀ id ∈ s.order, id ∈ ids
  have hStep : ∀ ids s op, RegularOp k op → (ids ++ k.accepted orderIds s op).Nodup → P ids s →
      P (ids ++ k.accepted orderIds s op) (k.step s op) :=
    fun _ _ _ hOp hNodup hState => agree_step hLaw hOp hNodup hState
  have hStart : P [] start := ⟨h.opening.trading.agree, (h.opening.trading (k := k)).stored⟩
  exact (Run.exec_history (P := P) (fun _ _ => List.Nodup.of_append_left) hStep
    (Run.steps_of_forall h.op) h.fresh hStart).1

/-- What the bids of a market are worth is part of what the book is owed. -/
theorem Agree.offerWorth_le (h : Agree k s) {msg : MsgPlaceOrder} {market : Market}
    (hListed : s.market[msg.marketId]? = some market) (hSell : msg.side = "SELL") :
    k.offerWorth s msg.toOrder ≤ owes k market.quoteDenom s := by
  have hOne : ∀ e ∈ k.makers s msg.toOrder,
      k.openQty s e * k.priceOf s e = weigh (owed k market.quoteDenom) s e := by
    intro e he
    obtain ⟨hStored, hMarket, hSide, -⟩ := h.keyed.mem_makers.mp he
    obtain ⟨o, q, r, ho, -, -, hLive, hPos⟩ := h.maker hStored
    obtain ⟨p, hp, h0⟩ := hLive.price
    have hBid : e.side = "BUY" := by
      rw [hSide]
      show Keeper.targetSide msg.side = "BUY"
      rw [hSell]
      rfl
    have hMarket' : s.market[e.marketId]? = some market := by
      rw [hMarket]
      exact hListed
    have hMaker : makerOf s e = o := by rw [makerOf, ho, Option.getD_some]
    rw [weigh_eq ho hMarket', owed, Keeper.openQty, Keeper.priceOf, hMaker, hBid,
      Keeper.value_eq hp, Keeper.value_eq hLive.remaining]
    show _ = paid market.quoteDenom (max 0 (p * _)) market.quoteDenom
    rw [paid, if_pos rfl, Int.max_eq_right (Int.mul_nonneg h0 hPos.le), Int.mul_comm]
  rw [Keeper.offerWorth, List.map_congr_left hOne, owes, bookTotal, Store.total]
  have hSub : (k.makers s msg.toOrder).Sublist (s.orderbook.toList.map Prod.snd) :=
    List.filter_sublist
  have hLe := (hSub.map (weigh (owed k market.quoteDenom) s)).sum_le_sum (by
    intro x hx
    obtain ⟨e, -, rfl⟩ := List.mem_map.mp hx
    exact weigh_nonneg (owed_nonneg _) e)
  rwa [List.map_map] at hLe

/-- A module that can deliver what the book is owed can pay the refunds. -/
theorem Orderly.refundable (hLaw : k.sdk.Lawful) (h : Orderly k s) {msg : MsgPlaceOrder}
    {market : Market} (hMsg : Proper k msg) (hListed : s.market[msg.marketId]? = some market)
    (q₁ : Int) : Refundable k s msg market q₁ := by
  intro hMarket hSame _
  rw [hSame]
  exact (h.agree.offerWorth_le hListed (hMsg.sell_of_market hLaw hMarket)).trans
    (h.solvent.funds market.quoteDenom)

/-- **Splitting an order gains nothing but a refund.** After a run of well-formed orders, in
any markets, an order and the two orders that make up its quantity, the second of them at a
later height, fill the same in total and at every price level, move the same coins from the
makers and to them, and leave the same at rest. They get the same refunded exactly when the
order is `Refundable`, as it is after any run without market bids in which the markets keep
their denoms. -/
theorem split_gains_nothing_iff (hLaw : k.sdk.Lawful) {start s s' s₁ s₂ : State} {ops : List Op}
    (hRun : OrderRun k start ops) (hReached : s = Run.exec k.step start ops)
    {msg : MsgPlaceOrder} {t₁ t₂ : String} {q₁ q₂ : Int} (hSplits : Splits k msg t₁ t₂ q₁ q₂)
    {ctx ctx₁ ctx₂ : Context} (hLater : ctx₁.height < ctx₂.height)
    (hFresh : ∀ c ∈ [ctx, ctx₁, ctx₂], msg.orderId c.height ∉ s.order) {r r₁ r₂ : Response}
    (hOnce : k.handle ctx s (.placeOrder msg) = .ok (s', r))
    (hFirst : k.handle ctx₁ s (.placeOrder (msg.part t₁)) = .ok (s₁, r₁)) (blocks : Nat)
    (hSecond : k.handle ctx₂ (Run.exec k.step s₁ (.replicate blocks .endBlock))
      (.placeOrder (msg.part t₂)) = .ok (s₂, r₂)) :
    ∃ market new refund new₁ refund₁ new₂ refund₂, s.market[msg.marketId]? = some market ∧
      Outcome k ctx msg s s' new refund ∧
      Outcome k ctx₁ (msg.part t₁) s s₁ new₁ refund₁ ∧
      Outcome k ctx₂ (msg.part t₂) (Run.exec k.step s₁ (.replicate blocks .endBlock)) s₂
        new₂ refund₂ ∧
      SameTrades k msg s' s₂ (msg.orderId ctx.height) (msg.orderId ctx₁.height)
        (msg.orderId ctx₂.height) new (new₁ ++ new₂) ∧
      (SameDeal k msg s' s₂ (msg.orderId ctx.height) (msg.orderId ctx₁.height)
          (msg.orderId ctx₂.height) new (new₁ ++ new₂) refund (refund₁ ++ refund₂) ↔
        Refundable k s msg market q₁) ∧
      (Run.Steps k.step (TradingOp k) start ops → Refundable k s msg market q₁) := by
  have hAgree : Agree k s := hReached ▸ hRun.agree hLaw
  obtain ⟨hMsg, hMsg₁, hMsg₂⟩ := hSplits.proper hLaw
  obtain ⟨-, market, quantity, coins, bank, hPlaced⟩ := placeOrder_eq_ok hOnce
  obtain ⟨-, market₁, quantity₁, coins₁, bank₁, hPlaced₁⟩ := placeOrder_eq_ok hFirst
  obtain ⟨-, market₂, quantity₂, coins₂, bank₂, hPlaced₂⟩ := placeOrder_eq_ok hSecond
  have hNew₁ : (msg.part t₁).orderId ctx₁.height ∉ s.order := hFresh ctx₁ (by simp)
  have hAgree₁ := (hAgree.placed hLaw hMsg₁.toRegular hNew₁ hPlaced₁).1
  obtain ⟨hAgree₁', hQuiet⟩ := hAgree₁.endBlocks hLaw blocks
  generalize Run.exec k.step s₁ (.replicate blocks .endBlock) = s₁' at *
  have hApart : (msg.part t₂).orderId ctx₂.height ≠ (msg.part t₁).orderId ctx₁.height := by
    intro hId
    have hHeight := (orderIdOf_inj rfl hId).2.1
    omega
  have hNew₂ : (msg.part t₂).orderId ctx₂.height ∉ s₁'.order := by
    intro hIn
    rcases (matchOrders_mem_order hLaw hPlaced₁.matched).mp (hQuiet.fewer _ hIn) with hId | hOld
    · exact hApart hId
    · exact hFresh ctx₂ (by simp) hOld
  obtain rfl : market₁ = market :=
    Option.some.inj (hPlaced₁.listed.symm.trans hPlaced.listed)
  have hListed₂ := hPlaced₂.listed
  rw [hQuiet.market, hPlaced₁.frame.1] at hListed₂
  obtain rfl : market₂ = market₁ := Option.some.inj (hListed₂.symm.trans hPlaced.listed)
  obtain rfl : quantity = q₁ + q₂ := Option.some.inj (hPlaced.parsed.symm.trans hSplits.whole)
  obtain rfl : quantity₁ = q₁ := Option.some.inj (hPlaced₁.parsed.symm.trans hSplits.first.1)
  obtain rfl : quantity₂ = q₂ := Option.some.inj (hPlaced₂.parsed.symm.trans hSplits.second.1)
  obtain ⟨f, new, refund, hDeal⟩ := hAgree.deal hLaw hMsg (hFresh ctx (by simp)) hPlaced
  obtain ⟨f₁, new₁, refund₁, hDeal₁⟩ := hAgree.deal hLaw hMsg₁ hNew₁ hPlaced₁
  obtain ⟨f₂, new₂, refund₂, hDeal₂⟩ := hAgree₁'.deal hLaw hMsg₂ hNew₂ hPlaced₂
  have hKept : unfilled k s₂ (msg.orderId ctx₁.height) =
      unfilled k s₁ (msg.orderId ctx₁.height) := by
    obtain ⟨left, status, hStored⟩ := hPlaced₁.stored
    refine unfilled_kept hLaw hAgree₁ hStored rfl hQuiet hDeal₂.toAllocated ?_
    intro hGone hIn
    rcases (matchOrders_mem_order hLaw hPlaced₂.matched).mp hIn with hId | hOld
    · exact hApart hId.symm
    · exact hGone hOld
  have hTrades := sameTrades hDeal hDeal₁ hQuiet hDeal₂ hAgree.keyed hAgree₁.keyed
    hSplits.second.2.le hKept
  have hRefunds := refunds_iff hDeal hDeal₁ hQuiet hDeal₂ hAgree.keyed hAgree₁.keyed
    hSplits.second.2
  refine ⟨market₂, new, refund, new₁, refund₁, new₂, refund₂, hPlaced.listed, hDeal.outcome,
    hDeal₁.outcome, hDeal₂.outcome, hTrades, ?_, ?_⟩
  · exact ⟨fun hSame => hRefunds.mp hSame.refunded, fun hCan => ⟨hTrades, hRefunds.mpr hCan⟩⟩
  · intro hTrading
    have hOrderly := (trading_run hLaw hTrading hRun.fresh hRun.opening.trading).toOrderly
    exact (hReached ▸ hOrderly).refundable hLaw hMsg hPlaced.listed _

section Sample

open Ganc.Dex.Sample Ganc.Sample

/-- Alice asks 4 for nine and 5 for two more. -/
def asksTwice : List Op := aliceAsks ++ [place 3 alice "SELL" "5" "2"]

/-- Bob bids 6 for ten, or for seven and then for three: either way he takes the nine and
one of the two. -/
theorem split_gains_nothing_iff_sample : ∃ s' s₂ new fills refund refunds,
    SameDeal keeper (order bob "BUY" "6" "10") s' s₂ "uatom-uusdt-4-cosmos"
      "uatom-uusdt-4-cosmos" "uatom-uusdt-5-cosmos" new fills refund refunds := by
  have hRun : OrderRun keeper (State.empty bank) asksTwice :=
    ⟨opening_empty bank, by decide +kernel, by decide +kernel⟩
  have hSplits : Splits keeper (order bob "BUY" "6" "10") "7" "3" 7 3 := by
    refine ⟨?_, ?_, ?_, ?_, ?_⟩ <;> decide +kernel
  obtain ⟨⟨s', r⟩, hOnce⟩ := Result.exists_of_isOk (x := keeper.handle (block 4)
    (keeper.reach bank asksTwice) (.placeOrder (order bob "BUY" "6" "10"))) (by decide +kernel)
  obtain ⟨⟨s₁, r₁⟩, hFirst⟩ := Result.exists_of_isOk (x := keeper.handle (block 4)
    (keeper.reach bank asksTwice) (.placeOrder (order bob "BUY" "6" "7"))) (by decide +kernel)
  have hReached : s₁ = keeper.reach bank (asksTwice ++ [place 4 bob "BUY" "6" "7"]) := by
    rw [Keeper.reach, Run.exec_append, Run.exec_cons, Run.exec_nil, place, step_of_ok hFirst]
  have hThen : (keeper.handle (block 5) s₁
      (.placeOrder (order bob "BUY" "6" "3"))).isOk = true := by
    rw [hReached]
    decide +kernel
  obtain ⟨⟨s₂, r₂⟩, hSecond⟩ := Result.exists_of_isOk hThen
  obtain ⟨market, new, refund, new₁, refund₁, new₂, refund₂, -, -, -, -, -, hIff, -⟩ :=
    split_gains_nothing_iff Sdk.sample_lawful hRun rfl hSplits (by decide)
      (by decide +kernel) hOnce hFirst 0 hSecond
  -- a limit order has nothing refunded
  have hLimit : orderTypeOf "6" ≠ "MARKET" := by decide
  exact ⟨s', s₂, new, new₁ ++ new₂, refund, refund₁ ++ refund₂,
    hIff.mpr fun hMarket => absurd hMarket hLimit⟩

/-- An order in the market of `uatom` against itself. -/
def placeOwn (height : Nat) (creator side price quantity : String) : Op :=
  .deliver (block height) (.placeOrder ⟨creator, "uatom-uatom", side, price, quantity⟩)

/-- Bob bids 2 for one, and Carol's market bid takes one of Alice's asks at 3 out of his
escrow. -/
def spentEscrow : List Op :=
  [register carol "uatom" "uatom", placeOwn 2 bob "BUY" "2" "1", placeOwn 3 alice "SELL" "3" "2",
    placeOwn 4 carol "BUY" "0" "1"]

/-- **Splitting gains a refund.** Alice sells five at the market. Bob's bid takes one, and the
two coins it pays are taken out of the five: of the four that are left nothing is paid
back. When she sells three and then two, the two come back to her. -/
theorem split_gains_refund :
    OrderRun keeper (State.empty bank) spentEscrow ∧
    Splits keeper ⟨alice, "uatom-uatom", "SELL", "0", "5"⟩ "3" "2" 3 2 ∧
    (keeper.reach bank (spentEscrow ++ [placeOwn 5 alice "SELL" "0" "5"])).bank.log.drop 5 =
      [⟨.user (keeper.addressOf alice), .module, [⟨"uatom", 5⟩]⟩,
        release (keeper.addressOf alice) "uatom" 2, release (keeper.addressOf bob) "uatom" 1] ∧
    (keeper.reach bank (spentEscrow ++
        [placeOwn 5 alice "SELL" "0" "3", placeOwn 6 alice "SELL" "0" "2"])).bank.log.drop 5 =
      [⟨.user (keeper.addressOf alice), .module, [⟨"uatom", 3⟩]⟩,
        release (keeper.addressOf alice) "uatom" 2, release (keeper.addressOf bob) "uatom" 1,
        ⟨.user (keeper.addressOf alice), .module, [⟨"uatom", 2⟩]⟩,
        release (keeper.addressOf alice) "uatom" 2] := by
  refine ⟨⟨opening_empty bank, by decide +kernel, by decide +kernel⟩, ?_, by decide +kernel,
    by decide +kernel⟩
  refine ⟨?_, ?_, ?_, ?_, ?_⟩ <;> decide +kernel

end Sample

end Ganc.Dex
