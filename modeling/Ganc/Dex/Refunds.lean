import Ganc.Dex.BestPrice
import Ganc.Dex.Denoms
import Ganc.Dex.Escrow
import Ganc.Dex.Independence

/-!
# x/dex — where the escrow of an order goes

The account of one order over its life. Its escrow is taken once, when it is
placed, and goes three ways: to the counterparties of its fills (`spent`), back
to its creator when a market ask is cut short, and, for a limit bid that fills
below its price, nowhere (`improvement`): the module keeps the difference.

`Matched` is the account of the taker inside its own match, `Account` that of an
order in all later steps, where it is only ever a maker. `escrow_returned_iff`
puts the two together.
-/

namespace Ganc.Dex

variable {k : Keeper}

-- ---------------------------------------------------------------------------
-- What an order pays
-- ---------------------------------------------------------------------------

/-- The send of a fill to its taker: what the maker pays. -/
def Fill.toTaker (k : Keeper) (f : Fill) : Transfer :=
  if f.taker.side = "BUY" then release (k.addressOf f.taker.creator) f.market.baseDenom f.qty
  else release (k.addressOf f.taker.creator) f.market.quoteDenom (f.qty * f.price)

/-- The send of a fill to its maker: what the taker pays. -/
def Fill.toMaker (k : Keeper) (f : Fill) : Transfer :=
  if f.taker.side = "BUY" then
    release (k.addressOf f.maker.creator) f.market.quoteDenom (f.qty * f.price)
  else release (k.addressOf f.maker.creator) f.market.baseDenom f.qty

/-- A fill sends the taker's coins, then the maker's. -/
theorem Fill.transfers_eq (k : Keeper) (f : Fill) :
    f.transfers k = [f.toTaker k, f.toMaker k] := by
  unfold Fill.transfers Fill.transfersIn Fill.toTaker Fill.toMaker
  split <;> rfl

/-- The taker gets the base coins it buys, or their price. -/
theorem Fill.toTaker_coins {f : Fill} (hQty : 0 ≤ f.qty) (hQuote : 0 ≤ f.qty * f.price)
    (d : String) : (Bank.amountOf (f.toTaker k).coins d : Int) =
      if f.taker.side = "BUY" then paid f.market.baseDenom f.qty d
      else paid f.market.quoteDenom (f.qty * f.price) d := by
  unfold Fill.toTaker
  split
  · exact amountOf_release _ _ d hQty
  · exact amountOf_release _ _ d hQuote

/-- The maker gets the other coin. -/
theorem Fill.toMaker_coins {f : Fill} (hQty : 0 ≤ f.qty) (hQuote : 0 ≤ f.qty * f.price)
    (d : String) : (Bank.amountOf (f.toMaker k).coins d : Int) =
      if f.taker.side = "BUY" then paid f.market.quoteDenom (f.qty * f.price) d
      else paid f.market.baseDenom f.qty d := by
  unfold Fill.toMaker
  split
  · exact amountOf_release _ _ d hQuote
  · exact amountOf_release _ _ d hQty

/-- What a fill pays to the counterparties of an order. -/
def Fill.paidFor (k : Keeper) (id d : String) (f : Fill) : Int :=
  (if f.makerId = id then (Bank.amountOf (f.toTaker k).coins d : Int) else 0) +
    if f.takerId = id then (Bank.amountOf (f.toMaker k).coins d : Int) else 0

/-- What all fills so far have paid to the counterparties of an order. -/
def spent (k : Keeper) (s : State) (id d : String) : Int :=
  (s.fills.map (Fill.paidFor k id d)).sum

/-- What an order at rest still has in escrow, at the denoms of its market. -/
def unspent (k : Keeper) (s : State) (id : String) (market : Market) (d : String) : Int :=
  s.order[id]?.elim 0 fun o =>
    if o.status = "PARTIAL" then share o.side (k.value o.price) (k.value o.remaining) market d
    else 0

/-- A proper order pays for what it asks. -/
theorem Proper.paying (hLaw : k.sdk.Lawful) {msg : MsgPlaceOrder} (h : Proper k msg) :
    Paying k msg.toOrder := by
  rcases h.side with hBuy | hSell
  · exact .inr ⟨hBuy, (h.bid hBuy).limit hLaw, h.bid hBuy⟩
  · exact .inl hSell

section Trade

variable {taker : Order} {takerId : String} {market : Market} {entry : Orderbook}
variable {rem left r p n : Int} {s s' : State} {maker : Order}

/-- The maker pays its share of the filled quantity. -/
theorem Filled.maker_pays (h : Filled k taker takerId market entry rem s maker r p n left s')
    (hPaying : Paying k taker) (hComp : Compatible k taker entry) (d : String) :
    (Bank.amountOf (Fill.toTaker k
      ⟨takerId, entry.orderId, taker, maker, market, n, p⟩).coins d : Int) =
      share entry.side p n market d := by
  rw [Fill.toTaker_coins h.qty_nonneg h.quote_nonneg, hComp.side]
  show (if taker.side = "BUY" then paid market.baseDenom n d
    else paid market.quoteDenom (n * p) d) = _
  rcases hPaying with hSell | ⟨hBuy, -, -⟩
  · rw [if_neg (by rw [hSell]; decide), hSell, show Keeper.targetSide "SELL" = "BUY" from rfl,
      share_bid, Int.mul_comm]
  · rw [if_pos hBuy, hBuy]
    rfl

/-- The taker pays its share, up to what it trades better than its limit. -/
theorem Filled.taker_pays (h : Filled k taker takerId market entry rem s maker r p n left s')
    (hPaying : Paying k taker) (d : String) :
    (Bank.amountOf (Fill.toMaker k
      ⟨takerId, entry.orderId, taker, maker, market, n, p⟩).coins d : Int) +
      improvement k d ⟨takerId, entry.orderId, taker, maker, market, n, p⟩ =
      share taker.side (k.value taker.price) n market d := by
  rw [Fill.toMaker_coins h.qty_nonneg h.quote_nonneg, improvement]
  show (if taker.side = "BUY" then paid market.quoteDenom (n * p) d
    else paid market.baseDenom n d) + (if taker.side = "BUY" ∧ taker.orderType = "LIMIT" then
      paid market.quoteDenom ((k.value taker.price - p) * n) d else 0) = _
  rcases hPaying with hSell | ⟨hBuy, hType, -⟩
  · have hNot : taker.side ≠ "BUY" := by
      rw [hSell]
      decide
    rw [if_neg hNot, if_neg fun hIs => hNot hIs.1, hSell, share_ask, Int.add_zero]
  · rw [if_pos hBuy, if_pos ⟨hBuy, hType⟩, hBuy, share_bid, Int.sub_mul, paid_sub,
      Int.mul_comm p n]
    omega

end Trade

-- ---------------------------------------------------------------------------
-- The account of a taker
-- ---------------------------------------------------------------------------

section Match

variable {msg : MsgPlaceOrder} {takerId : String} {market : Market} {quantity left : Int}
variable {s s' s₀ : State} {cs rest : List Orderbook} {bank : Bank} {new : List Fill}

/-- The match of an order placed in `s₀` over the candidates `cs`, after the fills `new`
and before the candidates `rest`. -/
structure Matched (k : Keeper) (msg : MsgPlaceOrder) (takerId : String) (market : Market)
    (quantity : Int) (s₀ : State) (bank : Bank) (cs rest : List Orderbook) (rem : Int) (s : State)
    (new : List Fill) : Prop extends Midway k msg market quantity s₀ rest rem s where
  positive : 0 < quantity
  fills : s.fills = s₀.fills ++ new
  own : ∀ f ∈ new, f.takerId = takerId ∧ f.taker = msg.toOrder ∧ f.makerId ∈ s₀.order ∧
    0 ≤ f.qty
  priced : ∀ f ∈ new, ∃ e ∈ s₀.entries, Compatible k msg.toOrder e ∧
    k.sdk.newIntFromString e.price = some f.price
  sent : bank.sendAll (new.flatMap (Fill.transfers k)) = .ok s.bank
  /-- The first fill is with the first candidate. -/
  first : match new with
    | [] => rest = cs ∧ rem = quantity
    | f :: _ => 0 < f.qty ∧ ∃ e ∈ cs.head?, k.sdk.newIntFromString e.price = some f.price
  account : ∀ d, share msg.side (k.value msg.price) quantity market d =
    (new.map (Fill.paidFor k takerId d)).sum + (new.map (improvement k d)).sum +
      share msg.side (k.value msg.price) rem market d

/-- One more fill is accounted for. -/
theorem Matched.next (hLaw : k.sdk.Lawful) (hMsg : Proper k msg) (hFresh : takerId ∉ s₀.order)
    {entry : Orderbook} {rem r p n : Int} {maker : Order} (hRem : rem ≠ 0)
    (hFilled : Filled k msg.toOrder takerId market entry rem s maker r p n left s')
    (h : Matched k msg takerId market quantity s₀ bank cs (entry :: rest) rem s new) :
    Matched k msg takerId market quantity s₀ bank cs rest left s'
      (new ++ [⟨takerId, entry.orderId, msg.toOrder, maker, market, n, p⟩]) := by
  have hPaying := hMsg.paying hLaw
  have hComp := h.compatible entry (List.mem_cons_self ..)
  have hEntry := h.pending.head
  have hMaker : entry.orderId ∈ s₀.order :=
    (h.keys _).mp (Store.mem_iff.mpr ⟨maker, hFilled.maker_stored hLaw⟩)
  obtain ⟨o, q, r', ho, -, he, hLive, hOpen⟩ := h.agree.maker hEntry
  obtain rfl : o = maker := Option.some.inj (ho.symm.trans (hFilled.maker_stored hLaw))
  obtain rfl : r' = r := Option.some.inj (hLive.remaining.symm.trans hFilled.remaining)
  have hPrice : k.sdk.newIntFromString entry.price = some p := by
    rw [he]
    exact hFilled.price
  have hQty := hFilled.qty
  refine ⟨h.toMidway.next hLaw hRem hFilled, h.positive, ?_, ?_, ?_, ?_, ?_, ?_⟩
  · rw [hFilled.fills, h.fills, List.append_assoc]
  · intro f hf
    rcases List.mem_append.mp hf with hf | hf
    · exact h.own f hf
    · obtain rfl := List.mem_singleton.mp hf
      exact ⟨rfl, rfl, hMaker, hFilled.qty_nonneg⟩
  · intro f hf
    rcases List.mem_append.mp hf with hf | hf
    · exact h.priced f hf
    · obtain rfl := List.mem_singleton.mp hf
      exact ⟨entry, mem_entries.mpr ⟨_, h.book _ _ hEntry⟩, hComp, hPrice⟩
  · rw [List.flatMap_append, Bank.sendAll_append_eq_ok]
    refine ⟨s.bank, h.sent, ?_⟩
    rw [List.flatMap_singleton]
    exact hFilled.sent
  · have hFirst := h.first
    cases new with
    | nil =>
      obtain ⟨rfl, rfl⟩ := hFirst
      have hPos := h.positive
      exact ⟨show 0 < n by omega, entry, rfl, hPrice⟩
    | cons f new => exact hFirst
  · intro d
    have hTaker := hFilled.taker_pays hPaying d
    have hLeft := share_sub msg.side (k.value msg.price) rem n market d
    have hPaid : Fill.paidFor k takerId d
        ⟨takerId, entry.orderId, msg.toOrder, o, market, n, p⟩ =
        (Bank.amountOf (Fill.toMaker k
          ⟨takerId, entry.orderId, msg.toOrder, o, market, n, p⟩).coins d : Int) := by
      have hOther : entry.orderId ≠ takerId := by
        rintro hEq
        exact hFresh (hEq ▸ hMaker)
      rw [Fill.paidFor, if_neg hOther, if_pos rfl, Int.zero_add]
    have hAccount := h.account d
    rw [List.map_append, List.map_append, List.sum_append, List.sum_append, List.map_singleton,
      List.map_singleton, List.sum_singleton, List.sum_singleton, hPaid, hFilled.left_eq, hLeft]
    have hTaker' : _ = share msg.side (k.value msg.price) n market d := hTaker
    omega

/-- What is left to fill at the end of the match goes back to the creator or stays with
the order. -/
theorem Matched.finish (hLaw : k.sdk.Lawful) (hMsg : Proper k msg)
    (hParsed : k.sdk.newIntFromString msg.quantity = some quantity)
    (h : Matched k msg takerId market quantity s₀ bank cs rest left s new)
    (hEnd : Finalized k msg.toOrder takerId market left s s') :
    ∃ refund, RefundOf k msg.toOrder market refund ∧
      bank.sendAll (new.flatMap (Fill.transfers k) ++ refund) = .ok s'.bank ∧
      ∀ d, share msg.side (k.value msg.price) left market d =
        moved refund d + unspent k s' takerId market d := by
  have hNone : bank.sendAll (new.flatMap (Fill.transfers k) ++ []) = .ok s.bank := by
    rw [List.append_nil, h.sent]
  cases hEnd with
  | filled hLeft =>
    refine ⟨[], .inl rfl, hNone, ?_⟩
    intro d
    rw [hLeft, share_zero, unspent, Std.ExtTreeMap.getElem?_insert_self]
    rfl
  | cancelled hne hMarket bank' hRefund =>
    have hSell := hMsg.sell_of_market hLaw hMarket
    have hPaid := handleRefund_paid hRefund hne hSell (h.refundable hSell)
    have h0 : 0 ≤ left := (payOut_eq_ok (handleRefund_pays hRefund hne hSell
      (h.refundable hSell))).1
    refine ⟨_, .inr ⟨hMarket, left, rfl⟩, Bank.sendAll_append_eq_ok.mpr ⟨_, h.sent, hPaid⟩, ?_⟩
    intro d
    rw [hSell, share_ask, unspent, Std.ExtTreeMap.getElem?_insert_self, moved, List.map_singleton,
      List.sum_singleton, amountOf_release _ _ d h0]
    exact (Int.add_zero _).symm
  | resting hne hLimit =>
    refine ⟨[], .inl rfl, hNone, ?_⟩
    intro d
    rw [unspent, Std.ExtTreeMap.getElem?_insert_self]
    show _ = 0 + share msg.side (k.value msg.price) (k.value (toString left)) market d
    rw [Keeper.value_eq (hLaw.newInt_toString (h.fits hLaw hParsed)), Int.zero_add]

/-- A bid finds no ask of its market below its own price. -/
def NoCheaperAsk (k : Keeper) (s : State) (msg : MsgPlaceOrder) : Prop :=
  msg.side = "BUY" → ∀ e ∈ s.entries, e.marketId = msg.marketId → e.side = "SELL" →
    k.value msg.price ≤ k.value e.price

instance (s : State) (msg : MsgPlaceOrder) : Decidable (NoCheaperAsk k s msg) := by
  unfold NoCheaperAsk
  infer_instance

/-- No fill is at a worse price than the taker's. -/
theorem Matched.improvement_nonneg (hLaw : k.sdk.Lawful) (hMsg : Proper k msg)
    (h : Matched k msg takerId market quantity s₀ bank cs rest left s new) {f : Fill}
    (hf : f ∈ new) (d : String) : 0 ≤ improvement k d f := by
  obtain ⟨e, -, hComp, hPrice⟩ := h.priced f hf
  obtain ⟨-, hTaker, -, hQty⟩ := h.own f hf
  unfold improvement
  split
  next hBuy =>
    rw [hTaker] at hBuy ⊢
    have hle := hComp.price_le (hMsg.paying hLaw) hBuy.1 hPrice
    exact paid_nonneg d (Int.mul_nonneg (Int.sub_nonneg.mpr hle) hQty)
  next => exact le_refl 0

/-- A bid leaves something with the module if an ask of its market is below its price: the
match begins with the lowest. -/
theorem Matched.gain_of_cheaper (hLaw : k.sdk.Lawful) (hMsg : Proper k msg) (hAgree : Agree k s₀)
    (hMem : ∀ e, e ∈ cs ↔ e ∈ s₀.entries ∧ Compatible k msg.toOrder e)
    (hSorted : cs.Pairwise (k.Ranked (Keeper.targetSide msg.side)))
    (h : Matched k msg takerId market quantity s₀ bank cs rest left s new)
    (hOver : left = 0 ∨ rest = []) (hBuy : msg.side = "BUY") {e : Orderbook}
    (he : e ∈ s₀.entries) (hMarket : e.marketId = msg.marketId) (hAsk : e.side = "SELL")
    (hCheap : k.value e.price < k.value msg.price) :
    ∃ d, 0 < (new.map (improvement k d)).sum := by
  obtain ⟨limit, hLimit, -⟩ := hMsg.bid hBuy
  obtain ⟨kk, hStored⟩ := mem_entries.mp he
  obtain ⟨-, o, ho, -, hEntry⟩ := hAgree.entry kk e hStored
  obtain ⟨q, r, hLive⟩ := hAgree.order _ o ho
  obtain ⟨p, hp, -⟩ := hLive.price
  have hPrice : k.sdk.newIntFromString e.price = some p := by
    rw [hEntry]
    exact hp
  rw [Keeper.value_eq hLimit, Keeper.value_eq hPrice] at hCheap
  have hTarget : Keeper.targetSide msg.side = "SELL" := by rw [hBuy]; rfl
  have hComp : Compatible k msg.toOrder e := by
    refine Compatible.of_within hMarket (hAsk.trans hTarget.symm) hPrice
      (.inr ⟨limit, hLimit, ?_⟩)
    exact ⟨fun _ => hCheap.le, fun hSell => absurd (hSell.symm.trans hBuy) (by decide)⟩
  have hCandidate := (hMem e).mpr ⟨he, hComp⟩
  have hFirst := h.first
  cases new with
  | nil =>
    obtain ⟨rfl, rfl⟩ := hFirst
    have hPos := h.positive
    rcases hOver with hZero | hEmpty
    · omega
    · rw [hEmpty] at hCandidate
      cases hCandidate
  | cons f new =>
    obtain ⟨hQty, c, hHead, hFirst⟩ := hFirst
    obtain ⟨cs', rfl⟩ : ∃ cs', cs = c :: cs' := List.head?_eq_some_iff.mp hHead
    -- no candidate comes before one with a lower price
    have hLe : f.price ≤ p := by
      rcases List.mem_cons.mp hCandidate with rfl | hLater
      · exact (Option.some.inj (hFirst.symm.trans hPrice)).le
      · have hRanked := List.rel_of_pairwise_cons hSorted hLater
        rw [Keeper.Ranked, hTarget, if_neg (by decide), Keeper.rank, Keeper.rank, hFirst,
          hPrice] at hRanked
        exact hRanked
    have hGain : 0 < improvement k f.market.quoteDenom f := by
      have hTaker := (h.own f (List.mem_cons_self ..)).2.1
      have hBid : f.taker.side = "BUY" ∧ f.taker.orderType = "LIMIT" := by
        rw [hTaker]
        exact ⟨hBuy, (hMsg.bid hBuy).limit hLaw⟩
      rw [improvement, if_pos hBid, paid, if_pos rfl, hTaker]
      show 0 < (k.value msg.price - f.price) * f.qty
      rw [Keeper.value_eq hLimit]
      exact Int.mul_pos (by omega) hQty
    have hOthers : 0 ≤ (new.map (improvement k f.market.quoteDenom)).sum := by
      refine List.sum_nonneg ?_
      intro x hx
      obtain ⟨f', hf', rfl⟩ := List.mem_map.mp hx
      exact h.improvement_nonneg hLaw hMsg (List.mem_cons_of_mem _ hf') _
    refine ⟨f.market.quoteDenom, ?_⟩
    rw [List.map_cons, List.sum_cons]
    omega

/-- The fills of a bid leave something with the module exactly when the book has an ask
below its price. -/
theorem Matched.no_gain_iff (hLaw : k.sdk.Lawful) (hMsg : Proper k msg) (hAgree : Agree k s₀)
    (hMem : ∀ e, e ∈ cs ↔ e ∈ s₀.entries ∧ Compatible k msg.toOrder e)
    (hSorted : cs.Pairwise (k.Ranked (Keeper.targetSide msg.side)))
    (h : Matched k msg takerId market quantity s₀ bank cs rest left s new)
    (hOver : left = 0 ∨ rest = []) :
    (∀ d, (new.map (improvement k d)).sum = 0) ↔ NoCheaperAsk k s₀ msg := by
  constructor
  · intro hNone hBuy e he hMarket hAsk
    by_contra hCheap
    obtain ⟨d, hGain⟩ := h.gain_of_cheaper hLaw hMsg hAgree hMem hSorted hOver hBuy he hMarket
      hAsk (not_le.mp hCheap)
    exact absurd (hNone d) hGain.ne'
  · intro hNo d
    refine List.sum_eq_zero ?_
    intro x hx
    obtain ⟨f, hf, rfl⟩ := List.mem_map.mp hx
    obtain ⟨e, he, hComp, hPrice⟩ := h.priced f hf
    have hTaker := (h.own f hf).2.1
    unfold improvement
    split
    next hBid =>
      rw [hTaker] at hBid ⊢
      have hBuy : msg.side = "BUY" := hBid.1
      have hAsk : e.side = "SELL" := hComp.side.trans (by
        rw [show msg.toOrder.side = "BUY" from hBuy]
        rfl)
      have hle := hComp.price_le (hMsg.paying hLaw) hBid.1 hPrice
      have hge := hNo hBuy e he hComp.market hAsk
      rw [Keeper.value_eq hPrice] at hge
      have hSame : k.value msg.toOrder.price = f.price := le_antisymm hge hle
      rw [hSame, sub_self, zero_mul, paid_zero]
    next => rfl

/-- What becomes of the escrow of an order in the call that places it. -/
structure Settled (k : Keeper) (s : State) (msg : MsgPlaceOrder) (takerId : String)
    (market : Market) (coins : Coins) (bank : Bank) (s' : State) (new : List Fill)
    (refund : List Transfer) : Prop where
  fills : s'.fills = s.fills ++ new
  own : ∀ f ∈ new, f.takerId = takerId ∧ f.makerId ∈ s.order
  refunded : RefundOf k msg.toOrder market refund
  sent : bank.sendAll (new.flatMap (Fill.transfers k) ++ refund) = .ok s'.bank
  account : ∀ d, (Bank.amountOf coins d : Int) = (new.map (Fill.paidFor k takerId d)).sum +
    (new.map (improvement k d)).sum + (moved refund d + unspent k s' takerId market d)
  gain : (∀ d, (new.map (improvement k d)).sum = 0) ↔ NoCheaperAsk k s msg

/-- What the call sends: the escrow, the coins of the fills and the refund. -/
theorem Placed.log {ctx : Context} {coins : Coins} {refund : List Transfer}
    (hPlaced : Placed k ctx s msg market quantity coins bank s')
    (hSent : bank.sendAll (new.flatMap (Fill.transfers k) ++ refund) = .ok s'.bank) :
    s'.bank.log = s.bank.log ++ ⟨.user (k.addressOf msg.creator), .module, coins⟩ ::
      (new.flatMap (fun f => [f.toTaker k, f.toMaker k]) ++ refund) := by
  have hTransfers : new.flatMap (Fill.transfers k) =
      new.flatMap fun f => [f.toTaker k, f.toMaker k] :=
    congrArg (new.flatMap ·) (funext (Fill.transfers_eq k))
  rw [(Bank.sendAll_eq_ok hSent).1, (Bank.sendCoins_eq_ok.mp hPlaced.funded).2,
    hTransfers, List.append_assoc, List.singleton_append]
  rfl

/-- What a placed order has sent, and what it keeps in escrow. -/
theorem Orderly.settled (hLaw : k.sdk.Lawful) {ctx : Context} {coins : Coins}
    (h : Orderly k s) (hMsg : Proper k msg) (hFresh : msg.orderId ctx.height ∉ s.order)
    (hPlaced : Placed k ctx s msg market quantity coins bank s') :
    ∃ new refund, Settled k s msg (msg.orderId ctx.height) market coins bank s' new refund := by
  obtain ⟨fetched, cs, rem, left, s₁, hFetch, hSort, hRem, hLoop, hEnd⟩ :=
    matchOrders_stages hPlaced.matched
  obtain rfl : quantity = rem := Option.some.inj (hPlaced.parsed.symm.trans hRem)
  obtain ⟨q, hq, hPos⟩ := hMsg.quantity
  obtain rfl : q = quantity := Option.some.inj (hq.symm.trans hPlaced.parsed)
  have hStart : Matched k msg (msg.orderId ctx.height) market q s bank cs cs q
      { s with bank := bank } [] := by
    refine ⟨.start hLaw h hMsg hPlaced.toAdmitted hFetch hSort, hPos, by simp, by simp, by simp,
      rfl, ⟨rfl, rfl⟩, ?_⟩
    intro d
    rw [List.map_nil, List.map_nil, List.sum_nil, Int.zero_add, Int.zero_add]
  obtain ⟨rest, ⟨new, hDone⟩, hOver⟩ := executeLoop_induction
    (I := fun rest rem s₁ => ∃ new, Matched k msg (msg.orderId ctx.height) market q s bank cs rest
      rem s₁ new)
    (fun hRem hFilled ⟨_, hI⟩ => ⟨_, hI.next hLaw hMsg hFresh hRem hFilled⟩) hLoop ⟨[], hStart⟩
  obtain ⟨refund, hRefund, hSent, hLeft⟩ := hDone.finish hLaw hMsg hPlaced.parsed hEnd
  obtain ⟨hMem, -⟩ := sorted_candidates hFetch hSort
  refine ⟨new, refund, ?_, ?_, hRefund, hSent, ?_, ?_⟩
  · rw [hEnd.frame.2, hDone.fills]
  · intro f hf
    obtain ⟨hTaker, -, hMaker, -⟩ := hDone.own f hf
    exact ⟨hTaker, hMaker⟩
  · intro d
    rw [(escrowCoins_eq_ok hPlaced.escrow).1, escrowed_eq_share (hMsg.paying hLaw),
      hDone.account d, hLeft d]
  · exact hDone.no_gain_iff hLaw hMsg h.agree hMem (sortCandidates_pairwise hSort) hOver

end Match

-- ---------------------------------------------------------------------------
-- Steps
-- ---------------------------------------------------------------------------

/-- The operations of a run of well-formed orders; a pair that is registered again keeps
its denoms. -/
def TradingOp (k : Keeper) (s : State) : Op → Prop
  | .deliver _ (.registerPairs msg) =>
      ∀ m ∈ s.market[pairId msg.baseDenom msg.quoteDenom]?, m.SamePair msg.toMarket
  | .deliver _ (.placeOrder msg) => Proper k msg
  | .deliver _ (.cleanOrders _) => True
  | .endBlock => True
  | _ => False

instance (s : State) : DecidablePred (TradingOp k s)
  | .deliver _ (.registerPairs msg) => inferInstanceAs (Decidable
      (∀ m ∈ s.market[pairId msg.baseDenom msg.quoteDenom]?, m.SamePair msg.toMarket))
  | .deliver _ (.placeOrder msg) => inferInstanceAs (Decidable (Proper k msg))
  | .deliver _ (.cleanOrders _) | .endBlock => isTrue trivial
  | .deliver _ (.updateParams _) | .deliver _ (.createMarket _) | .deliver _ (.updateMarket _)
  | .deliver _ (.deleteMarket _) | .deliver _ (.createOrder _) | .deliver _ (.updateOrder _)
  | .deliver _ (.deleteOrder _) => isFalse id

/-- The id of a placed order. -/
def orderIds (ctx : Context) : Msg → List String
  | .placeOrder msg => [msg.orderId ctx.height]
  | _ => []

/-- A state without orders. -/
structure Opening (s : State) : Prop where
  order : s.order = ∅
  orderbook : s.orderbook = ∅
  fills : s.fills = []

/-- What holds between the messages of a run that has placed the orders `ids`. -/
structure Trading (k : Keeper) (ids : List String) (s : State) : Prop extends Orderly k s where
  listed : ∀ (kk : String) (e : Orderbook), s.orderbook[kk]? = some e →
    ∃ m, s.market[e.marketId]? = some m
  stored : ∀ id ∈ s.order, id ∈ ids
  filled : ∀ f ∈ s.fills, f.takerId ∈ ids ∧ f.makerId ∈ ids

section Step

variable {ids : List String} {s s' : State} {ctx : Context} {msg : MsgPlaceOrder} {market : Market}
variable {quantity : Int} {coins : Coins} {bank : Bank}

/-- A state without orders opens a run. -/
theorem Opening.trading (h : Opening s) : Trading k [] s := by
  have hNoOrder : ∀ id, id ∉ s.order := by
    intro id
    rw [h.order]
    simp
  have hNoEntry : ∀ (kk : String) (e : Orderbook), s.orderbook[kk]? ≠ some e := by
    intro kk e
    rw [h.orderbook]
    simp
  have hAgree : Agree k s := by
    refine ⟨?_, ?_, ?_, ?_⟩
    · exact fun id o ho => absurd (Store.mem_iff.mpr ⟨o, ho⟩) (hNoOrder id)
    · exact fun id o ho => absurd (Store.mem_iff.mpr ⟨o, ho⟩) (hNoOrder id)
    · exact fun kk e he => absurd he (hNoEntry kk e)
    · exact fun id o ho => absurd (Store.mem_iff.mpr ⟨o, ho⟩) (hNoOrder id)
  refine ⟨⟨hAgree, hAgree.keyed, hAgree.distinct, ?_⟩, ?_, ?_, ?_⟩
  · intro d
    rw [owes, bookTotal, h.orderbook, Store.total_empty]
    exact s.bank.held_nonneg d
  · exact fun kk e he => absurd he (hNoEntry kk e)
  · exact fun id hid => absurd hid (hNoOrder id)
  · intro f hf
    rw [h.fills] at hf
    cases hf

theorem Trading.mono (h : Trading k ids s) (new : List String) : Trading k (ids ++ new) s where
  toOrderly := h.toOrderly
  listed := h.listed
  stored id hid := List.mem_append_left _ (h.stored id hid)
  filled f hf :=
    ⟨List.mem_append_left _ (h.filled f hf).1, List.mem_append_left _ (h.filled f hf).2⟩

/-- A registered pair keeps the trading state. -/
theorem Trading.register (h : Trading k ids s) {msg : MsgRegisterPairs}
    (hOp : TradingOp k s (.deliver ctx (.registerPairs msg))) :
    Trading k ids { s with
      market := s.market.insert (pairId msg.baseDenom msg.quoteDenom) msg.toMarket } := by
  have hSame : ∀ m ∈ s.market[pairId msg.baseDenom msg.quoteDenom]?, m.SamePair msg.toMarket := hOp
  refine ⟨⟨h.agree.of_stores rfl rfl, h.solvent.market ?_⟩, ?_, h.stored, h.filled⟩
  · intro e he hId
    obtain ⟨kk, hStored⟩ := mem_entries.mp he
    obtain ⟨m, hm⟩ := h.listed kk e hStored
    obtain ⟨hBase, hQuote⟩ := hSame m (hId ▸ hm)
    refine .inr ?_
    rw [← hId, hm, Option.map_some, deliveryDenom, deliveryDenom, hBase, hQuote]
  · exact fun kk e he => Store.exists_get?_insert _ _ (h.listed kk e he)

theorem purge_fills (s : State) (limit : Nat) :
    (Keeper.batchCleanFilledOrders s limit).1.fills = s.fills :=
  purge_induction (P := fun s' => s'.fills = s.fills) (fun _ _ _ _ _ h => h) limit rfl

/-- A purge keeps the trading state. -/
theorem Trading.purges (hLaw : k.sdk.Lawful) (h : Trading k ids s) (limit : Nat) :
    Trading k ids (Keeper.batchCleanFilledOrders s limit).1 := by
  refine ⟨h.toOrderly.purges hLaw limit, ?_, ?_, ?_⟩
  · intro kk e he
    rw [(purge_frame s limit).1]
    exact h.listed kk e (purge_bookLE s limit kk e he)
  · exact fun id hid => h.stored id (purge_mem_order s limit id hid)
  · rw [purge_fills]
    exact h.filled

/-- A proper order of a fresh id keeps the trading state. -/
theorem Trading.placed (hLaw : k.sdk.Lawful) (h : Trading k ids s) (hMsg : Proper k msg)
    (hFresh : msg.orderId ctx.height ∉ ids)
    (hPlaced : Placed k ctx s msg market quantity coins bank s') :
    Trading k (ids ++ [msg.orderId ctx.height]) s' := by
  have hNew : msg.orderId ctx.height ∉ s.order := fun hid => hFresh (h.stored _ hid)
  obtain ⟨new, refund, hSettled⟩ := h.toOrderly.settled hLaw hMsg hNew hPlaced
  refine ⟨h.toOrderly.placed hLaw hMsg hNew hPlaced, ?_, ?_, ?_⟩
  · intro kk e he
    rw [hPlaced.frame.1]
    rcases matchOrders_book_cases hPlaced.matched he with hOld | ⟨rfl, -⟩
    · exact h.listed kk e hOld
    · exact ⟨market, hPlaced.listed⟩
  · intro id hid
    rcases (matchOrders_mem_order hLaw hPlaced.matched).mp hid with rfl | hIn
    · exact List.mem_append_right _ (List.mem_singleton_self _)
    · exact List.mem_append_left _ (h.stored id hIn)
  · intro f hf
    rw [hSettled.fills] at hf
    rcases List.mem_append.mp hf with hOld | hOwn
    · obtain ⟨hTaker, hMaker⟩ := h.filled f hOld
      exact ⟨List.mem_append_left _ hTaker, List.mem_append_left _ hMaker⟩
    · obtain ⟨hTaker, hMaker⟩ := hSettled.own f hOwn
      rw [hTaker]
      exact ⟨List.mem_append_right _ (List.mem_singleton_self _),
        List.mem_append_left _ (h.stored _ hMaker)⟩

/-- Every trading step keeps the trading state. -/
theorem trading_step (hLaw : k.sdk.Lawful) {op : Op} (hOp : TradingOp k s op)
    (hNodup : (ids ++ k.accepted orderIds s op).Nodup) (h : Trading k ids s) :
    Trading k (ids ++ k.accepted orderIds s op) (k.step s op) := by
  revert hNodup
  refine step_accepted (P := fun new s' => (ids ++ new).Nodup → Trading k (ids ++ new) s') op
    ?_ ?_ ?_
  · exact fun _ => h.mono []
  · rintro ctx msg s' r rfl hHandle hNodup
    cases handle_effect hHandle with
    | rejected => exact h.mono _
    | registerPairs => exact (h.register hOp).mono _
    | cleanOrders limit => exact (h.purges hLaw limit).mono _
    | placeOrder hPlaced =>
      refine h.placed hLaw hOp (fun hid => ?_) hPlaced
      exact (List.nodup_append.mp hNodup).2.2 _ hid _ (List.mem_singleton_self _) rfl
    | _ => exact hOp.elim
  · rintro rfl -
    exact (h.purges hLaw 5).mono []

end Step

-- ---------------------------------------------------------------------------
-- The account of a maker
-- ---------------------------------------------------------------------------

/-- The account of an order after its own match: `funds` is what the match left it with
and what it had spent there. -/
structure Account (k : Keeper) (id marketId : String) (market : Market) (funds : String → Int)
    (s : State) : Prop where
  order : ∀ o, s.order[id]? = some o → o.marketId = marketId
  pair : ∃ m, s.market[marketId]? = some m ∧ m.SamePair market
  balance : ∀ d, funds d = spent k s id d + unspent k s id market d

section Account

variable {id marketId : String} {market : Market} {funds : String → Int} {s s' : State}

/-- What an order has unspent is its share while it rests. -/
theorem unspent_eq {o : Order} (ho : s.order[id]? = some o) (d : String) :
    unspent k s id market d = if o.status = "PARTIAL" then
      share o.side (k.value o.price) (k.value o.remaining) market d else 0 := by
  rw [unspent, ho]
  rfl

theorem unspent_congr (h : s'.order[id]? = s.order[id]?) (d : String) :
    unspent k s' id market d = unspent k s id market d := by
  rw [unspent, unspent, h]

/-- A fill adds what it pays for the order to what is spent. -/
theorem spent_filled {taker maker : Order} {takerId : String} {m : Market} {entry : Orderbook}
    {rem left r p n : Int} (h : Filled k taker takerId m entry rem s maker r p n left s')
    (d : String) : spent k s' id d = spent k s id d +
      Fill.paidFor k id d ⟨takerId, entry.orderId, taker, maker, m, n, p⟩ := by
  rw [spent, h.fills, List.map_append, List.sum_append, spent]
  simp

/-- What the fills of another order do to the account. -/
theorem account_fills (hLaw : k.sdk.Lawful) {taker : Order} {takerId : String} {m : Market}
    {s₀ : State} (hPaying : Paying k taker) (hOther : takerId ≠ id)
    (hListed : s₀.market[taker.marketId]? = some m) :
    FillsKeep k taker takerId m
      (fun _ s => Account k id marketId market funds s ∧ s.market = s₀.market) := by
  rintro entry rem left r p n s s' maker hAgree hEntry hComp - hFilled ⟨h, hMarket⟩
  have hMaker := hFilled.maker_stored hLaw
  have hOwn : ∀ d, Fill.paidFor k id d ⟨takerId, entry.orderId, taker, maker, m, n, p⟩ =
      if entry.orderId = id then share entry.side p n m d else 0 := by
    intro d
    rw [Fill.paidFor, if_neg hOther, hFilled.maker_pays hPaying hComp, Int.add_zero]
  refine ⟨⟨?_, hFilled.markets ▸ h.pair, ?_⟩, hFilled.markets.trans hMarket⟩
  · intro o ho
    rw [hFilled.order, Store.get?_insert] at ho
    split at ho
    next hId =>
      rw [← Option.some.inj ho]
      exact h.order maker (hId ▸ hMaker)
    next => exact h.order o ho
  · intro d
    have hBalance := h.balance d
    rw [spent_filled hFilled, hOwn]
    by_cases hId : entry.orderId = id
    · subst hId
      obtain ⟨o, q, r', ho, hPartial, he, hLive, -⟩ := hAgree.maker hEntry
      obtain rfl : o = maker := Option.some.inj (ho.symm.trans hMaker)
      obtain rfl : r' = r := Option.some.inj (hLive.remaining.symm.trans hFilled.remaining)
      have hn := hFilled.qty
      have hLive' := hLive.makerAfter hLaw hPartial hFilled.qty_nonneg (by omega)
      -- the market the fill read is the order's own
      obtain ⟨m', hm', hPair⟩ := h.pair
      have hSame : m = m' := by
        rw [← h.order o ho, hAgree.maker_market hEntry ho, hComp.market, hMarket, hListed] at hm'
        exact Option.some.inj hm'
      subst hSame
      have hSide : entry.side = o.side := congrArg Orderbook.side he
      have hStored := hFilled.stored_after
      have hAfter : unspent k s' entry.orderId market d = share o.side p (r' - n) market d := by
        rw [unspent_eq hStored, Keeper.value_eq hLive'.remaining]
        show (if (if r' - n = 0 then "FILLED" else o.status) = "PARTIAL" then
          share o.side (k.value o.price) (r' - n) market d else 0) = _
        rw [Keeper.value_eq hFilled.price, hPartial]
        split
        next hZero => rw [hZero, share_zero, if_neg (by decide)]
        next => rw [if_pos rfl]
      rw [unspent_eq ho, if_pos hPartial, Keeper.value_eq hFilled.price,
        Keeper.value_eq hFilled.remaining] at hBalance
      rw [if_pos rfl, hAfter, share_sub, hSide, share_congr hPair.1 hPair.2]
      omega
    · rw [if_neg hId, unspent_congr (hFilled.stored_other (Ne.symm hId))]
      omega

/-- A step that neither fills nor changes the order. -/
theorem Account.of_same (h : Account k id marketId market funds s)
    (hMarket : s'.market = s.market) (hFills : s'.fills = s.fills)
    (hOrder : s'.order[id]? = s.order[id]?) : Account k id marketId market funds s' := by
  refine ⟨?_, hMarket ▸ h.pair, ?_⟩
  · rw [hOrder]
    exact h.order
  · intro d
    rw [spent, hFills, unspent_congr hOrder]
    exact h.balance d

/-- A purge changes no account. -/
theorem Account.purges (h : Account k id marketId market funds s) (limit : Nat) :
    Account k id marketId market funds (Keeper.batchCleanFilledOrders s limit).1 := by
  refine purge_induction (P := Account k id marketId market funds) ?_ limit h
  intro s₁ orderId o hStored hFilled h₁
  by_cases hId : id = orderId
  · subst hId
    have hGone : (purgeOrder s₁ id o).order[id]? = none := Std.ExtTreeMap.getElem?_erase_self
    refine ⟨?_, h₁.pair, ?_⟩
    · intro o' ho'
      rw [hGone] at ho'
      cases ho'
    · intro d
      have hBalance := h₁.balance d
      rw [unspent_eq hStored, if_neg (by rw [hFilled]; decide)] at hBalance
      rw [unspent, hGone]
      exact hBalance
  · exact h₁.of_same rfl rfl (Store.get?_erase_ne hId)

/-- Another order that is placed keeps the account. -/
theorem Account.placed (hLaw : k.sdk.Lawful) {ctx : Context} {msg : MsgPlaceOrder} {m : Market}
    {quantity : Int} {coins : Coins} {bank : Bank} (h : Account k id marketId market funds s)
    (hAgree : Agree k s) (hMsg : Proper k msg) (hOther : msg.orderId ctx.height ≠ id)
    (hPlaced : Placed k ctx s msg m quantity coins bank s') :
    Account k id marketId market funds s' := by
  have hFills : FillsKeep k msg.toOrder (msg.orderId ctx.height) m
      (fun _ s₁ => Account k id marketId market funds s₁ ∧ s₁.market = s.market) :=
    account_fills hLaw (hMsg.paying hLaw) hOther hPlaced.listed
  obtain ⟨_, left, s₁, hDone, hEnd⟩ := hAgree.matched hLaw hMsg.toRegular hPlaced hFills
    ⟨h.of_same rfl rfl rfl, rfl⟩
  obtain ⟨status, hOrder⟩ := hEnd.order_eq
  refine hDone.extra.1.of_same hEnd.frame.1 hEnd.frame.2 ?_
  rw [hOrder, Store.get?_insert_ne (Ne.symm hOther)]

/-- Every trading step keeps the account of an order. -/
theorem account_step (hLaw : k.sdk.Lawful) {ids : List String} {op : Op} (hId : id ∈ ids)
    (hOp : TradingOp k s op) (hNodup : (ids ++ k.accepted orderIds s op).Nodup)
    (hTrading : Trading k ids s) (h : Account k id marketId market funds s) :
    Account k id marketId market funds (k.step s op) := by
  revert hNodup
  refine step_accepted (P := fun new s' => (ids ++ new).Nodup →
    Account k id marketId market funds s') op ?_ ?_ ?_
  · exact fun _ => h
  · rintro ctx msg s' r rfl hHandle hNodup
    cases handle_effect hHandle with
    | rejected => exact h
    | @registerPairs _ msg =>
      refine ⟨h.order, ?_, h.balance⟩
      obtain ⟨m, hm, hPair⟩ := h.pair
      rw [Store.get?_insert]
      split
      next hSame =>
        obtain ⟨hBase, hQuote⟩ := hOp m (hSame ▸ hm)
        exact ⟨_, rfl, hBase ▸ hPair.1, hQuote ▸ hPair.2⟩
      next => exact ⟨m, hm, hPair⟩
    | cleanOrders limit => exact h.purges limit
    | placeOrder hPlaced =>
      refine h.placed hLaw hTrading.agree hOp ?_ hPlaced
      rintro rfl
      exact (List.nodup_append.mp hNodup).2.2 _ hId _ (List.mem_singleton_self _) rfl
    | _ => exact hOp.elim
  · rintro rfl -
    exact h.purges 5

end Account

-- ---------------------------------------------------------------------------
-- Runs
-- ---------------------------------------------------------------------------

/-- A run of well-formed orders under fresh ids, in markets that keep their denoms. -/
structure TradingRun (k : Keeper) (start : State) (ops : List Op) : Prop where
  opening : Opening start
  op : Run.Steps k.step (TradingOp k) start ops
  fresh : (Run.trace k.step (k.accepted orderIds) start ops).Nodup

/-- Every trading run keeps the trading state. -/
theorem trading_run (hLaw : k.sdk.Lawful) {ids : List String} {s : State} {ops : List Op}
    (hOps : Run.Steps k.step (TradingOp k) s ops)
    (hFresh : (ids ++ Run.trace k.step (k.accepted orderIds) s ops).Nodup) (h : Trading k ids s) :
    Trading k (ids ++ Run.trace k.step (k.accepted orderIds) s ops) (Run.exec k.step s ops) :=
  Run.exec_history (P := Trading k) (fun _ _ => List.Nodup.of_append_left)
    (fun _ _ _ hOp hQ h => trading_step hLaw hOp hQ h) hOps hFresh h

/-- Every trading run keeps the account of an order. -/
theorem account_run (hLaw : k.sdk.Lawful) {ids : List String} {id marketId : String}
    {market : Market} {funds : String → Int} {s : State} {ops : List Op} (hId : id ∈ ids)
    (hOps : Run.Steps k.step (TradingOp k) s ops)
    (hFresh : (ids ++ Run.trace k.step (k.accepted orderIds) s ops).Nodup)
    (hTrading : Trading k ids s) (h : Account k id marketId market funds s) :
    Account k id marketId market funds (Run.exec k.step s ops) := by
  let P : List String → State → Prop := fun ids s =>
    id ∈ ids ∧ Trading k ids s ∧ Account k id marketId market funds s
  have hStep : ∀ ids s op, TradingOp k s op → (ids ++ k.accepted orderIds s op).Nodup →
      P ids s → P (ids ++ k.accepted orderIds s op) (k.step s op) := by
    rintro ids s op hOp hNodup ⟨hId, hTrading, h⟩
    exact ⟨List.mem_append_left _ hId, trading_step hLaw hOp hNodup hTrading,
      account_step hLaw hId hOp hNodup hTrading h⟩
  exact (Run.exec_history (P := P) (fun _ _ => List.Nodup.of_append_left) hStep hOps hFresh
    ⟨hId, hTrading, h⟩).2.2

/-- The account of an order at the end of its match. -/
theorem Settled.opens (hLaw : k.sdk.Lawful) {ids : List String} {s s' : State} {ctx : Context}
    {msg : MsgPlaceOrder} {market : Market} {quantity : Int} {coins : Coins} {bank : Bank}
    {new : List Fill} {refund : List Transfer} (hTrading : Trading k ids s)
    (hFresh : msg.orderId ctx.height ∉ ids)
    (hPlaced : Placed k ctx s msg market quantity coins bank s')
    (h : Settled k s msg (msg.orderId ctx.height) market coins bank s' new refund) :
    Account k (msg.orderId ctx.height) msg.marketId market (fun d =>
      (Bank.amountOf coins d : Int) - (new.map (improvement k d)).sum - moved refund d) s' := by
  refine ⟨?_, ⟨market, hPlaced.frame.1 ▸ hPlaced.listed, rfl, rfl⟩, ?_⟩
  · intro o ho
    rcases matchOrders_terms hLaw hPlaced.matched ho with ⟨-, hTerms⟩ | ⟨hne, -⟩
    · exact hTerms.1
    · exact absurd rfl hne
  · intro d
    have hOld : (s.fills.map (Fill.paidFor k (msg.orderId ctx.height) d)).sum = 0 := by
      refine List.sum_eq_zero ?_
      intro x hx
      obtain ⟨f, hf, rfl⟩ := List.mem_map.mp hx
      obtain ⟨hTaker, hMaker⟩ := hTrading.filled f hf
      have hNotMaker : f.makerId ≠ msg.orderId ctx.height := fun hId => hFresh (hId ▸ hMaker)
      have hNotTaker : f.takerId ≠ msg.orderId ctx.height := fun hId => hFresh (hId ▸ hTaker)
      rw [Fill.paidFor, if_neg hNotMaker, if_neg hNotTaker]
      rfl
    have hAccount := h.account d
    rw [spent, h.fills, List.map_append, List.sum_append, hOld]
    omega

/-- **Where the escrow of an order goes.** Along every run of well-formed orders, and for
every order that has come to its end: what the creator paid in when it was placed is what
its fills have paid to their counterparties and what was paid back, exactly when it was no
bid that met an ask below its own price. -/
theorem escrow_returned_iff (hLaw : k.sdk.Lawful) {start s' : State} {pre post : List Op}
    {ctx : Context} {msg : MsgPlaceOrder} {r : Response}
    (hRun : TradingRun k start (pre ++ .deliver ctx (.placeOrder msg) :: post))
    (hAccepted : k.handle ctx (Run.exec k.step start pre) (.placeOrder msg) = .ok (s', r)) :
    ∃ coins new refund, s'.fills = (Run.exec k.step start pre).fills ++ new ∧
      (refund = [] ∨ ∃ denom n, refund = [release (k.addressOf msg.creator) denom n]) ∧
      s'.bank.log = (Run.exec k.step start pre).bank.log ++
        ⟨.user (k.addressOf msg.creator), .module, coins⟩ ::
          (new.flatMap (fun f => [f.toTaker k, f.toMaker k]) ++ refund) ∧
      ∀ o, (Run.exec k.step start (pre ++ .deliver ctx (.placeOrder msg) :: post)).order[
          msg.orderId ctx.height]? = some o →
        o.status = "FILLED" ∨ o.status = "CANCELLED_PARTIAL" →
        ((∀ d, (Bank.amountOf coins d : Int) =
          spent k (Run.exec k.step start (pre ++ .deliver ctx (.placeOrder msg) :: post))
            (msg.orderId ctx.height) d + moved refund d) ↔
          NoCheaperAsk k (Run.exec k.step start pre) msg) := by
  obtain ⟨hOpening, hOps, hFresh⟩ := hRun
  obtain ⟨hPre, hOp, hPost⟩ := Run.steps_append.mp hOps
  have hStep := step_of_ok hAccepted
  rw [Run.trace_append, Run.trace_cons, accepted_of_ok hAccepted, hStep] at hFresh
  rw [hStep] at hPost
  rw [Run.exec_append, Run.exec_cons, hStep]
  have hTrading : Trading k (Run.trace k.step (k.accepted orderIds) start pre)
      (Run.exec k.step start pre) :=
    trading_run hLaw hPre (List.Nodup.of_append_left hFresh) hOpening.trading
  rw [← List.append_assoc] at hFresh
  have hNew : msg.orderId ctx.height ∉ Run.trace k.step (k.accepted orderIds) start pre := by
    intro hIn
    exact (List.nodup_append.mp (List.Nodup.of_append_left hFresh)).2.2 _ hIn _
      (List.mem_singleton_self _) rfl
  generalize Run.exec k.step start pre = s at *
  generalize Run.trace k.step (k.accepted orderIds) start pre = ids at *
  obtain ⟨-, market, quantity, coins, bank, hPlaced⟩ := placeOrder_eq_ok hAccepted
  obtain ⟨new, refund, hSettled⟩ := hTrading.toOrderly.settled hLaw hOp
    (fun hid => hNew (hTrading.stored _ hid)) hPlaced
  have hAccount := account_run hLaw (List.mem_append_right ids (List.mem_singleton_self _)) hPost
    hFresh (hTrading.placed hLaw hOp hNew hPlaced) (hSettled.opens hLaw hTrading hNew hPlaced)
  refine ⟨coins, new, refund, hSettled.fills, ?_, ?_, ?_⟩
  · exact hSettled.refunded.imp_right fun ⟨_, n, hRefund⟩ => ⟨_, n, hRefund⟩
  · exact hPlaced.log hSettled.sent
  · intro o ho hEnd
    rw [← hSettled.gain]
    have hOver : o.status ≠ "PARTIAL" := by
      rcases hEnd with hFilled | hCut
      · rw [hFilled]
        decide
      · rw [hCut]
        decide
    refine forall_congr' fun d => ?_
    have hBalance := hAccount.balance d
    rw [unspent_eq ho, if_neg hOver] at hBalance
    omega

section Sample

open Ganc.Dex.Sample Ganc.Sample

theorem opening_empty (bank : Bank) : Opening (State.empty bank) := ⟨rfl, rfl, rfl⟩

/-- Bob bids what Alice asks: his escrow is spent to the last coin. -/
theorem escrow_returned_iff_sample : ∃ coins refund, ∀ d, (Bank.amountOf coins d : Int) =
    spent keeper (keeper.reach bank (aliceAsks ++ [place 3 bob "BUY" "4" "4"]))
      "uatom-uusdt-3-cosmos" d + moved refund d := by
  have hRun : TradingRun keeper (State.empty bank)
      (aliceAsks ++ [place 3 bob "BUY" "4" "4"]) :=
    ⟨opening_empty bank, by decide +kernel, by decide +kernel⟩
  obtain ⟨⟨s', r⟩, hAccepted⟩ := Result.exists_of_isOk (x := keeper.handle (block 3)
    (keeper.reach bank aliceAsks) (.placeOrder (order bob "BUY" "4" "4"))) (by decide +kernel)
  obtain ⟨coins, _, refund, -, -, -, hEnd⟩ :=
    escrow_returned_iff Sdk.sample_lawful hRun hAccepted
  have hFilled : ((keeper.reach bank (aliceAsks ++ [place 3 bob "BUY" "4" "4"])).order[
      "uatom-uusdt-3-cosmos"]?.map Order.status) = some "FILLED" := by decide +kernel
  obtain ⟨o, ho, hStatus⟩ := Option.map_eq_some_iff.mp hFilled
  exact ⟨coins, refund, (hEnd o ho (.inl hStatus)).mpr (by decide +kernel)⟩

/-- **Eight coins stay behind.** Bob bids 6 for four that Alice asks 4 for: he pays in 24,
his order is filled for 16, and nothing is paid back. -/
theorem escrow_kept :
    TradingRun keeper (State.empty bank) trade ∧
    ((keeper.reach bank trade).order["uatom-uusdt-3-cosmos"]?.map fun o =>
      (o.side, o.orderType, o.status)) = some ("BUY", "LIMIT", "FILLED") ∧
    ((keeper.reach bank trade).bank.log.map fun t => (t.dst == .module, t.coins)) =
      [(true, [⟨"uatom", 9⟩]), (true, [⟨"uusdt", 24⟩]), (false, [⟨"uatom", 4⟩]),
        (false, [⟨"uusdt", 16⟩])] ∧
    spent keeper (keeper.reach bank trade) "uatom-uusdt-3-cosmos" "uusdt" = 16 ∧
    (keeper.reach bank trade).bank.held "uusdt" = 8 :=
  ⟨⟨opening_empty bank, by decide +kernel, by decide +kernel⟩, by decide +kernel,
    by decide +kernel, by decide +kernel, by decide +kernel⟩

end Sample

end Ganc.Dex
