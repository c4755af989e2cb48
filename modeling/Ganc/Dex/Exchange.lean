import Ganc.Dex.Refunds

/-!
# x/dex — a fill is an exchange

A side is any string, and the engine tells sides apart in four places with four
defaults, so not every fill is a trade between a buyer and a seller. It is one
as long as every step of the run is `Fair`: it is covered, and a placed order
trades at positive prices only.

`purseOf` replays the record of a run into what the order last placed under an
id has left of its own escrow. `Exchange` says what a proper fill is, the two
purses it is paid from included, and `Bargaining` is the invariant of a match
in which all fills so far were proper.
-/

namespace Ganc.Dex

variable {k : Keeper}

-- ---------------------------------------------------------------------------
-- Purses
-- ---------------------------------------------------------------------------

/-- What an observer of the orders records. -/
inductive Event
  | placed (id : String) (msg : MsgPlaceOrder) (escrow : Coins)
  | filled (f : Fill)

/-- An accepted `PlaceOrder` is recorded with the coins of its first send, and with its
fills. -/
def Keeper.events (k : Keeper) (s : State) : Op → List Event
  | .deliver ctx (.placeOrder msg) =>
    match k.placeOrder ctx s msg with
    | .ok (s', _) =>
      .placed (msg.orderId ctx.height) msg
        ((s'.bank.log.drop s.bank.log.length).head?.elim [] Transfer.coins) ::
        (s'.fills.drop s.fills.length).map .filled
    | .error _ => []
  | _ => []

/-- Nothing is recorded of a rejected message. -/
theorem events_of_error {ctx : Context} {s : State} {msg : Msg} {f : Failure}
    (h : k.handle ctx s msg = .error f) : k.events s (.deliver ctx msg) = [] := by
  cases msg with
  | placeOrder msg =>
    rw [Keeper.handle] at h
    rw [Keeper.events, h]
  | _ => rfl

/-- An order, as it was placed, and what is left of its escrow. -/
structure Purse where
  msg : MsgPlaceOrder
  funds : String → Int

/-- What a fill leaves in the purse of an order. -/
def Purse.pay (k : Keeper) (id : String) (f : Fill) (p : Purse) : Purse :=
  { p with funds := fun d => p.funds d - f.paidFor k id d }

def purseStep (k : Keeper) (id : String) (p : Option Purse) : Event → Option Purse
  | .placed id' msg escrow =>
    if id' = id then some ⟨msg, fun d => (Bank.amountOf escrow d : Int)⟩ else p
  | .filled f => p.map (Purse.pay k id f)

/-- The purse of the order last placed under an id. -/
def purseOf (k : Keeper) (id : String) (h : List Event) : Option Purse :=
  h.foldl (purseStep k id) none

/-- The last event is the last to change the purse. -/
theorem purseOf_snoc (id : String) (h : List Event) (ev : Event) :
    purseOf k id (h ++ [ev]) = purseStep k id (purseOf k id h) ev := by
  simp [purseOf]

/-- A fill is paid from the purse. -/
theorem purseOf_filled {id : String} {h : List Event} {p : Purse} (f : Fill)
    (hPurse : purseOf k id h = some p) :
    purseOf k id (h ++ [.filled f]) = some (p.pay k id f) := by
  rw [purseOf_snoc, hPurse]
  rfl

/-- The order stands for the one last placed under the id, whose purse can pay the
amount. -/
def CanPay (k : Keeper) (h : List Event) (id : String) (o : Order) (denom : String)
    (amount : Int) : Prop :=
  ∃ p, purseOf k id h = some p ∧ p.msg.side = o.side ∧ p.msg.creator = o.creator ∧
    ∀ d, paid denom amount d ≤ p.funds d

-- ---------------------------------------------------------------------------
-- Exchanges
-- ---------------------------------------------------------------------------

namespace Fill

/-- The order that gets the base coins of a fill. -/
def buyer (f : Fill) : Order := if f.taker.side = "BUY" then f.taker else f.maker

def buyerId (f : Fill) : String := if f.taker.side = "BUY" then f.takerId else f.makerId

/-- The order that gets the quote coins of a fill. -/
def seller (f : Fill) : Order := if f.taker.side = "BUY" then f.maker else f.taker

def sellerId (f : Fill) : String := if f.taker.side = "BUY" then f.makerId else f.takerId

end Fill

/-- A fill, after the record `h`, is a trade between a buyer and a seller, each of whom
pays with coins escrowed for it. -/
structure Exchange (k : Keeper) (h : List Event) (f : Fill) : Prop where
  buyer : f.buyer.side = "BUY"
  seller : f.seller.side = "SELL"
  sends : (f.transfers k).Perm
    [release (k.addressOf f.buyer.creator) f.market.baseDenom f.qty,
      release (k.addressOf f.seller.creator) f.market.quoteDenom (f.qty * f.price)]
  positive : 0 < f.qty * f.price
  base : CanPay k h f.sellerId f.seller f.market.baseDenom f.qty
  quote : CanPay k h f.buyerId f.buyer f.market.quoteDenom (f.qty * f.price)

/-- Each of the fills that moves something is an exchange. -/
def Exchanges (k : Keeper) : List Event → List Fill → Prop
  | _, [] => True
  | h, f :: fs => (0 < f.qty → Exchange k h f) ∧ Exchanges k (h ++ [.filled f]) fs

/-- A history of exchanges goes on with an exchange. -/
theorem Exchanges.snoc {h : List Event} {fs : List Fill} {f : Fill} (hAll : Exchanges k h fs)
    (hLast : 0 < f.qty → Exchange k (h ++ fs.map .filled) f) : Exchanges k h (fs ++ [f]) := by
  induction fs generalizing h with
  | nil =>
    rw [List.map_nil, List.append_nil] at hLast
    exact ⟨hLast, trivial⟩
  | cons f' fs ih =>
    refine ⟨hAll.1, ih hAll.2 ?_⟩
    rwa [List.append_assoc, List.singleton_append]

-- ---------------------------------------------------------------------------
-- Fair steps
-- ---------------------------------------------------------------------------

/-- Whatever the order can trade with has a positive price. -/
def PositivePrices (k : Keeper) (s : State) (msg : MsgPlaceOrder) : Prop :=
  ∀ e ∈ s.entries, Compatible k msg.toOrder e → ∀ o ∈ s.order[e.orderId]?, 0 < k.value o.price

instance (s : State) (msg : MsgPlaceOrder) : Decidable (PositivePrices k s msg) := by
  unfold PositivePrices
  infer_instance

/-- The messages of a run of trades. -/
def TradeOp : Op → Prop
  | .deliver _ (.registerPairs _) | .deliver _ (.placeOrder _) | .deliver _ (.cleanOrders _) => True
  | .endBlock => True
  | _ => False

/-- A covered step; an order for a positive quantity trades at positive prices. -/
def Fair (k : Keeper) (s : State) (op : Op) : Prop :=
  Covered k s op ∧
    match op with
    | .deliver _ (.placeOrder msg) => 0 < k.value msg.quantity → PositivePrices k s msg
    | _ => True

instance : DecidablePred TradeOp
  | .deliver _ (.registerPairs _) | .deliver _ (.placeOrder _) | .deliver _ (.cleanOrders _)
  | .endBlock => isTrue trivial
  | .deliver _ (.updateParams _) | .deliver _ (.createMarket _) | .deliver _ (.updateMarket _)
  | .deliver _ (.deleteMarket _) | .deliver _ (.createOrder _) | .deliver _ (.updateOrder _)
  | .deliver _ (.deleteOrder _) => isFalse id

instance (s : State) (op : Op) : Decidable (Fair k s op) := by
  unfold Fair
  split <;> infer_instance

-- ---------------------------------------------------------------------------
-- What an entry is backed by
-- ---------------------------------------------------------------------------

/-- The order of an entry is the one last placed under its id, and the purse covers what
it still has to deliver. -/
structure Holds (k : Keeper) (s : State) (e : Orderbook) (p : Purse) : Prop where
  side : p.msg.side = e.side
  order : ∀ o, s.order[e.orderId]? = some o → o.side = e.side ∧ o.creator = p.msg.creator
  funds : ∀ d, weigh (owed k d) s e ≤ p.funds d

/-- Every entry of the book is backed, after the record `h`. -/
def Backing (k : Keeper) (h : List Event) (s : State) : Prop :=
  ∀ (kk : String) (e : Orderbook), s.orderbook[kk]? = some e →
    ∃ p, purseOf k e.orderId h = some p ∧ Holds k s e p

/-- Whether a purse backs an entry depends on its order and its market only. -/
theorem Holds.congr {s s' : State} {e : Orderbook} {p : Purse} (h : Holds k s e p)
    (hOrder : s'.order[e.orderId]? = s.order[e.orderId]?)
    (hMarket : s'.market[e.marketId]? = s.market[e.marketId]?) : Holds k s' e p := by
  refine ⟨h.side, hOrder ▸ h.order, ?_⟩
  intro d
  rw [weigh_congr hOrder hMarket]
  exact h.funds d

section Fill

variable {msg : MsgPlaceOrder} {takerId : String} {market : Market} {entry : Orderbook}
variable {rem left r p n : Int} {s s' : State} {maker : Order} {purse : Purse}

/-- What a fill leaves of the backing of the entry it fills. -/
theorem Holds.filled (hLaw : k.sdk.Lawful) (h : Holds k s entry purse)
    (hFilled : Filled k msg.toOrder takerId market entry rem s maker r p n left s')
    (hMarket : s.market[entry.marketId]? = some market) (hOther : takerId ≠ entry.orderId)
    (hPays : ∀ d, (Bank.amountOf (Fill.toTaker k
      ⟨takerId, entry.orderId, msg.toOrder, maker, market, n, p⟩).coins d : Int) =
      paid (deliveryDenom entry.side market) (delivery entry.side p n) d) :
    Holds k s' entry
      (purse.pay k entry.orderId ⟨takerId, entry.orderId, msg.toOrder, maker, market, n, p⟩) := by
  have hMaker := hFilled.maker_stored hLaw
  have hn := hFilled.qty
  have hn0 := hFilled.qty_nonneg
  have hStored := hFilled.stored_after
  refine ⟨h.side, ?_, ?_⟩
  · intro o ho
    obtain rfl : makerAfter maker r n = o := Option.some.inj (hStored.symm.trans ho)
    exact h.order maker hMaker
  · intro d
    have hFits : MathInt.Fits (r - n) :=
      (hLaw.newInt_fits hFilled.remaining).of_le (by omega) (by omega)
    have hDue : due entry.side p (r - n) = due entry.side p r - delivery entry.side p n :=
      due_sub hn0 (by omega) fun _ => hFilled.quote_nonneg
    have hFunds := h.funds d
    rw [weigh_eq hMaker hMarket, owed, Keeper.value_eq hFilled.price,
      Keeper.value_eq hFilled.remaining] at hFunds
    rw [weigh_eq hStored (hFilled.markets ▸ hMarket), owed,
      makerAfter_price, makerAfter_remaining, Keeper.value_eq hFilled.price,
      Keeper.value_eq (hLaw.newInt_toString hFits), hDue, paid_sub]
    show _ ≤ purse.funds d - Fill.paidFor k entry.orderId d _
    rw [Fill.paidFor, if_pos rfl, if_neg hOther, hPays]
    omega

/-- A fill leaves the backing of the other entries alone. -/
theorem Holds.other (hFilled : Filled k msg.toOrder takerId market entry rem s maker r p n left s')
    {e : Orderbook} (h : Holds k s e purse) (hMaker : entry.orderId ≠ e.orderId)
    (hTaker : takerId ≠ e.orderId) :
    Holds k s' e
      (purse.pay k e.orderId ⟨takerId, entry.orderId, msg.toOrder, maker, market, n, p⟩) := by
  have hSame : Holds k s' e purse :=
    h.congr (hFilled.stored_other hMaker.symm) (by rw [hFilled.markets])
  refine ⟨hSame.side, hSame.order, ?_⟩
  intro d
  show _ ≤ purse.funds d - Fill.paidFor k e.orderId d _
  rw [Fill.paidFor, if_neg hMaker, if_neg hTaker, Int.add_zero, Int.sub_zero]
  exact hSame.funds d

end Fill

-- ---------------------------------------------------------------------------
-- A match
-- ---------------------------------------------------------------------------

section Match

variable {msg : MsgPlaceOrder} {takerId : String} {market : Market} {entry : Orderbook}
variable {quantity rem left r p n : Int} {s s' s₀ : State} {maker : Order}
variable {rest : List Orderbook} {new : List Fill} {h : List Event}

/-- A match after the record `h`, when the fills `new` are made and the candidates `rest`
are to come. -/
structure Bargaining (k : Keeper) (msg : MsgPlaceOrder) (takerId : String) (market : Market)
    (quantity : Int) (s₀ : State) (h : List Event) (rest : List Orderbook) (rem : Int)
    (s : State) (new : List Fill) : Prop extends Covering k msg market quantity s₀ rest rem s where
  unnamed : Unnamed s takerId
  priced : 0 < quantity → ∀ e ∈ rest, ∀ (o : Order), s.order[e.orderId]? = some o →
    0 < k.value o.price
  fills : s.fills = s₀.fills ++ new
  makers : Backing k (h ++ new.map .filled) s
  taker : ∃ p, purseOf k takerId (h ++ new.map .filled) = some p ∧ p.msg = msg ∧
    ∀ d, paid (deliveryDenom msg.side market) (due msg.side (k.value msg.price) rem) d ≤ p.funds d
  exchanges : Exchanges k h new

/-- The two sides of a fill, and its price. -/
structure Terms (k : Keeper) (msg : MsgPlaceOrder) (entry : Orderbook) (rem r p n : Int) :
    Prop where
  price : 0 < p
  limit : msg.side = "BUY" → p ≤ k.value msg.price
  nonneg : 0 ≤ n
  maker_le : n ≤ r
  taker_le : n ≤ rem
  sides : msg.side = "SELL" ∧ entry.side = "BUY" ∨ msg.side = "BUY" ∧ entry.side = "SELL"

/-- Every fill of the loop is within the terms of both orders. -/
theorem Bargaining.terms (hLaw : k.sdk.Lawful) (hRem : rem ≠ 0)
    (hFilled : Filled k msg.toOrder takerId market entry rem s maker r p n left s')
    (hDeal : Bargaining k msg takerId market quantity s₀ h (entry :: rest) rem s new) :
    Terms k msg entry rem r p n := by
  have hMaker := hFilled.maker_stored hLaw
  have hn := hFilled.qty
  have hn0 := hFilled.qty_nonneg
  have hle := hDeal.le
  have hQuantity : 0 < quantity := by omega
  have hPrice := hDeal.priced hQuantity entry (List.mem_cons_self ..) maker hMaker
  rw [Keeper.value_eq hFilled.price] at hPrice
  -- who is no seller pays what it escrowed for a unit
  have hLimit : msg.side ≠ "SELL" → p ≤ allowance k msg := by
    intro hSide
    have hBound := hDeal.affordable hSide hQuantity entry (List.mem_cons_self ..) maker hMaker
    rwa [Keeper.value_eq hFilled.price] at hBound
  have hSide : entry.side = Keeper.targetSide msg.side :=
    (hDeal.compatible entry (List.mem_cons_self ..)).side
  refine ⟨hPrice, ?_, hn0, by omega, by omega, ?_⟩
  · intro hBuy
    have hBound := hLimit (by rw [hBuy]; decide)
    rwa [allowance, if_pos hBuy] at hBound
  · by_cases hSell : msg.side = "SELL"
    · exact .inl ⟨hSell, by rw [hSide, hSell]; rfl⟩
    · have hBound := hLimit hSell
      refine .inr ⟨?_, by rw [hSide, Keeper.targetSide, if_neg hSell]⟩
      by_contra hBuy
      rw [allowance, if_neg hBuy] at hBound
      omega

/-- A fill never costs less than nothing. -/
theorem Terms.quote (hTerms : Terms k msg entry rem r p n) : 0 ≤ n * p :=
  Int.mul_nonneg hTerms.nonneg hTerms.price.le

/-- A bid pays no more for the filled quantity than it escrowed for it. -/
theorem Terms.cost_le (hTerms : Terms k msg entry rem r p n) (hBuy : msg.side = "BUY") :
    n * p ≤ k.value msg.price * n := by
  rw [Int.mul_comm (k.value msg.price)]
  exact Int.mul_le_mul_of_nonneg_left (hTerms.limit hBuy) hTerms.nonneg

/-- The maker pays its delivery of the filled quantity. -/
theorem Terms.maker_pays (hTerms : Terms k msg entry rem r p n) (takerId : String)
    (maker : Order) (market : Market) (d : String) :
    (Bank.amountOf (Fill.toTaker k
      ⟨takerId, entry.orderId, msg.toOrder, maker, market, n, p⟩).coins d : Int) =
      paid (deliveryDenom entry.side market) (delivery entry.side p n) d := by
  rw [Fill.toTaker_coins hTerms.nonneg hTerms.quote]
  show (if msg.side = "BUY" then paid market.baseDenom n d
    else paid market.quoteDenom (n * p) d) = _
  rcases hTerms.sides with ⟨hSell, hBid⟩ | ⟨hBuy, hAsk⟩
  · rw [hSell, hBid, Int.mul_comm]
    rfl
  · rw [hBuy, hAsk]
    rfl

/-- The taker pays no more than its delivery of the filled quantity. -/
theorem Terms.taker_pays (hTerms : Terms k msg entry rem r p n) (takerId : String)
    (maker : Order) (market : Market) (d : String) :
    (Bank.amountOf (Fill.toMaker k
      ⟨takerId, entry.orderId, msg.toOrder, maker, market, n, p⟩).coins d : Int) ≤
      paid (deliveryDenom msg.side market) (delivery msg.side (k.value msg.price) n) d := by
  rw [Fill.toMaker_coins hTerms.nonneg hTerms.quote]
  show (if msg.side = "BUY" then paid market.quoteDenom (n * p) d
    else paid market.baseDenom n d) ≤ _
  rcases hTerms.sides with ⟨hSell, -⟩ | ⟨hBuy, -⟩
  · rw [hSell]
    exact le_refl _
  · rw [hBuy]
    exact paid_mono d (hTerms.cost_le hBuy)

/-- A fill on proper terms between orders that are backed is an exchange. -/
theorem Terms.exchange (hTerms : Terms k msg entry rem r p n) (hn : 0 < n)
    (hSide : maker.side = entry.side)
    (hMaker : CanPay k h entry.orderId maker (deliveryDenom entry.side market)
      (delivery entry.side p n))
    (hTaker : CanPay k h takerId msg.toOrder (deliveryDenom msg.side market)
      (due msg.side (k.value msg.price) rem)) :
    Exchange k h ⟨takerId, entry.orderId, msg.toOrder, maker, market, n, p⟩ := by
  have hPositive : 0 < n * p := Int.mul_pos hn hTerms.price
  have hTaker_le := hTerms.taker_le
  obtain ⟨pt, hPurse, hPlaced, hCreator, hFunds⟩ := hTaker
  have hDue : ∀ d, paid (deliveryDenom msg.side market)
      (delivery msg.side (k.value msg.price) n) d ≤ pt.funds d := by
    intro d
    refine le_trans (paid_mono d (delivery_le_due hTaker_le ?_)) (hFunds d)
    intro hBuy
    exact le_trans hTerms.price.le (hTerms.limit hBuy)
  rcases hTerms.sides with ⟨hSell, hBid⟩ | ⟨hBuy, hAsk⟩
  · have hNot : msg.toOrder.side ≠ "BUY" := by
      rw [show msg.toOrder.side = "SELL" from hSell]
      decide
    rw [hBid] at hSide hMaker
    rw [hSell] at hDue
    constructor
    case buyer => rw [Fill.buyer, if_neg hNot]; exact hSide
    case seller => rw [Fill.seller, if_neg hNot]; exact hSell
    case sends =>
      rw [Fill.transfers_eq, Fill.toTaker, Fill.toMaker, Fill.buyer, Fill.seller, if_neg hNot,
        if_neg hNot, if_neg hNot, if_neg hNot]
      exact .swap _ _ _
    case positive => exact hPositive
    case base =>
      rw [Fill.sellerId, Fill.seller, if_neg hNot, if_neg hNot]
      exact ⟨pt, hPurse, hPlaced, hCreator, hDue⟩
    case quote =>
      rw [Fill.buyerId, Fill.buyer, if_neg hNot, if_neg hNot]
      show CanPay k h entry.orderId maker market.quoteDenom (n * p)
      rw [Int.mul_comm]
      exact hMaker
  · have hIs : msg.toOrder.side = "BUY" := hBuy
    rw [hAsk] at hSide hMaker
    constructor
    case buyer => rw [Fill.buyer, if_pos hIs]; exact hBuy
    case seller => rw [Fill.seller, if_pos hIs]; exact hSide
    case sends =>
      rw [Fill.transfers_eq, Fill.toTaker, Fill.toMaker, Fill.buyer, Fill.seller, if_pos hIs,
        if_pos hIs, if_pos hIs, if_pos hIs]
    case positive => exact hPositive
    case base =>
      rw [Fill.sellerId, Fill.seller, if_pos hIs, if_pos hIs]
      exact hMaker
    case quote =>
      rw [Fill.buyerId, Fill.buyer, if_pos hIs, if_pos hIs]
      refine ⟨pt, hPurse, hPlaced, hCreator, fun d => le_trans ?_ (hDue d)⟩
      rw [hBuy]
      exact paid_mono d (hTerms.cost_le hBuy)

/-- One more fill is one more exchange, and the loop goes on. -/
theorem Bargaining.next (hLaw : k.sdk.Lawful) (hRem : rem ≠ 0)
    (hFilled : Filled k msg.toOrder takerId market entry rem s maker r p n left s')
    (hDeal : Bargaining k msg takerId market quantity s₀ h (entry :: rest) rem s new) :
    Bargaining k msg takerId market quantity s₀ h rest left s'
      (new ++ [⟨takerId, entry.orderId, msg.toOrder, maker, market, n, p⟩]) := by
  have hTerms := hDeal.terms hLaw hRem hFilled
  have hEntry := hDeal.pending.head
  have hMaker := hFilled.maker_stored hLaw
  have hMarket : s.market[entry.marketId]? = some market :=
    (hDeal.compatible entry (List.mem_cons_self ..)).market ▸ hDeal.listed
  have hOther : ∀ (kk : String) (e : Orderbook), s.orderbook[kk]? = some e → takerId ≠ e.orderId :=
    fun kk e he => (hDeal.unnamed kk e he).symm
  have hRecord : ∀ f : Fill, h ++ (new ++ [f]).map .filled =
      h ++ new.map .filled ++ [.filled f] := by
    intro f
    rw [List.map_append, List.map_singleton, List.append_assoc]
  obtain ⟨pm, hPurse, hHolds⟩ := hDeal.makers _ entry hEntry
  obtain ⟨pt, hTaker, hOwn, hFunds⟩ := hDeal.taker
  constructor
  case toCovering => exact hDeal.toCovering.next hLaw hRem hFilled
  case unnamed => exact hDeal.unnamed.mono hFilled.bookLE
  case priced =>
    intro hQuantity e he o ho
    rcases hFilled.price_or_stored ho with hPrice | hOld
    · rw [hPrice]
      exact hTerms.price
    · exact hDeal.priced hQuantity e (List.mem_cons_of_mem _ he) o hOld
  case fills => rw [hFilled.fills, hDeal.fills, List.append_assoc]
  case makers =>
    intro kk e he
    have he₀ := hFilled.book_subset he
    rw [hRecord]
    by_cases hId : e.orderId = entry.orderId
    · obtain rfl : kk = entry.key := hDeal.distinct kk entry.key e entry he₀ hEntry hId
      obtain rfl : e = entry := Option.some.inj (he₀.symm.trans hEntry)
      exact ⟨_, purseOf_filled _ hPurse, hHolds.filled hLaw hFilled hMarket (hOther _ _ hEntry)
        (hTerms.maker_pays takerId maker market)⟩
    · obtain ⟨pe, hPurse', hHolds'⟩ := hDeal.makers kk e he₀
      exact ⟨_, purseOf_filled _ hPurse', hHolds'.other hFilled (Ne.symm hId) (hOther kk e he₀)⟩
  case taker =>
    rw [hRecord]
    refine ⟨_, purseOf_filled _ hTaker, hOwn, ?_⟩
    intro d
    have hPaid := hTerms.taker_pays takerId maker market d
    have hDue : due msg.side (k.value msg.price) left =
        due msg.side (k.value msg.price) rem - delivery msg.side (k.value msg.price) n := by
      rw [hFilled.left_eq]
      refine due_sub hTerms.nonneg hTerms.taker_le ?_
      exact fun hBuy => le_trans hTerms.quote ((hTerms.cost_le hBuy).trans_eq (Int.mul_comm ..))
    have hBefore := hFunds d
    show _ ≤ pt.funds d - Fill.paidFor k takerId d _
    rw [Fill.paidFor, if_neg (hOther _ _ hEntry).symm, if_pos rfl, hDue, paid_sub]
    omega
  case exchanges =>
    refine hDeal.exchanges.snoc fun hn => ?_
    obtain ⟨hSide, hCreator⟩ := hHolds.order maker hMaker
    refine hTerms.exchange hn hSide ⟨pm, hPurse, hHolds.side.trans hSide.symm, hCreator.symm, ?_⟩
      ⟨pt, hTaker, by rw [hOwn]; rfl, by rw [hOwn]; rfl, hFunds⟩
    intro d
    have hOwed := hHolds.funds d
    rw [weigh_eq hMaker hMarket, owed, Keeper.value_eq hFilled.price,
      Keeper.value_eq hFilled.remaining] at hOwed
    exact le_trans (paid_mono d (delivery_le_due hTerms.maker_le fun _ => hTerms.price.le)) hOwed

/-- The start of the match of a fair order. -/
theorem Backing.start (hLaw : k.sdk.Lawful) {ctx : Context} {coins : Coins} {bank : Bank}
    {cs : List Orderbook} (hBacking : Backing k h s) (hSolvent : Solvent k s)
    (hFair : Fair k s (.deliver ctx (.placeOrder msg)))
    (hAdmitted : Admitted k s msg market quantity coins bank)
    (hMem : ∀ e, e ∈ cs ↔ e ∈ s.orderbook.toList.map Prod.snd ∧ Compatible k msg.toOrder e)
    (hSub : ∃ fetched, cs.Perm fetched ∧ fetched.Sublist (s.orderbook.toList.map Prod.snd)) :
    Bargaining k msg (msg.orderId ctx.height) market quantity s
      (h ++ [.placed (msg.orderId ctx.height) msg coins]) cs quantity { s with bank := bank }
      [] := by
  obtain ⟨⟨hNew, hAfford⟩, hPositive⟩ := hFair
  constructor
  case toCovering => exact .start hLaw hSolvent hAdmitted hAfford hMem hSub
  case unnamed => exact fun kk e he => hNew e (mem_entries.mpr ⟨kk, he⟩)
  case priced =>
    intro hQuantity e he o ho
    obtain ⟨hIn, hComp⟩ := (hMem e).mp he
    rw [← Keeper.value_eq hAdmitted.parsed] at hQuantity
    exact hPositive hQuantity e hIn hComp o ho
  case fills => exact (List.append_nil _).symm
  case makers =>
    intro kk e he
    obtain ⟨p, hPurse, hHolds⟩ := hBacking kk e he
    refine ⟨p, ?_, hHolds.congr rfl rfl⟩
    rw [List.map_nil, List.append_nil, purseOf_snoc, purseStep,
      if_neg (hNew e (mem_entries.mpr ⟨kk, he⟩)).symm, hPurse]
  case taker =>
    refine ⟨⟨msg, fun d => (Bank.amountOf coins d : Int)⟩, ?_, rfl, ?_⟩
    · rw [List.map_nil, List.append_nil, purseOf_snoc, purseStep, if_pos rfl]
    · intro d
      show _ ≤ (Bank.amountOf coins d : Int)
      rw [(escrowCoins_eq_ok hAdmitted.escrow).1]
      exact due_le_escrowed hLaw hAdmitted d
  case exchanges => trivial

/-- Its end: an order at rest is backed by its own purse. -/
theorem Bargaining.finish (hLaw : k.sdk.Lawful)
    (hParsed : k.sdk.newIntFromString msg.quantity = some quantity)
    (hDeal : Bargaining k msg takerId market quantity s₀ h rest left s new)
    (hEnd : Finalized k msg.toOrder takerId market left s s') :
    Backing k (h ++ new.map .filled) s' := by
  have hOld : ∀ (kk : String) (e : Orderbook), s.orderbook[kk]? = some e →
      ∃ p, purseOf k e.orderId (h ++ new.map .filled) = some p ∧ Holds k s' e p := by
    intro kk e he
    obtain ⟨p, hPurse, hHolds⟩ := hDeal.makers kk e he
    obtain ⟨status, hOrder⟩ := hEnd.order_eq
    refine ⟨p, hPurse, hHolds.congr ?_ (by rw [hEnd.frame.1])⟩
    rw [hOrder, Store.get?_insert_ne (hDeal.unnamed kk e he)]
  intro kk e he
  rcases hEnd.book_cases he with he | ⟨rfl, rfl⟩
  · exact hOld kk e he
  · cases hEnd with
    | filled => exact hOld _ _ he
    | cancelled => exact hOld _ _ he
    | resting =>
      obtain ⟨p, hPurse, hOwn, hFunds⟩ := hDeal.taker
      refine ⟨p, hPurse, by rw [hOwn]; rfl, ?_, ?_⟩
      · intro o ho
        rw [show (restingEntry msg.toOrder takerId).orderId = takerId from rfl,
          Std.ExtTreeMap.getElem?_insert_self] at ho
        rw [← Option.some.inj ho, hOwn]
        exact ⟨rfl, rfl⟩
      · intro d
        rw [weigh_eq Std.ExtTreeMap.getElem?_insert_self hDeal.listed, owed,
          show (takerAfter msg.toOrder left "PARTIAL").remaining = toString left from rfl,
          Keeper.value_eq (hLaw.newInt_toString (hDeal.fits hLaw hParsed))]
        exact hFunds d

/-- An accepted order, as the observer records it. -/
structure Dealt (k : Keeper) (ctx : Context) (s : State) (msg : MsgPlaceOrder) (h : List Event)
    (coins : Coins) (new : List Fill) (s' : State) : Prop where
  events : k.events s (.deliver ctx (.placeOrder msg)) =
    .placed (msg.orderId ctx.height) msg coins :: new.map .filled
  fills : s'.fills = s.fills ++ new
  sent : ∃ refund, s'.bank.log = s.bank.log ++
    ⟨.user (k.addressOf msg.creator), .module, coins⟩ :: (new.flatMap (Fill.transfers k) ++ refund)
  exchanges : Exchanges k (h ++ [.placed (msg.orderId ctx.height) msg coins]) new
  backing : Backing k (h ++ k.events s (.deliver ctx (.placeOrder msg))) s'

/-- A fair order that is placed trades with backed entries only. -/
theorem Backing.placed (hLaw : k.sdk.Lawful) {ctx : Context} {r : Response}
    (hBacking : Backing k h s) (hSolvent : Solvent k s)
    (hFair : Fair k s (.deliver ctx (.placeOrder msg)))
    (hOk : k.placeOrder ctx s msg = .ok (s', r)) :
    ∃ coins new, Dealt k ctx s msg h coins new s' := by
  obtain ⟨-, market, quantity, coins, bank, hPlaced⟩ := placeOrder_eq_ok hOk
  obtain ⟨cs, rem, left, s₁, hMem, hSub, hRem, hLoop, hEnd⟩ := matchOrders_eq_ok hPlaced.matched
  obtain rfl : quantity = rem := Option.some.inj (hPlaced.parsed.symm.trans hRem)
  have hStart := hBacking.start hLaw hSolvent hFair hPlaced.toAdmitted hMem hSub
  obtain ⟨rest, ⟨new, hDone⟩, -⟩ := executeLoop_induction
    (I := fun rest rem s₁ => ∃ new, Bargaining k msg (msg.orderId ctx.height) market quantity s
      (h ++ [.placed (msg.orderId ctx.height) msg coins]) rest rem s₁ new)
    (fun hRem hFilled ⟨_, hI⟩ => ⟨_, hI.next hLaw hRem hFilled⟩) hLoop ⟨[], hStart⟩
  obtain ⟨new', refund, hFills', -, -, hSent⟩ := matchOrders_fills hLaw hPlaced.matched
  have hFills : s'.fills = s.fills ++ new := hEnd.frame.2.trans hDone.fills
  obtain rfl : new = new' := List.append_cancel_left (hFills.symm.trans hFills')
  have hLog : s'.bank.log = s.bank.log ++ ⟨.user (k.addressOf msg.creator), .module, coins⟩ ::
      (new.flatMap (Fill.transfers k) ++ refund) := by
    rw [(Bank.sendAll_eq_ok hSent).1, (Bank.sendCoins_eq_ok.mp hPlaced.funded).2,
      List.append_assoc, List.singleton_append]
    rfl
  have hEvents : k.events s (.deliver ctx (.placeOrder msg)) =
      .placed (msg.orderId ctx.height) msg coins :: new.map .filled := by
    rw [Keeper.events, hOk]
    dsimp only
    rw [hLog, hFills, List.drop_left, List.drop_left]
    rfl
  refine ⟨coins, new, hEvents, hFills, ⟨refund, hLog⟩, hDone.exchanges, ?_⟩
  have hBacking' := hDone.finish hLaw hPlaced.parsed hEnd
  rwa [hEvents, ← List.singleton_append, ← List.append_assoc]

end Match

-- ---------------------------------------------------------------------------
-- Steps and runs
-- ---------------------------------------------------------------------------

section Step

variable {h : List Event} {s : State}

/-- Entries stay backed when others go. -/
theorem Backing.purges (hBacking : Backing k h s) (limit : Nat) :
    Backing k h (Keeper.batchCleanFilledOrders s limit).1 := by
  refine purge_induction (P := Backing k h) ?_ limit hBacking
  intro s₁ id o _ _ h₁ kk e he
  obtain ⟨p, hPurse, hHolds⟩ := h₁ kk e (Store.get?_of_erase he).2
  refine ⟨p, hPurse, hHolds.side, ?_, ?_⟩
  · exact fun o' ho' => hHolds.order o' (Store.get?_of_erase ho').2
  · exact fun d => le_trans (weigh_delete_le s₁ id e d) (hHolds.funds d)

/-- A market that is covered leaves the entries backed. -/
theorem Backing.register (hBacking : Backing k h s) {id : String} {m : Market}
    (hCovered : MarketCovered k s id m) :
    Backing k h { s with market := s.market.insert id m } := by
  intro kk e he
  obtain ⟨p, hPurse, hHolds⟩ := hBacking kk e he
  refine ⟨p, hPurse, hHolds.side, hHolds.order, ?_⟩
  exact fun d => le_trans (weigh_market_le hCovered (mem_entries.mpr ⟨kk, he⟩) d) (hHolds.funds d)

/-- Every fair step keeps the entries backed and the fills exchanges. -/
theorem backing_step (hLaw : k.sdk.Lawful) {op : Op} (hOp : TradeOp op) (hFair : Fair k s op)
    (hSolvent : Solvent k s) (hBacking : Backing k h s) :
    Backing k (h ++ k.events s op) (k.step s op) := by
  have hEffect := step_effect k s op
  unfold TradeOp at hOp
  split at hOp
  next ctx msg =>
    rw [show k.events s (.deliver ctx (.registerPairs msg)) = [] from rfl, List.append_nil]
    exact hBacking.register hFair.1
  next ctx msg =>
    cases hHandle : k.placeOrder ctx s msg with
    | error f =>
      have hRejected : k.handle ctx s (.placeOrder msg) = .error f := hHandle
      rw [events_of_error hRejected, List.append_nil, step_of_error hRejected]
      exact hBacking
    | ok res =>
      obtain ⟨coins, new, hDealt⟩ := hBacking.placed hLaw hSolvent hFair hHandle
      have hAccepted : k.handle ctx s (.placeOrder msg) = .ok (res.1, res.2) := hHandle
      rw [step_of_ok hAccepted]
      exact hDealt.backing
  next ctx msg =>
    rw [show k.events s (.deliver ctx (.cleanOrders msg)) = [] from rfl, List.append_nil]
    generalize k.step s (.deliver ctx (.cleanOrders msg)) = s' at hEffect
    cases hEffect with
    | rejected => exact hBacking
    | cleanOrders limit => exact hBacking.purges limit
  next =>
    rw [show k.events s .endBlock = [] from rfl, List.append_nil]
    exact hBacking.purges 5
  next => exact hOp.elim

end Step

/-- What holds after a run of fair trades, with its record. -/
theorem backing_reach (hLaw : k.sdk.Lawful) {bank : Bank} {ops : List Op}
    (hOps : ∀ op ∈ ops, TradeOp op)
    (hFair : Run.Steps k.step (k.Accepting (Fair k)) (State.empty bank) ops) :
    Solvent k (k.reach bank ops) ∧
      Backing k (Run.trace k.step k.events (State.empty bank) ops) (k.reach bank ops) := by
  let P : List Event → State → Prop := fun h s => Solvent k s ∧ Backing k h s
  have hStep : ∀ h s op, TradeOp op ∧ k.Accepting (Fair k) s op → True → P h s →
      P (h ++ k.events s op) (k.step s op) := by
    rintro h s op ⟨hOp, hAccepting⟩ - ⟨hSolvent, hBacking⟩
    rcases hAccepting.cases with hFair | ⟨ctx, msg, e, rfl, hRejected⟩
    · exact ⟨solvent_step hLaw s op hFair.1 hSolvent,
        backing_step hLaw hOp hFair hSolvent hBacking⟩
    · rw [events_of_error hRejected, step_of_error hRejected, List.append_nil]
      exact ⟨hSolvent, hBacking⟩
  have hSteps : Run.Steps k.step (fun s op => TradeOp op ∧ k.Accepting (Fair k) s op)
      (State.empty bank) ops :=
    Run.steps_and (Run.steps_of_forall hOps) hFair
  have hEmpty : P [] (State.empty bank) := by
    refine ⟨solvent_empty bank, ?_⟩
    intro kk e he
    simp [State.empty] at he
  have hAll := Run.exec_history (P := P) (Q := fun _ => True) (fun _ _ _ => trivial) hStep hSteps
    trivial hEmpty
  exact hAll

/-- **Fills are exchanges.** After every run of trades, the accepted ones fair, and for every
fair order that is accepted then, each fill of a positive quantity hands base coins to the
creator of a BUY order and quote coins, more than none, to the creator of a SELL order; and
each side is paid from what is left of the coins that the other one paid in when it was
placed. -/
theorem fills_are_exchanges (hLaw : k.sdk.Lawful) {bank : Bank} {ops : List Op}
    (hOps : ∀ op ∈ ops, TradeOp op)
    (hFair : Run.Steps k.step (k.Accepting (Fair k)) (State.empty bank) ops)
    {ctx : Context} {msg : MsgPlaceOrder} {s' : State} {r : Response}
    (hOwn : Fair k (k.reach bank ops) (.deliver ctx (.placeOrder msg)))
    (hAccepted : k.handle ctx (k.reach bank ops) (.placeOrder msg) = .ok (s', r)) :
    ∃ coins new, s'.fills = (k.reach bank ops).fills ++ new ∧
      (∃ refund, s'.bank.log = (k.reach bank ops).bank.log ++
        ⟨.user (k.addressOf msg.creator), .module, coins⟩ ::
          (new.flatMap (Fill.transfers k) ++ refund)) ∧
      Exchanges k (Run.trace k.step k.events (State.empty bank) ops ++
        [.placed (msg.orderId ctx.height) msg coins]) new := by
  obtain ⟨hSolvent, hBacking⟩ := backing_reach hLaw hOps hFair
  obtain ⟨coins, new, hDealt⟩ := hBacking.placed hLaw hSolvent hOwn hAccepted
  exact ⟨coins, new, hDealt.fills, hDealt.sent, hDealt.exchanges⟩

section Sample

open Ganc.Dex.Sample Ganc.Sample

/-- Bob's four are an exchange with Alice. -/
theorem fills_are_exchanges_sample : ∃ s' r coins new,
    keeper.handle (block 3) (keeper.reach bank aliceAsks) (.placeOrder (order bob "BUY" "6" "4")) =
      .ok (s', r) ∧
    s'.fills = (keeper.reach bank aliceAsks).fills ++ new ∧
    Exchanges keeper (Run.trace keeper.step keeper.events (State.empty bank) aliceAsks ++
      [.placed "uatom-uusdt-3-cosmos" (order bob "BUY" "6" "4") coins]) new := by
  obtain ⟨⟨s', r⟩, hAccepted⟩ := Result.exists_of_isOk (x := keeper.handle (block 3)
    (keeper.reach bank aliceAsks) (.placeOrder (order bob "BUY" "6" "4"))) (by decide +kernel)
  obtain ⟨coins, new, hFills, -, hExchanges⟩ := fills_are_exchanges Sdk.sample_lawful
    (by decide +kernel) (by decide +kernel) (by decide +kernel) hAccepted
  exact ⟨s', r, coins, new, hAccepted, hFills, hExchanges⟩

/-- Carol bids 2 for twenty, Alice asks 4 for nine. -/
def quotes : List Op :=
  [register carol "uatom" "uusdt", place 2 carol "BUY" "2" "20", place 3 alice "SELL" "4" "9"]

/-- **A fill without a buyer.** Bob's order is on no side. It pays base coins in, and yet is
filled by Alice's ask: she is paid the base coins of Bob, and Bob the quote coins that Carol
paid in. -/
theorem fill_without_buyer :
    ((keeper.reach bank (quotes ++ [place 4 bob "HOLD" "1" "5"])).fills.map fun f =>
      (f.taker.side, f.maker.side, f.qty, f.price)) = [("HOLD", "SELL", 5, 4)] ∧
    ((keeper.reach bank (quotes ++ [place 4 bob "HOLD" "1" "5"])).bank.log.map Transfer.coins) =
      [[⟨"uusdt", 40⟩], [⟨"uatom", 9⟩], [⟨"uatom", 5⟩], [⟨"uusdt", 20⟩], [⟨"uatom", 5⟩]] ∧
    ∃ f ∈ (keeper.reach bank (quotes ++ [place 4 bob "HOLD" "1" "5"])).fills, 0 < f.qty ∧
      ∀ h, ¬ Exchange keeper h f := by
  have hFills : ((keeper.reach bank (quotes ++ [place 4 bob "HOLD" "1" "5"])).fills.map fun f =>
      (f.taker.side, f.maker.side, f.qty, f.price)) = [("HOLD", "SELL", 5, 4)] := by
    decide +kernel
  refine ⟨hFills, by decide +kernel, ?_⟩
  obtain ⟨f, hOne, hFill⟩ := List.map_eq_singleton_iff.mp hFills
  obtain ⟨hTaker, hMaker, hQty, -⟩ : f.taker.side = "HOLD" ∧ f.maker.side = "SELL" ∧ f.qty = 5 ∧
      f.price = 4 := by simpa using hFill
  refine ⟨f, by rw [hOne]; exact List.mem_singleton_self f, by omega, ?_⟩
  intro h hExchange
  have hBuyer := hExchange.buyer
  rw [Fill.buyer, if_neg (by rw [hTaker]; decide), hMaker] at hBuyer
  exact absurd hBuyer (by decide)

end Sample

end Ganc.Dex
