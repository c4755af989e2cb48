import Mathlib.Data.List.Sort
import Ganc.Dex.Types

/-!
# x/dex — the matching engine

`keeper/matching.go`, function by function. The two loops of `MatchOrders`
are `fetchCandidates` (the filter over the book) and `executeLoop` (the fills,
each of them one `fillEntry`); what follows the second loop is
`finalizeTaker`.
-/

namespace Ganc.Dex

/-- The key of a book entry. -/
def orderbookKey (marketId side price orderId : String) : String :=
  marketId ++ "|" ++ side ++ "|" ++ price ++ "|" ++ orderId

/-- The key `MatchOrders` stores an entry under. -/
def Orderbook.key (e : Orderbook) : String :=
  orderbookKey e.marketId e.side e.price e.orderId

namespace Keeper

variable (k : Keeper)

-- ---------------------------------------------------------------------------
-- Coin movements
-- ---------------------------------------------------------------------------

/-- Pays `amount` of `denom` from the module to `addr`. -/
def payOut (bank : Bank) (addr : AccAddress) (denom : String) (amount : Int) : Result Bank := do
  let coin ← k.sdk.newCoin denom (some amount)
  bank.sendCoinsFromModuleToAccount addr (newCoins coin)

def settleAssets (bank : Bank) (taker maker : AccAddress) (takerSide : String)
    (qty quote : Int) (m : Market) : Result Bank := do
  if takerSide = "BUY" then
    let bank ← k.payOut bank taker m.baseDenom qty
    k.payOut bank maker m.quoteDenom quote
  else
    let bank ← k.payOut bank taker m.quoteDenom quote
    k.payOut bank maker m.baseDenom qty

/-- The error of the send is dropped; `NewCoin` may still panic. -/
def handleRefund (bank : Bank) (addr : AccAddress) (remaining : Int) (side : String)
    (m : Market) : Result Bank := do
  if remaining = 0 then
    return bank
  else if side = "SELL" then
    let coin ← k.sdk.newCoin m.baseDenom (some remaining)
    match bank.sendCoinsFromModuleToAccount addr (newCoins coin) with
    | .ok bank' => return bank'
    | .error _ => return bank
  else
    -- "Refund logic for BUY side can be added here"
    return bank

-- ---------------------------------------------------------------------------
-- Fetching and sorting the candidates
-- ---------------------------------------------------------------------------

/-- The side of the book a taker trades against. -/
def targetSide (takerSide : String) : String :=
  if takerSide = "SELL" then "BUY" else "SELL"

/-- The price compatibility check of the filter; a taker that is neither BUY
nor SELL passes it. -/
def priceCompatible (taker : Order) (val : Orderbook) : Result Bool := do
  if taker.orderType = "LIMIT" then
    let tPrice := k.sdk.newIntFromString taker.price
    let mPrice := k.sdk.newIntFromString val.price
    if taker.side = "BUY" then
      let worse ← mPrice.gt tPrice
      return !worse
    else if taker.side = "SELL" then
      let worse ← mPrice.lt tPrice
      return !worse
    else
      return true
  else
    return true

def fetchCandidates (taker : Order) : List (String × Orderbook) → Result (List Orderbook)
  | [] => return []
  | (_, val) :: rest => do
    if val.marketId = taker.marketId ∧ val.side = targetSide taker.side then
      let fits ← k.priceCompatible taker val
      let candidates ← fetchCandidates taker rest
      return if fits then val :: candidates else candidates
    else
      fetchCandidates taker rest

/-- The price an entry is ranked by. -/
def rank (e : Orderbook) : Int := (k.sdk.newIntFromString e.price).getD 0

/-- `a` does not have to come after `b`: the higher bid or the lower ask first. -/
def Ranked (target : String) (a b : Orderbook) : Prop :=
  if target = "BUY" then k.rank b ≤ k.rank a else k.rank a ≤ k.rank b

instance (target : String) : DecidableRel (k.Ranked target) := fun a b => by
  unfold Ranked
  infer_instance

/-- `sort.Slice`. A price that does not parse is nil, and the comparison of a
nil with a proper price panics; a slice that holds both makes the sort compare
the two. -/
def sortCandidates (ties : SortSlice) (target : String) (candidates : List Orderbook) :
    Result (List Orderbook) := do
  let prices := candidates.map fun e => k.sdk.newIntFromString e.price
  Result.require (prices.all Option.isSome ∨ prices.all Option.isNone) (.panic .nilPointer)
  return (ties.arrange candidates).insertionSort (k.Ranked target)

-- ---------------------------------------------------------------------------
-- Execution
-- ---------------------------------------------------------------------------

/-- The body of the execution loop, on one candidate. An order record that is
missing reads as the zero `Order`. -/
def fillEntry (taker : Order) (takerId : String) (market : Market) (entry : Orderbook)
    (takerRemaining : Int) (s : State) : Result (Int × State) := do
  let takerAddr := (k.sdk.accAddressFromBech32 taker.creator).getD []
  let makerOrder := s.order[entry.orderId]?.getD default
  let makerRemaining := k.sdk.newIntFromString makerOrder.remaining
  let makerAddr := (k.sdk.accAddressFromBech32 makerOrder.creator).getD []
  let matchQty ← MathInt.minInt (some takerRemaining) makerRemaining
  let tradePrice := k.sdk.newIntFromString makerOrder.price
  let totalQuote ← MathInt.mul (some matchQty) tradePrice
  let bank ← k.settleAssets s.bank takerAddr makerAddr taker.side matchQty totalQuote market
  let makerLeft ← MathInt.sub makerRemaining (some matchQty)
  let takerLeft ← MathInt.sub (some takerRemaining) (some matchQty)
  let makerOrder' : Order := { makerOrder with
    remaining := toString makerLeft
    status := if makerLeft = 0 then "FILLED" else makerOrder.status }
  return (takerLeft, { s with
    bank := bank
    orderbook := if makerLeft = 0 then s.orderbook.erase entry.key else s.orderbook
    order := s.order.insert entry.orderId makerOrder'
    fills := s.fills ++
      [⟨takerId, entry.orderId, taker, makerOrder, market, matchQty, tradePrice.getD 0⟩] })

def executeLoop (taker : Order) (takerId : String) (market : Market) :
    List Orderbook → Int → State → Result (Int × State)
  | [], takerRemaining, s => return (takerRemaining, s)
  | entry :: rest, takerRemaining, s => do
    if takerRemaining = 0 then
      return (takerRemaining, s)
    else
      let (takerLeft, s') ← k.fillEntry taker takerId market entry takerRemaining s
      executeLoop taker takerId market rest takerLeft s'

/-- The taker once its fills are done: filled, a market order cut short, or an
order that comes to rest in the book. -/
def finalizeTaker (taker : Order) (takerId : String) (market : Market)
    (takerRemaining : Int) (s : State) : Result State := do
  let takerAddr := (k.sdk.accAddressFromBech32 taker.creator).getD []
  let taker := { taker with remaining := toString takerRemaining }
  if takerRemaining = 0 then
    return { s with order := s.order.insert takerId { taker with status := "FILLED" } }
  else if taker.orderType = "MARKET" then
    let bank ← k.handleRefund s.bank takerAddr takerRemaining taker.side market
    return { s with
      bank := bank
      order := s.order.insert takerId { taker with status := "CANCELLED_PARTIAL" } }
  else
    let entry : Orderbook := { (default : Orderbook) with
      marketId := taker.marketId
      side := taker.side
      price := taker.price
      orderId := takerId }
    return { s with
      orderbook := s.orderbook.insert entry.key entry
      order := s.order.insert takerId { taker with status := "PARTIAL" } }

def matchOrders (ctx : Context) (s : State) (taker : Order) (takerId : String)
    (market : Market) : Result State := do
  let candidates ← k.fetchCandidates taker s.orderbook.toList
  let candidates ← k.sortCandidates ctx.ties (targetSide taker.side) candidates
  let takerRemaining ← (k.sdk.newIntFromString taker.remaining).deref
  let (takerLeft, s') ← k.executeLoop taker takerId market candidates takerRemaining s
  k.finalizeTaker taker takerId market takerLeft s'

end Keeper

end Ganc.Dex
