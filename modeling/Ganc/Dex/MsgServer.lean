import Ganc.Lib.Run
import Ganc.Dex.Matching

/-!
# x/dex — the message server, the purge and the module's steps

The handlers of `keeper/msg_server_*.go`, `BatchCleanFilledOrders` of
`keeper/management.go` and `EndBlock` of `module/module.go`. `step` is what
the chain does with one of them: the writes of a handler that returns an
error or panics are discarded.
-/

namespace Ganc.Dex

-- ---------------------------------------------------------------------------
-- The ids and records the handlers make
-- ---------------------------------------------------------------------------

/-- The id `RegisterPairs` gives the market of a pair. -/
def pairId (baseDenom quoteDenom : String) : String := baseDenom ++ "-" ++ quoteDenom

/-- `fmt.Sprintf("%s-%d-%s", msg.MarketId, ctx.BlockHeight(), msg.Creator[:6])`. -/
def orderIdOf (marketId : String) (height : Nat) (slice : String) : String :=
  marketId ++ "-" ++ toString height ++ "-" ++ slice

/-- The type `PlaceOrder` gives an order. -/
def orderTypeOf (price : String) : String :=
  if price = "0" then "MARKET" else "LIMIT"

/-- An order is a `LIMIT` order or a `MARKET` order. -/
theorem orderTypeOf_eq_limit {price : String} :
    orderTypeOf price = "LIMIT" ↔ orderTypeOf price ≠ "MARKET" := by
  unfold orderTypeOf
  split <;> simp

/-- An order with a positive price is a limit order. -/
theorem orderTypeOf_of_pos {sdk : Sdk} (hLaw : sdk.Lawful) {price : String} {p : Int}
    (hParsed : sdk.newIntFromString price = some p) (hPos : 0 < p) :
    orderTypeOf price = "LIMIT" := by
  refine if_neg ?_
  rintro rfl
  rw [hLaw.newInt_zero, Option.some.injEq] at hParsed
  omega

def MsgCreateMarket.toMarket (msg : MsgCreateMarket) : Market where
  creator := msg.creator
  index := msg.index
  baseDenom := msg.baseDenom
  quoteDenom := msg.quoteDenom
  tickSize := msg.tickSize
  lotSize := msg.lotSize
  status := msg.status

def MsgCreateOrder.toOrder (msg : MsgCreateOrder) : Order where
  creator := msg.creator
  index := msg.index
  marketId := msg.marketId
  orderType := msg.orderType
  side := msg.side
  price := msg.price
  quantity := msg.quantity
  remaining := msg.remaining
  createdAt := msg.createdAt
  createdHeight := msg.createdHeight
  status := msg.status

/-- The record `PlaceOrder` starts from. -/
def MsgPlaceOrder.toOrder (msg : MsgPlaceOrder) : Order := { (default : Order) with
  marketId := msg.marketId
  orderType := orderTypeOf msg.price
  side := msg.side
  price := msg.price
  quantity := msg.quantity
  remaining := msg.quantity
  status := "OPEN"
  creator := msg.creator }

namespace Keeper

variable (k : Keeper)

-- ---------------------------------------------------------------------------
-- Checks the scaffolded handlers share
-- ---------------------------------------------------------------------------

/-- `addressCodec.StringToBytes(creator)`, with the codec's error in the text. -/
def checkCreator (creator what : String) : Result Unit :=
  match k.sdk.stringToBytes creator with
  | .ok _ => .ok ()
  | .error err => .error (.error .invalidAddress [what ++ ": " ++ err])

/-- The checks of a handler that creates the record `index`. -/
def checkFresh {ν : Type} (m : Store String ν) (creator index : String) : Result Unit := do
  k.checkCreator creator "invalid address"
  Result.require (m[index]? = none) (.error .invalidRequest ["index already set"])

/-- The checks of a handler that changes or removes the record `index`. -/
def checkOwner {ν : Type} (m : Store String ν) (creatorOf : ν → String)
    (creator index : String) : Result Unit := do
  k.checkCreator creator "invalid signer address"
  let val ← Result.ofOption (.error .keyNotFound ["index not set"]) m[index]?
  Result.require (creator = creatorOf val) (.error .unauthorized ["incorrect owner"])

instance decidableGetNone {ν : Type} (m : Store String ν) (index : String) :
    Decidable (m[index]? = none) :=
  decidable_of_iff (m[index]?.isNone) Option.isNone_iff_eq_none

-- ---------------------------------------------------------------------------
-- Params
-- ---------------------------------------------------------------------------

def updateParams (s : State) (req : MsgUpdateParams) : Result (State × Response) := do
  let authority ← Result.wrap "invalid authority address" (k.sdk.codecBytes req.authority)
  Result.require (k.authority = authority) (.error .invalidSigner
    ["invalid authority; expected " ++ k.sdk.bytesToString k.authority ++ ", got " ++
      req.authority])
  return ({ s with params := some req.params }, .empty)

-- ---------------------------------------------------------------------------
-- Markets
-- ---------------------------------------------------------------------------

def createMarket (s : State) (msg : MsgCreateMarket) : Result (State × Response) := do
  k.checkFresh s.market msg.creator msg.index
  return ({ s with market := s.market.insert msg.index msg.toMarket }, .empty)

def updateMarket (s : State) (msg : MsgUpdateMarket) : Result (State × Response) := do
  k.checkOwner s.market Market.creator msg.creator msg.index
  return ({ s with market := s.market.insert msg.index msg.toMarket }, .empty)

def deleteMarket (s : State) (msg : MsgDeleteMarket) : Result (State × Response) := do
  k.checkOwner s.market Market.creator msg.creator msg.index
  return ({ s with market := s.market.erase msg.index }, .empty)

/-- Checks nothing: the record under the id, whoever wrote it, is replaced. -/
def registerPairs (s : State) (msg : MsgRegisterPairs) : Result (State × Response) := do
  let marketId := pairId msg.baseDenom msg.quoteDenom
  let market : Market := { (default : Market) with
    baseDenom := msg.baseDenom
    quoteDenom := msg.quoteDenom
    tickSize := msg.tickSize
    lotSize := msg.lotSize
    status := "ACTIVE" }
  return ({ s with market := s.market.insert marketId market }, .registerPairs marketId)

-- ---------------------------------------------------------------------------
-- Orders
-- ---------------------------------------------------------------------------

def createOrder (s : State) (msg : MsgCreateOrder) : Result (State × Response) := do
  k.checkFresh s.order msg.creator msg.index
  return ({ s with order := s.order.insert msg.index msg.toOrder }, .empty)

def updateOrder (s : State) (msg : MsgUpdateOrder) : Result (State × Response) := do
  k.checkOwner s.order Order.creator msg.creator msg.index
  return ({ s with order := s.order.insert msg.index msg.toOrder }, .empty)

def deleteOrder (s : State) (msg : MsgDeleteOrder) : Result (State × Response) := do
  k.checkOwner s.order Order.creator msg.creator msg.index
  return ({ s with order := s.order.erase msg.index }, .empty)

/-- `msg.Creator[:6]`. The slice is one of bytes; the creator signs the message,
and every character of a bech32 address is a single byte. -/
def creatorSlice (creator : String) : Result String := do
  Result.require (6 ≤ creator.toList.length) (.panic .sliceBounds)
  return String.ofList (creator.toList.take 6)

/-- The coins `PlaceOrder` takes into escrow. -/
def escrowCoins (market : Market) (side price : String) (quantity : Int) : Result Coins := do
  if side = "BUY" then
    let price' := k.sdk.newIntFromString price
    if orderTypeOf price = "MARKET" then
      let coin ← k.sdk.newCoin market.quoteDenom price'
      return newCoins coin
    else
      let cost ← MathInt.mul price' (some quantity)
      let coin ← k.sdk.newCoin market.quoteDenom (some cost)
      return newCoins coin
  else
    let coin ← k.sdk.newCoin market.baseDenom (some quantity)
    return newCoins coin

def placeOrder (ctx : Context) (s : State) (msg : MsgPlaceOrder) :
    Result (State × Response) := do
  let market ← Result.ofOption
    (.error .keyNotFound ["market " ++ msg.marketId ++ " not found"]) s.market[msg.marketId]?
  let quantity ← Result.ofOption
    (.error .invalidRequest ["invalid quantity format"]) (k.sdk.newIntFromString msg.quantity)
  let creatorAddr := (k.sdk.accAddressFromBech32 msg.creator).getD []
  let coins ← k.escrowCoins market msg.side msg.price quantity
  let bank ← s.bank.sendCoinsFromAccountToModule creatorAddr coins
  let slice ← creatorSlice msg.creator
  let orderId := orderIdOf msg.marketId ctx.height slice
  let s' ← k.matchOrders ctx { s with bank := bank } msg.toOrder orderId market
  return (s', .placeOrder orderId)

-- ---------------------------------------------------------------------------
-- The purge
-- ---------------------------------------------------------------------------

/-- The loop of `BatchCleanFilledOrders` over the entries of the Order store,
with the number of orders deleted so far. The book key it removes lacks the
side. -/
def purgeLoop (limit : Nat) : List (String × Order) → Nat → State → State × Nat
  | [], deletedCount, s => (s, deletedCount)
  | (orderId, order) :: rest, deletedCount, s =>
    if limit ≤ deletedCount then
      (s, deletedCount)
    else if order.status = "FILLED" then
      let bookKey := order.marketId ++ "|" ++ order.price ++ "|" ++ orderId
      purgeLoop limit rest (deletedCount + 1) { s with
        order := s.order.erase orderId
        orderbook := s.orderbook.erase bookKey }
    else
      purgeLoop limit rest deletedCount s

def batchCleanFilledOrders (s : State) (limit : Nat) : State × Nat :=
  purgeLoop limit s.order.toList 0 s

def cleanOrders (s : State) (msg : MsgCleanOrders) : Result (State × Response) := do
  let _ ← Result.wrap "invalid authority address" (k.sdk.codecBytes msg.creator)
  let limit := if 500 < msg.limit then 500 else msg.limit
  let (s', count) := batchCleanFilledOrders s limit
  return (s', .cleanOrders count)

def endBlock (s : State) : State :=
  (batchCleanFilledOrders s 5).1

-- ---------------------------------------------------------------------------
-- Steps
-- ---------------------------------------------------------------------------

def handle (ctx : Context) (s : State) : Msg → Result (State × Response)
  | .updateParams msg => k.updateParams s msg
  | .createMarket msg => k.createMarket s msg
  | .updateMarket msg => k.updateMarket s msg
  | .deleteMarket msg => k.deleteMarket s msg
  | .createOrder msg => k.createOrder s msg
  | .updateOrder msg => k.updateOrder s msg
  | .deleteOrder msg => k.deleteOrder s msg
  | .registerPairs msg => registerPairs s msg
  | .placeOrder msg => k.placeOrder ctx s msg
  | .cleanOrders msg => k.cleanOrders s msg

end Keeper

/-- One thing the chain does to the module. -/
inductive Op
  | deliver (ctx : Context) (msg : Msg)
  | endBlock

def Keeper.step (k : Keeper) (s : State) : Op → State
  | .deliver ctx msg => commit s (k.handle ctx s msg)
  | .endBlock => Keeper.endBlock s

/-- The state after a run that starts from empty stores. -/
abbrev Keeper.reach (k : Keeper) (bank : Bank) (ops : List Op) : State :=
  Run.exec k.step (State.empty bank) ops

end Ganc.Dex
