import Ganc.Lib.Store
import Ganc.Sdk.Bank

/-!
# x/dex — records, messages and the state

The records of the three stores, the messages of the `Msg` service and the
keeper, field by field as in `proto/ob/dex/v1` and `x/dex/keeper/keeper.go`.
Sides, prices, quantities and statuses are strings in the source, and any
account may send any string, so they are strings here.
-/

namespace Ganc.Dex

-- ---------------------------------------------------------------------------
-- Records
-- ---------------------------------------------------------------------------

structure Params where
deriving DecidableEq, Repr

structure Market where
  index : String
  baseDenom : String
  quoteDenom : String
  tickSize : String
  lotSize : String
  status : String
  creator : String
deriving DecidableEq, Repr, Inhabited

structure Order where
  index : String
  marketId : String
  orderType : String
  side : String
  price : String
  quantity : String
  remaining : String
  createdAt : String
  createdHeight : String
  status : String
  creator : String
deriving DecidableEq, Repr, Inhabited

structure Orderbook where
  index : String
  marketId : String
  side : String
  price : String
  orderId : String
deriving DecidableEq, Repr, Inhabited

/-- One pass through the execution loop of `MatchOrders`: `qty` of the base
denom against `qty * price` of the quote denom. `taker` and `maker` are the
two order records the loop saw. -/
structure Fill where
  takerId : String
  makerId : String
  taker : Order
  maker : Order
  market : Market
  qty : Int
  price : Int
deriving DecidableEq, Repr

/-- The stores of the module and the bank. `fills` is a history variable, the
fills executed so far; no handler reads it. -/
structure State where
  params : Option Params
  market : Store String Market
  order : Store String Order
  orderbook : Store String Orderbook
  bank : Bank
  fills : List Fill

/-- The module before its first message, over a given bank. -/
def State.empty (bank : Bank) : State where
  params := none
  market := ∅
  order := ∅
  orderbook := ∅
  bank := bank
  fills := []

-- ---------------------------------------------------------------------------
-- Messages
-- ---------------------------------------------------------------------------

structure MsgUpdateParams where
  authority : String
  params : Params

structure MsgCreateMarket where
  creator : String
  index : String
  baseDenom : String
  quoteDenom : String
  tickSize : String
  lotSize : String
  status : String

/-- The same fields as `MsgCreateMarket`. -/
structure MsgUpdateMarket extends MsgCreateMarket

structure MsgDeleteMarket where
  creator : String
  index : String

structure MsgCreateOrder where
  creator : String
  index : String
  marketId : String
  orderType : String
  side : String
  price : String
  quantity : String
  remaining : String
  createdAt : String
  createdHeight : String
  status : String

/-- The same fields as `MsgCreateOrder`. -/
structure MsgUpdateOrder extends MsgCreateOrder

structure MsgDeleteOrder where
  creator : String
  index : String

structure MsgRegisterPairs where
  creator : String
  baseDenom : String
  quoteDenom : String
  tickSize : String
  lotSize : String

/-- Without `orderType`, which no code reads. -/
structure MsgPlaceOrder where
  creator : String
  marketId : String
  side : String
  price : String
  quantity : String

structure MsgCleanOrders where
  creator : String
  limit : Nat

inductive Msg
  | updateParams (msg : MsgUpdateParams)
  | createMarket (msg : MsgCreateMarket)
  | updateMarket (msg : MsgUpdateMarket)
  | deleteMarket (msg : MsgDeleteMarket)
  | createOrder (msg : MsgCreateOrder)
  | updateOrder (msg : MsgUpdateOrder)
  | deleteOrder (msg : MsgDeleteOrder)
  | registerPairs (msg : MsgRegisterPairs)
  | placeOrder (msg : MsgPlaceOrder)
  | cleanOrders (msg : MsgCleanOrders)

inductive Response
  | empty
  | registerPairs (id : String)
  | placeOrder (orderId : String)
  | cleanOrders (count : Nat)
deriving DecidableEq, Repr

-- ---------------------------------------------------------------------------
-- Keeper and context
-- ---------------------------------------------------------------------------

structure Keeper where
  sdk : Sdk
  authority : AccAddress

/-- The freedom `sort.Slice` has: it is not stable, so entries of one price
come out as if the slice had first been rearranged in any way at all. -/
structure SortSlice where
  arrange : List Orderbook → List Orderbook
  perm : ∀ l, (arrange l).Perm l

/-- What a handler takes from its surroundings. -/
structure Context where
  height : Nat
  ties : SortSlice

end Ganc.Dex
