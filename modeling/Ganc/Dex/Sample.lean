import Ganc.Sdk.Sample
import Ganc.Dex.MsgServer

/-!
# x/dex — concrete keepers and operations

The keeper over the concrete SDK, accounts with money, and the operations
that concrete runs are written with.
-/

namespace Ganc.Dex.Sample

open Ganc.Sample

def keeper : Keeper := ⟨Sdk.sample, List.replicate 20 9⟩

/-- Every user account holds a thousand of every denom. -/
def bank : Bank where
  balance
    | .module, _ => 0
    | .user _, _ => 1000
  log := []

/-- A block of the given height whose sort keeps equal prices in order. -/
def block (height : Nat) : Context := ⟨height, id, fun _ => .refl _⟩

def register (creator base quote : String) : Op :=
  .deliver (block 1) (.registerPairs ⟨creator, base, quote, "1", "1"⟩)

/-- The record of the market of `uatom` against `uusdt` that Carol registers. -/
def listed : Market := ⟨"", "uatom", "uusdt", "1", "1", "ACTIVE", ""⟩

/-- An order in the market of `uatom` against `uusdt`. -/
def order (creator side price quantity : String) : MsgPlaceOrder :=
  ⟨creator, "uatom-uusdt", side, price, quantity⟩

def place (height : Nat) (creator side price quantity : String) : Op :=
  .deliver (block height) (.placeOrder (order creator side price quantity))

/-- Alice asks 4 for nine. -/
def aliceAsks : List Op :=
  [register carol "uatom" "uusdt", place 2 alice "SELL" "4" "9"]

/-- Alice asks 4 for nine, Bob bids 6 for four: her order is filled in part, and
Bob's price is eight coins too high. -/
def trade : List Op :=
  [register carol "uatom" "uusdt", place 2 alice "SELL" "4" "9", place 3 bob "BUY" "6" "4"]

end Ganc.Dex.Sample
