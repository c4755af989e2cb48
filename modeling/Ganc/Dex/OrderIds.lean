import Ganc.Dex.Keys
import Ganc.Dex.Sample

/-!
# x/dex — the ids of placed orders

`PlaceOrder` writes its order under an id made of the market, the height and
the first six characters of the creator, and does not look whether the id is
taken. An order that repeats the three of no order placed before it, and whose
id no `CreateOrder` has used, gets a fresh id (`placed_orders_fresh`). But the
first six characters of an address are the Bech32 prefix of the application,
the same for all accounts whose addresses are written in the same case, so the
second order that a market accepts at one height replaces the first
(`placed_order_lost`).
-/

namespace Ganc.Dex

variable {k : Keeper}

-- ---------------------------------------------------------------------------
-- Where the keys of the order store come from
-- ---------------------------------------------------------------------------

/-- What an accepted message writes a new order under. -/
inductive Origin
  | created (index : String)
  | placed (marketId : String) (height : Nat) (head : String)
deriving DecidableEq, Repr

def Origin.id : Origin → String
  | .created index => index
  | .placed marketId height head => orderIdOf marketId height head

/-- The head of a creator is six characters long. -/
def Origin.Sized : Origin → Prop
  | .created _ => True
  | .placed _ _ head => head.toList.length = 6

def origins (ctx : Context) : Msg → List Origin
  | .createOrder msg => [.created msg.index]
  | .placeOrder msg => [.placed msg.marketId ctx.height (creatorHead msg.creator)]
  | _ => []

/-- The origins of all orders a run has written. -/
abbrev Keeper.origins (k : Keeper) (s : State) (ops : List Op) : List Origin :=
  Run.trace k.step (k.accepted Dex.origins) s ops

/-- `later` is not a placement that takes the id of `earlier`. -/
def Origin.Apart (earlier later : Origin) : Prop :=
  match earlier, later with
  | .placed m h c, .placed m' h' c' => (m, h, c) ≠ (m', h', c')
  | .created index, .placed m' h' c' => index ≠ orderIdOf m' h' c'
  | _, .created _ => True

instance : DecidableRel Origin.Apart := fun earlier later => by
  unfold Origin.Apart
  split <;> infer_instance

/-- Origins that are apart have different ids. -/
theorem Origin.Apart.id_ne {earlier : Origin} {m head : String} {h : Nat}
    (hApart : earlier.Apart (.placed m h head)) (hSized : earlier.Sized)
    (hHead : head.toList.length = 6) : earlier.id ≠ orderIdOf m h head := by
  cases earlier with
  | created index => exact hApart
  | placed m₀ h₀ head₀ =>
    intro hEq
    obtain ⟨rfl, rfl, rfl⟩ := orderIdOf_inj (hSized.trans hHead.symm) hEq
    exact hApart rfl

/-- Every stored order was written under an id of the record. -/
def Recorded (record : List Origin) (s : State) : Prop :=
  ∀ id ∈ s.order, ∃ x ∈ record, x.id = id ∧ x.Sized

/-- New ids may be recorded. -/
theorem Recorded.append {record new : List Origin} {s s' : State} (h : Recorded record s)
    (hNew : ∀ id ∈ s'.order, id ∈ s.order ∨ ∃ x ∈ new, x.id = id ∧ x.Sized) :
    Recorded (record ++ new) s' := by
  intro id hid
  rcases hNew id hid with hOld | ⟨x, hx, hId⟩
  · obtain ⟨x, hx, hId⟩ := h id hOld
    exact ⟨x, List.mem_append_left _ hx, hId⟩
  · exact ⟨x, List.mem_append_right _ hx, hId⟩

/-- Every step records the id it writes. -/
theorem step_recorded (hLaw : k.sdk.Lawful) {record : List Origin} {s : State} (op : Op)
    (h : Recorded record s) :
    Recorded (record ++ k.accepted origins s op) (k.step s op) := by
  refine step_accepted (P := fun new s' => Recorded (record ++ new) s') op ?_ ?_ ?_
  · simpa using h
  · rintro ctx msg s' r - hHandle
    have hEffect := handle_effect hHandle
    cases hEffect with
    | @createOrder _ msg _ =>
      refine h.append ?_
      intro id hid
      rcases Store.mem_insert.mp hid with rfl | hOld
      · exact .inr ⟨_, List.mem_singleton_self _, rfl, trivial⟩
      · exact .inl hOld
    | @updateOrder _ msg old hOld _ =>
      refine h.append fun id hid => .inl ?_
      rcases Store.mem_insert.mp hid with rfl | hMem
      · exact Store.mem_iff.mpr ⟨old, hOld⟩
      · exact hMem
    | deleteOrder => exact h.append fun id hid => .inl (Store.mem_erase.mp hid).2
    | placeOrder hPlaced =>
      refine h.append ?_
      intro id hid
      rcases (matchOrders_mem_order hLaw hPlaced.matched).mp hid with rfl | hOld
      · exact .inr ⟨_, List.mem_singleton_self _, rfl, creatorHead_length hPlaced.creator⟩
      · exact .inl hOld
    | cleanOrders limit => exact h.append fun id hid => .inl (purge_mem_order s limit id hid)
    | _ => exact h.append fun id hid => .inl hid
  · rintro -
    exact h.append fun id hid => .inl (purge_mem_order s 5 id hid)

/-- In every state all orders have recorded ids. -/
theorem reach_recorded (hLaw : k.sdk.Lawful) (bank : Bank) (ops : List Op) :
    Recorded (k.origins (State.empty bank) ops) (k.reach bank ops) := by
  have hInit : Recorded [] (State.empty bank) := by
    intro id hid
    simp [State.empty] at hid
  exact Run.exec_trace (fun _ _ op h => step_recorded hLaw op h) ops hInit

-- ---------------------------------------------------------------------------
-- Fresh ids, and taken ones
-- ---------------------------------------------------------------------------

/-- The order of an accepted placement is stored under its id. -/
theorem placeOrder_mem_order (hLaw : k.sdk.Lawful) {ctx : Context} {s s' : State}
    {msg : MsgPlaceOrder} {r : Response} (h : k.placeOrder ctx s msg = .ok (s', r)) :
    msg.orderId ctx.height ∈ s'.order := by
  obtain ⟨-, _, _, _, _, hPlaced⟩ := placeOrder_eq_ok h
  exact (matchOrders_mem_order hLaw hPlaced.matched).mpr (.inl rfl)

/-- The id an accepted placement uses is free when no earlier accepted message
of the run wrote an order under it: none placed an order with the same market,
height and head, and none created an order of that index. Two placements for one
market and at one height, by creators with the same first six characters, always
use the same id, so the second one finds the order of the first under it. -/
theorem placed_orders_fresh (hLaw : k.sdk.Lawful) :
    (∀ (bank : Bank) (pre : List Op) (ctx : Context) (msg : MsgPlaceOrder) (s' : State)
      (r : Response),
      (∀ x ∈ k.origins (State.empty bank) pre,
        x.Apart (.placed msg.marketId ctx.height (creatorHead msg.creator))) →
      k.placeOrder ctx (k.reach bank pre) msg = .ok (s', r) →
      msg.orderId ctx.height ∉ (k.reach bank pre).order) ∧
    (∀ (s s₁ : State) (ctx ctx' : Context) (msg msg' : MsgPlaceOrder) (r : Response),
      creatorHead msg.creator = creatorHead msg'.creator →
      msg.marketId = msg'.marketId → ctx.height = ctx'.height →
      k.placeOrder ctx s msg = .ok (s₁, r) → msg'.orderId ctx'.height ∈ s₁.order) := by
  constructor
  · intro bank pre ctx msg s' r hApart hOk hMem
    -- the order under the id was written by an earlier message
    obtain ⟨x, hx, hId, hSized⟩ := reach_recorded hLaw bank pre _ hMem
    obtain ⟨-, _, _, _, _, hPlaced⟩ := placeOrder_eq_ok hOk
    exact (hApart x hx).id_ne hSized (creatorHead_length hPlaced.creator) hId
  · intro s s₁ ctx ctx' msg msg' r hHead hMarket hHeight hOk
    have hMem := placeOrder_mem_order hLaw hOk
    rwa [MsgPlaceOrder.orderId, hHead, hMarket, hHeight] at hMem

namespace Sample

open Ganc.Sample

/-- Alice's order rests in the book. -/
def aliceRests : List Op :=
  [register carol "uatom" "uusdt", place 2 alice "SELL" "5" "10"]

def bobsOrder : MsgPlaceOrder := order bob "SELL" "6" "10"

end Sample

open Ganc.Dex.Sample in
/-- Bob places an order at another height. -/
theorem placed_orders_fresh_sample :
    bobsOrder.orderId 3 ∉ (keeper.reach bank aliceRests).order :=
  (placed_orders_fresh Sdk.sample_lawful (k := keeper)).1 bank aliceRests (block 3) bobsOrder
    (keeper.step (keeper.reach bank aliceRests) (.deliver (block 3) (.placeOrder bobsOrder)))
    (.placeOrder (bobsOrder.orderId 3)) (by decide +kernel) (by rfl)

open Ganc.Dex.Sample Ganc.Sample in
/-- **A placed order is lost.** Bob's order is accepted at the height of
Alice's, under the id of Alice's order, and her record is gone while her entry
is still in the book. -/
theorem placed_order_lost :
    response (keeper.placeOrder (block 2) (keeper.reach bank aliceRests) bobsOrder) =
        .ok (.placeOrder (bobsOrder.orderId 2)) ∧
      (keeper.reach bank aliceRests).order[bobsOrder.orderId 2]?.map Order.creator = some alice ∧
      (keeper.reach bank (aliceRests ++ [place 2 bob "SELL" "6" "10"])).order.toList.map
        (fun kv => (kv.1, kv.2.creator)) = [(bobsOrder.orderId 2, bob)] ∧
      (keeper.reach bank (aliceRests ++ [place 2 bob "SELL" "6" "10"])).orderbook.toList.map
        (fun kv => kv.2.price) = ["5", "6"] := by
  decide +kernel

end Ganc.Dex
