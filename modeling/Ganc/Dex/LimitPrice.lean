import Ganc.Dex.Placements
import Ganc.Dex.Sample
import Ganc.Dex.Solvency

/-!
# x/dex — limit prices along a run

`MatchOrders` filters its candidates by the price in the book and trades at
the price in the order's record. The two agree as long as every step
`KeepsPrice`: no order message rewrites the price of an order in the book, and
no placed order takes over its record with another price. `limit_price_kept`
is the law for such runs, `limit_price_broken` a run in which the owner of a
resting order raises its price behind the book.
-/

namespace Ganc.Dex

variable {k : Keeper}

-- ---------------------------------------------------------------------------
-- Prices
-- ---------------------------------------------------------------------------

/-- An order record with this price can stand behind the entries that name it: it
has their price, or none that a trade could be made at. -/
def Priced (k : Keeper) (s : State) (id price : String) : Prop :=
  ∀ e ∈ s.entries, e.orderId = id → k.sdk.newIntFromString price = none ∨
    k.sdk.newIntFromString price = k.sdk.newIntFromString e.price

/-- The order messages that are let through leave the price of an order in the
book as it is, and a `PlaceOrder` that uses the id of an order in the book has
its price. -/
def KeepsPrice (k : Keeper) (s : State) : Op → Prop
  | .deliver ctx (.placeOrder msg) =>
    ∀ e ∈ s.entries, e.orderId = msg.orderId ctx.height →
      k.sdk.newIntFromString msg.price = k.sdk.newIntFromString e.price
  | .deliver _ (.createOrder msg) => s.order[msg.index]? = none →
      Priced k s msg.index msg.price
  | .deliver _ (.updateOrder msg) => ∀ old ∈ s.order[msg.index]?, msg.creator = old.creator →
      Priced k s msg.index msg.price
  | _ => True

instance (s : State) : DecidablePred (KeepsPrice k s)
  | .deliver ctx (.placeOrder msg) => inferInstanceAs (Decidable
      (∀ e ∈ s.entries, e.orderId = msg.orderId ctx.height →
        k.sdk.newIntFromString msg.price = k.sdk.newIntFromString e.price))
  | .deliver _ (.createOrder msg) => inferInstanceAs (Decidable
      (s.order[msg.index]? = none → ∀ e ∈ s.entries, e.orderId = msg.index →
        k.sdk.newIntFromString msg.price = none ∨
          k.sdk.newIntFromString msg.price = k.sdk.newIntFromString e.price))
  | .deliver _ (.updateOrder msg) => inferInstanceAs (Decidable
      (∀ old ∈ s.order[msg.index]?, msg.creator = old.creator →
        ∀ e ∈ s.entries, e.orderId = msg.index → k.sdk.newIntFromString msg.price = none ∨
          k.sdk.newIntFromString msg.price = k.sdk.newIntFromString e.price))
  | .deliver _ (.updateParams _) | .deliver _ (.createMarket _) | .deliver _ (.updateMarket _)
  | .deliver _ (.deleteMarket _) | .deliver _ (.deleteOrder _) | .deliver _ (.registerPairs _)
  | .deliver _ (.cleanOrders _) | .endBlock => inferInstanceAs (Decidable True)

-- ---------------------------------------------------------------------------
-- The two copies of a price
-- ---------------------------------------------------------------------------

/-- The record of an order in the book has the price of the entry, or none. -/
def PricesAgree (k : Keeper) (s : State) : Prop :=
  ∀ (kk : String) (e : Orderbook) (o : Order), s.orderbook[kk]? = some e →
    s.order[e.orderId]? = some o → k.sdk.newIntFromString o.price = none ∨
      k.sdk.newIntFromString o.price = k.sdk.newIntFromString e.price

section Step

variable {s s' : State}

theorem PricesAgree.mono (h : PricesAgree k s) (hBook : BookLE s' s)
    (hOrder : ∀ (id : String) (o : Order), s'.order[id]? = some o → s.order[id]? = some o) :
    PricesAgree k s' :=
  fun kk e o he ho => h kk e o (hBook kk e he) (hOrder _ o ho)

/-- An order may be written at the price of its entry. -/
theorem PricesAgree.write (h : PricesAgree k s) {id : String} {o : Order}
    (hPriced : Priced k s id o.price) :
    PricesAgree k { s with order := s.order.insert id o } := by
  intro kk e o' he ho
  rw [Store.get?_insert] at ho
  split at ho
  next hId =>
    obtain rfl := Option.some.inj ho
    exact hPriced e (mem_entries.mpr ⟨kk, he⟩) hId
  next => exact h kk e o' he ho

/-- A placed order gets an entry of its own price. -/
theorem PricesAgree.placed (hLaw : k.sdk.Lawful) {ctx : Context} {msg : MsgPlaceOrder}
    {market : Market} {quantity : Int} {coins : Coins} {bank : Bank} (h : PricesAgree k s)
    (hKeeps : KeepsPrice k s (.deliver ctx (.placeOrder msg)))
    (hPlaced : Placed k ctx s msg market quantity coins bank s') : PricesAgree k s' := by
  intro kk e o he ho
  rcases matchOrders_book_cases hPlaced.matched he with hOld | ⟨rfl, -⟩
  · rcases matchOrders_terms hLaw hPlaced.matched ho with
      ⟨hId, -, -, hPrice, -⟩ | ⟨-, o₀, ho₀, -, -, hPrice, -⟩
    · have hSame : o.price = msg.price := hPrice
      rw [hSame]
      exact .inr (hKeeps e (mem_entries.mpr ⟨kk, hOld⟩) hId)
    · rw [hPrice]
      exact h kk e o₀ hOld ho₀
  · rcases matchOrders_terms hLaw hPlaced.matched ho with ⟨-, -, -, hPrice, -⟩ | ⟨hne, -⟩
    · exact .inr (congrArg k.sdk.newIntFromString hPrice)
    · exact absurd rfl hne

/-- Every step that keeps the prices keeps orders and entries at one price. -/
theorem pricesAgree_step (hLaw : k.sdk.Lawful) (s : State) (op : Op) (hKeeps : KeepsPrice k s op)
    (h : PricesAgree k s) : PricesAgree k (k.step s op) := by
  have hEffect := step_effect k s op
  generalize k.step s op = s' at hEffect ⊢
  cases hEffect with
  | createOrder hFresh => exact h.write (hKeeps hFresh)
  | updateOrder hOld hOwner => exact h.write (hKeeps _ hOld hOwner)
  | deleteOrder =>
    exact h.mono (.refl s) fun id o ho => (Store.get?_of_erase ho).2
  | placeOrder hPlaced => exact h.placed hLaw hKeeps hPlaced
  | cleanOrders limit =>
    exact h.mono (purge_bookLE s limit) fun _ _ ho => purge_order_subset s limit ho
  | endBlock => exact h.mono (purge_bookLE s 5) fun _ _ ho => purge_order_subset s 5 ho
  | _ => exact h

end Step

/-- The entry has the price its order was placed with. -/
def AtPlacedPrice (k : Keeper) (p : Placement) (e : Orderbook) : Prop :=
  k.sdk.newIntFromString p.msg.price = k.sdk.newIntFromString e.price

/-- What a run keeps, with the placements `h` made so far. -/
structure Honest (k : Keeper) (h : List Placement) (s : State) : Prop where
  agree : PricesAgree k s
  placed : PlacedBy (AtPlacedPrice k) h s

/-- Every step that keeps the prices keeps the entries at the placed price. -/
theorem honest_step (hLaw : k.sdk.Lawful) (h : List Placement) (s : State) (op : Op)
    (hKeeps : KeepsPrice k s op) (hHonest : Honest k h s) :
    Honest k (h ++ k.placements s op) (k.step s op) := by
  refine ⟨pricesAgree_step hLaw s op hKeeps hHonest.agree, ?_⟩
  rcases placements_step k s op with
    ⟨hNone, hLE⟩ | ⟨ctx, msg, market, quantity, coins, bank, rfl, hOne, hPlaced⟩
  · rw [hNone, List.append_nil]
    exact hHonest.placed.mono hLE fun _ _ _ _ _ hPrice => hPrice
  · rw [hOne]
    exact hHonest.placed.placed hPlaced rfl fun kk e _ he hId _ =>
      hKeeps e (mem_entries.mpr ⟨kk, he⟩) hId

/-- In every run that keeps the prices, entries and orders are at the placed price. -/
theorem honest_reach (hLaw : k.sdk.Lawful) {bank : Bank} {ops : List Op}
    (hRun : Run.Steps k.step (k.Accepting (KeepsPrice k)) (State.empty bank) ops) :
    Honest k (k.history bank ops) (k.reach bank ops) := by
  have hEmpty : Honest k [] (State.empty bank) := by
    constructor
    · intro kk e o he
      simp [State.empty] at he
    · intro kk e he
      simp [State.empty] at he
  have hStep : ∀ h s op, k.Accepting (KeepsPrice k) s op → True → Honest k h s →
      Honest k (h ++ k.placements s op) (k.step s op) := by
    intro h s op hAccepting _ hHonest
    rcases hAccepting.cases with hKeeps | ⟨ctx, msg, e, rfl, hRejected⟩
    · exact honest_step hLaw h s op hKeeps hHonest
    · rw [Keeper.placements, accepted_of_error hRejected, step_of_error hRejected, List.append_nil]
      exact hHonest
  have hHistory := Run.exec_history (Q := fun _ => True) (fun _ _ _ => trivial) hStep hRun
    trivial hEmpty
  simpa using hHistory

-- ---------------------------------------------------------------------------
-- The law
-- ---------------------------------------------------------------------------

/-- **Limit prices are kept.** After every run whose accepted steps keep the prices of the
orders in the book, each fill of an accepted order is within its limit, and at
the price the maker was placed with. -/
theorem limit_price_kept (hLaw : k.sdk.Lawful) {bank : Bank} {ops : List Op}
    (hRun : Run.Steps k.step (k.Accepting (KeepsPrice k)) (State.empty bank) ops) {ctx : Context}
    {msg : MsgPlaceOrder} {s' : State} {r : Response}
    (hAccepted : k.handle ctx (k.reach bank ops) (.placeOrder msg) = .ok (s', r)) :
    ∃ new, s'.fills = (k.reach bank ops).fills ++ new ∧ ∀ f ∈ new,
      f.takerId = msg.orderId ctx.height ∧
      (orderTypeOf msg.price = "LIMIT" → ∀ limit, k.sdk.newIntFromString msg.price = some limit →
        WithinLimit msg.side limit f.price) ∧
      ∃ p, placedAs (k.history bank ops) f.makerId = some p ∧
        k.sdk.newIntFromString p.msg.price = some f.price := by
  obtain ⟨hAgree, hPlacedBy⟩ := honest_reach hLaw hRun
  obtain ⟨-, market, quantity, coins, bank', hPlaced⟩ := placeOrder_eq_ok hAccepted
  obtain ⟨new, _, hFills, hExecuted, -, -⟩ := matchOrders_fills hLaw hPlaced.matched
  refine ⟨new, hFills, ?_⟩
  intro f hf
  obtain ⟨hTaker, -, -, kk, e, o, he, hComp, hMaker, ho, -, hTraded⟩ := hExecuted f hf
  have hEntry : k.sdk.newIntFromString e.price = some f.price := by
    rcases hAgree kk e o he ho with hNone | hSame
    · rw [hTraded] at hNone
      cases hNone
    · rw [← hSame, hTraded]
  obtain ⟨p, hp, hPrice⟩ := hPlacedBy kk e he
  refine ⟨hTaker, ?_, p, ?_, ?_⟩
  · intro hType limit hLimit
    exact hComp.within hType hLimit hEntry
  · rw [hMaker, hp]
  · rw [hPrice, hEntry]

namespace Sample

open Ganc.Sample

/-- Alice asks 10 for five, and Carol's bid brings money into the module. -/
def asks : List Op :=
  [register carol "uatom" "uusdt", place 2 alice "SELL" "10" "5", place 3 carol "BUY" "2" "200"]

/-- Alice writes 50 into the record of her order. -/
def raises : Op := .deliver (block 4) (.updateOrder ⟨alice, "uatom-uusdt-2-cosmos", "uatom-uusdt",
  "LIMIT", "SELL", "50", "5", "5", "", "", "PARTIAL"⟩)

end Sample

section Sample

open Ganc.Dex.Sample Ganc.Sample

/-- Bob bids 12 where asks rest at less. -/
theorem limit_price_kept_sample : ∃ s' r,
    keeper.handle (block 4) (keeper.reach bank asks) (.placeOrder (order bob "BUY" "12" "5")) =
      .ok (s', r) ∧
    ∃ new, s'.fills = (keeper.reach bank asks).fills ++ new ∧ ∀ f ∈ new, f.price ≤ 12 := by
  obtain ⟨⟨s', r⟩, hAccepted⟩ := Result.exists_of_isOk (x := keeper.handle (block 4)
    (keeper.reach bank asks) (.placeOrder (order bob "BUY" "12" "5"))) (by decide +kernel)
  obtain ⟨new, hFills, hNew⟩ :=
    limit_price_kept Sdk.sample_lawful (by decide +kernel) hAccepted
  refine ⟨s', r, hAccepted, new, hFills, ?_⟩
  intro f hf
  exact ((hNew f hf).2.1 (by decide) 12 (by decide +kernel)).1 rfl

/-- **The limit is broken.** Bob bids 10, which the book still shows, and pays the 50
that Alice has written into her record; her order was placed at 10. -/
theorem limit_price_broken :
    (keeper.reach bank (asks ++ [raises])).fills = [] ∧
    ((keeper.reach bank (asks ++ [raises, place 5 bob "BUY" "10" "5"])).fills.map fun f =>
      (f.taker.side, f.taker.price, f.makerId, f.price)) =
        [("BUY", "10", "uatom-uusdt-2-cosmos", 50)] ∧
    (placedAs (keeper.history bank (asks ++ [raises])) "uatom-uusdt-2-cosmos").map
      (fun p => p.msg.price) = some "10" := by
  decide +kernel

end Sample

end Ganc.Dex
