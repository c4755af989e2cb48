import Ganc.Dex.Book

/-!
# x/dex — what an order in the book was placed as

The book keeps the order id of an entry, and the records behind the id can be
rewritten. What an order was placed as is in the run: `history` records each
accepted `PlaceOrder` with the market record it read, and `placedAs` is the
last one under an id. `placedAs_step` carries a relation between entries and
their placements over a step.
-/

namespace Ganc.Dex

variable {k : Keeper}

/-- An accepted `PlaceOrder`: its id, and the market record it found. -/
structure Placement where
  orderId : String
  msg : MsgPlaceOrder
  market : Market

def placementOf (s : State) (ctx : Context) : Msg → List Placement
  | .placeOrder msg => s.market[msg.marketId]?.toList.map fun market =>
      ⟨msg.orderId ctx.height, msg, market⟩
  | _ => []

/-- What an observer of the placements records at a step. -/
def Keeper.placements (k : Keeper) (s : State) (op : Op) : List Placement :=
  k.accepted (placementOf s) s op

/-- The placements of a run from empty stores. -/
abbrev Keeper.history (k : Keeper) (bank : Bank) (ops : List Op) : List Placement :=
  Run.trace k.step k.placements (State.empty bank) ops

/-- The last placement under the id. -/
def placedAs (h : List Placement) (id : String) : Option Placement :=
  (h.filter fun p => p.orderId = id).getLast?

/-- The last placement under an id is the one that counts. -/
theorem placedAs_snoc (h : List Placement) (p : Placement) (id : String) :
    placedAs (h ++ [p]) id = if p.orderId = id then some p else placedAs h id := by
  unfold placedAs
  rw [List.filter_append]
  split
  next hId => rw [List.filter_singleton, decide_eq_true hId]; exact List.getLast?_concat
  next hId => rw [List.filter_singleton, decide_eq_false hId]; simp

/-- A step either places an order or adds no entry to the book. -/
theorem placements_step (k : Keeper) (s : State) (op : Op) :
    (k.placements s op = [] ∧ BookLE (k.step s op) s) ∨
      ∃ ctx msg market quantity coins bank, op = .deliver ctx (.placeOrder msg) ∧
        k.placements s op = [⟨msg.orderId ctx.height, msg, market⟩] ∧
        Placed k ctx s msg market quantity coins bank (k.step s op) := by
  refine step_accepted (k := k) (f := placementOf s)
    (P := fun new s' => (new = [] ∧ BookLE s' s) ∨
      ∃ ctx msg market quantity coins bank, op = .deliver ctx (.placeOrder msg) ∧
        new = [⟨msg.orderId ctx.height, msg, market⟩] ∧
        Placed k ctx s msg market quantity coins bank s') op (.inl ⟨rfl, .refl s⟩) ?_ ?_
  · intro ctx msg s' r hOp hHandle
    cases msg with
    | placeOrder msg =>
      obtain ⟨-, market, quantity, coins, bank, hPlaced⟩ := placeOrder_eq_ok hHandle
      refine .inr ⟨ctx, msg, market, quantity, coins, bank, hOp, ?_, hPlaced⟩
      simp only [placementOf, hPlaced.listed, Option.toList_some, List.map_cons, List.map_nil]
    | cleanOrders msg =>
      cases handle_effect hHandle with
      | rejected => exact .inl ⟨rfl, .refl s⟩
      | cleanOrders limit => exact .inl ⟨rfl, purge_bookLE s limit⟩
    | _ => cases handle_effect hHandle <;> exact .inl ⟨rfl, .refl s⟩
  · intro _
    exact .inl ⟨rfl, purge_bookLE s 5⟩

/-- `R` relates each entry of the book to the last placement of its order. -/
def PlacedBy (R : Placement → Orderbook → Prop) (h : List Placement) (s : State) : Prop :=
  ∀ (kk : String) (e : Orderbook), s.orderbook[kk]? = some e →
    ∃ p, placedAs h e.orderId = some p ∧ R p e

/-- What is true of all placed entries stays true while entries only go. -/
theorem PlacedBy.mono {R R' : Placement → Orderbook → Prop} {h : List Placement} {s s' : State}
    (hPlaced : PlacedBy R h s) (hLE : BookLE s' s)
    (hR : ∀ (kk : String) (e : Orderbook) (p : Placement), s.orderbook[kk]? = some e →
      placedAs h e.orderId = some p → R p e → R' p e) : PlacedBy R' h s' := by
  intro kk e he
  obtain ⟨p, hp, hRel⟩ := hPlaced kk e (hLE kk e he)
  exact ⟨p, hp, hR kk e p (hLE kk e he) hp hRel⟩

/-- A placed order is related to its own entry, and to those of its id that are in
the book already. -/
theorem PlacedBy.placed {R : Placement → Orderbook → Prop} {h : List Placement} {s s' : State}
    {ctx : Context} {msg : MsgPlaceOrder} {market : Market} {quantity : Int} {coins : Coins}
    {bank : Bank} (hPlacedBy : PlacedBy R h s)
    (hPlaced : Placed k ctx s msg market quantity coins bank s')
    (hOwn : R ⟨msg.orderId ctx.height, msg, market⟩
      (restingEntry msg.toOrder (msg.orderId ctx.height)))
    (hReuse : ∀ (kk : String) (e : Orderbook) (p : Placement), s.orderbook[kk]? = some e →
      e.orderId = msg.orderId ctx.height → R p e → R ⟨msg.orderId ctx.height, msg, market⟩ e) :
    PlacedBy R (h ++ [⟨msg.orderId ctx.height, msg, market⟩]) s' := by
  intro kk e he
  rw [placedAs_snoc]
  rcases matchOrders_book_cases hPlaced.matched he with hOld | ⟨rfl, -⟩
  · obtain ⟨p, hp, hRel⟩ := hPlacedBy kk e hOld
    split
    next hId => exact ⟨_, rfl, hReuse kk e p hOld hId.symm hRel⟩
    next => exact ⟨p, hp, hRel⟩
  · exact ⟨_, if_pos rfl, hOwn⟩

end Ganc.Dex
