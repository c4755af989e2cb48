import Ganc.Dex.Agreement
import Ganc.Dex.Sample

/-!
# x/dex — the life of an order on a well-formed run

A well-formed run registers pairs, places orders with a proper side, quantity
and price, purges and ends blocks, and no market accepts two orders at one
height. Along such a run orders and entries agree (`Agree`), and a stored
order only ever loses remaining quantity (`Evolved`): once it is filled or cut
short it does not change any more, and only a filled order is ever removed.

The second half needs the ids of the run: an id that was used once belongs to
a market and a height that the run does not use again (`Issued`), so an order
that is gone does not come back.
-/

namespace Ganc.Dex

variable {k : Keeper}

-- ---------------------------------------------------------------------------
-- Well-formed runs
-- ---------------------------------------------------------------------------

structure WellFormed (k : Keeper) (msg : MsgPlaceOrder) : Prop where
  side : msg.side = "BUY" ∨ msg.side = "SELL"
  quantity : k.Positive msg.quantity
  price : msg.price = "0" ∨ k.Positive msg.price

/-- What the agreement of orders and entries needs of a placed order: its price may be
written in any way, and be zero. -/
structure Regular (k : Keeper) (msg : MsgPlaceOrder) : Prop where
  side : msg.side = "BUY" ∨ msg.side = "SELL"
  quantity : k.Positive msg.quantity
  price : ∃ p, k.sdk.newIntFromString msg.price = some p ∧ 0 ≤ p

/-- A well-formed order is a regular one. -/
theorem WellFormed.regular (hLaw : k.sdk.Lawful) {msg : MsgPlaceOrder} (h : WellFormed k msg) :
    Regular k msg := by
  refine ⟨h.side, h.quantity, ?_⟩
  rcases h.price with hZero | ⟨p, hp, hPos⟩
  · exact ⟨0, by rw [hZero, hLaw.newInt_zero], le_refl 0⟩
  · exact ⟨p, hp, by omega⟩

instance (msg : MsgPlaceOrder) : Decidable (WellFormed k msg) :=
  decidable_of_iff ((msg.side = "BUY" ∨ msg.side = "SELL") ∧ k.Positive msg.quantity ∧
      (msg.price = "0" ∨ k.Positive msg.price))
    ⟨fun ⟨hSide, hQuantity, hPrice⟩ => ⟨hSide, hQuantity, hPrice⟩,
      fun h => ⟨h.side, h.quantity, h.price⟩⟩

def WellFormedOp (k : Keeper) : Op → Prop
  | .deliver _ (.registerPairs msg) =>
    k.sdk.validateDenom msg.baseDenom ∧ k.sdk.validateDenom msg.quoteDenom
  | .deliver _ (.placeOrder msg) => WellFormed k msg
  | .deliver _ (.cleanOrders _) => True
  | .endBlock => True
  | _ => False

/-- The operations of a run on which orders and entries agree, whatever its markets are
called. -/
def RegularOp (k : Keeper) : Op → Prop
  | .deliver _ (.placeOrder msg) => Regular k msg
  | .deliver _ (.registerPairs _) | .deliver _ (.cleanOrders _) => True
  | .endBlock => True
  | _ => False

theorem WellFormedOp.regular (hLaw : k.sdk.Lawful) {op : Op} (h : WellFormedOp k op) :
    RegularOp k op := by
  unfold WellFormedOp at h
  split at h
  · trivial
  · exact WellFormed.regular hLaw h
  · trivial
  · trivial
  · exact h.elim

instance (msg : MsgPlaceOrder) : Decidable (Regular k msg) :=
  decidable_of_iff ((msg.side = "BUY" ∨ msg.side = "SELL") ∧ k.Positive msg.quantity ∧
      (k.sdk.newIntFromString msg.price).any fun p => decide (0 ≤ p))
    ⟨fun h => ⟨h.1, h.2.1, by simpa [Option.any_eq_true] using h.2.2⟩,
      fun h => ⟨h.side, h.quantity, by simpa [Option.any_eq_true] using h.price⟩⟩

instance : DecidablePred (WellFormedOp k)
  | .deliver _ (.registerPairs _) => inferInstanceAs (Decidable (_ ∧ _))
  | .deliver _ (.placeOrder msg) => inferInstanceAs (Decidable (WellFormed k msg))
  | .deliver _ (.cleanOrders _) | .endBlock => isTrue trivial
  | .deliver _ (.updateParams _) | .deliver _ (.createMarket _) | .deliver _ (.updateMarket _)
  | .deliver _ (.deleteMarket _) | .deliver _ (.createOrder _) | .deliver _ (.updateOrder _)
  | .deliver _ (.deleteOrder _) => isFalse id

instance : DecidablePred (RegularOp k)
  | .deliver _ (.placeOrder msg) => inferInstanceAs (Decidable (Regular k msg))
  | .deliver _ (.registerPairs _) | .deliver _ (.cleanOrders _) | .endBlock => isTrue trivial
  | .deliver _ (.updateParams _) | .deliver _ (.createMarket _) | .deliver _ (.updateMarket _)
  | .deliver _ (.deleteMarket _) | .deliver _ (.createOrder _) | .deliver _ (.updateOrder _)
  | .deliver _ (.deleteOrder _) => isFalse id

/-- The market and the height of a placed order. -/
def slots (ctx : Context) : Msg → List (String × Nat)
  | .placeOrder msg => [(msg.marketId, ctx.height)]
  | _ => []

/-- The markets and heights of the orders a run accepts. -/
abbrev Keeper.slots (k : Keeper) (s : State) (ops : List Op) : List (String × Nat) :=
  Run.trace k.step (k.accepted Dex.slots) s ops

structure WellFormedRun (k : Keeper) (bank : Bank) (ops : List Op) : Prop where
  op : ∀ op ∈ ops, WellFormedOp k op
  slots : (k.slots (State.empty bank) ops).Nodup

/-- The id of an order placed in one of the slots. -/
def Issued (record : List (String × Nat)) (id : String) : Prop :=
  ∃ slot ∈ record, ∃ head, head.toList.length = 6 ∧ id = orderIdOf slot.1 slot.2 head

/-- An id once issued stays issued. -/
theorem Issued.append {record new : List (String × Nat)} {id : String} (h : Issued record id) :
    Issued (record ++ new) id := by
  obtain ⟨slot, hMem, hHead⟩ := h
  exact ⟨slot, List.mem_append_left _ hMem, hHead⟩

/-- A slot that is new gives an id that has not been issued. -/
theorem not_issued {record : List (String × Nat)} {msg : MsgPlaceOrder} {height : Nat}
    (hNodup : (record ++ [(msg.marketId, height)]).Nodup)
    (hCreator : 6 ≤ msg.creator.toList.length) : ¬ Issued record (msg.orderId height) := by
  rintro ⟨⟨m, n⟩, hMem, head, hHead, hId⟩
  obtain ⟨rfl, rfl, -⟩ := orderIdOf_inj ((creatorHead_length hCreator).trans hHead.symm) hId
  exact (List.nodup_append.mp hNodup).2.2 _ hMem _ (List.mem_singleton_self _) rfl

-- ---------------------------------------------------------------------------
-- What becomes of an order
-- ---------------------------------------------------------------------------

/-- What a later record of an order has to do with an earlier one. -/
structure Evolved (k : Keeper) (o o' : Order) : Prop where
  creator : o'.creator = o.creator
  marketId : o'.marketId = o.marketId
  side : o'.side = o.side
  price : o'.price = o.price
  quantity : o'.quantity = o.quantity
  remaining : ∃ r r', k.sdk.newIntFromString o.remaining = some r ∧
    k.sdk.newIntFromString o'.remaining = some r' ∧ r' ≤ r
  final : o.status ≠ "PARTIAL" → o' = o

theorem Evolved.refl {o : Order} {q r : Int} (h : o.Live k q r) : Evolved k o o :=
  ⟨rfl, rfl, rfl, rfl, rfl, ⟨r, r, h.remaining, h.remaining, le_refl r⟩, fun _ => rfl⟩

theorem Evolved.trans {a b c : Order} (hab : Evolved k a b) (hbc : Evolved k b c) :
    Evolved k a c := by
  obtain ⟨r, r', hr, hr', hle⟩ := hab.remaining
  obtain ⟨r₁, r₂, hr₁, hr₂, hle'⟩ := hbc.remaining
  obtain rfl : r' = r₁ := Option.some.inj (hr'.symm.trans hr₁)
  refine ⟨hbc.creator.trans hab.creator, hbc.marketId.trans hab.marketId,
    hbc.side.trans hab.side, hbc.price.trans hab.price, hbc.quantity.trans hab.quantity,
    ⟨r, r₂, hr, hr₂, by omega⟩, ?_⟩
  intro hFinal
  obtain rfl := hab.final hFinal
  exact hbc.final hFinal

/-- Every order of `s` is still in `s'`, later. -/
def Kept (k : Keeper) (s s' : State) : Prop :=
  ∀ (id : String) (o : Order), s.order[id]? = some o →
    ∃ o', s'.order[id]? = some o' ∧ Evolved k o o'

/-- While the orders stay, every order is kept. -/
theorem Agree.kept_of_order {s s' : State} (h : Agree k s) (hOrder : s'.order = s.order) :
    Kept k s s' := by
  intro id o ho
  obtain ⟨q, r, hLive⟩ := h.order id o ho
  exact ⟨o, hOrder ▸ ho, .refl hLive⟩

theorem Kept.trans {a b c : State} (hab : Kept k a b) (hbc : Kept k b c) : Kept k a c := by
  intro id o ho
  obtain ⟨o₁, ho₁, hEv₁⟩ := hab id o ho
  obtain ⟨o₂, ho₂, hEv₂⟩ := hbc id o₁ ho₁
  exact ⟨o₂, ho₂, hEv₁.trans hEv₂⟩

/-- A fill keeps every order: it only goes on with its life. -/
theorem Agree.kept_fill (hLaw : k.sdk.Lawful) {s s' : State} (h : Agree k s) {taker : Order}
    {takerId : String} {market : Market} {entry : Orderbook} {rem left r p n : Int}
    {maker : Order} (hEntry : s.orderbook[entry.key]? = some entry)
    (hFilled : Filled k taker takerId market entry rem s maker r p n left s') :
    Kept k s s' := by
  obtain ⟨o, q, r', ho, hPartial, -, hLive, -⟩ := h.maker hEntry
  obtain rfl : o = maker := Option.some.inj (ho.symm.trans (hFilled.maker_stored hLaw))
  obtain rfl : r' = r := Option.some.inj (hLive.remaining.symm.trans hFilled.remaining)
  have hq := hFilled.qty
  have hq0 := hFilled.qty_nonneg
  have hLive' := hLive.makerAfter hLaw hPartial hq0 (by omega)
  intro id o' ho'
  by_cases hId : id = entry.orderId
  · rw [hId, ho] at ho'
    obtain rfl := Option.some.inj ho'
    refine ⟨makerAfter o r' n, hId ▸ hFilled.stored_after, ?_⟩
    exact ⟨rfl, rfl, rfl, rfl, rfl, ⟨r', r' - n, hLive.remaining, hLive'.remaining, by omega⟩,
      fun hFinal => absurd hPartial hFinal⟩
  · obtain ⟨q', r₁, hLive₁⟩ := h.order id o' ho'
    exact ⟨o', (hFilled.stored_other hId).trans ho', .refl hLive₁⟩

-- ---------------------------------------------------------------------------
-- A placed order
-- ---------------------------------------------------------------------------

/-- The record of a well-formed order once its fills are done. -/
theorem Regular.takerAfter_live (hLaw : k.sdk.Lawful) {msg : MsgPlaceOrder} {q left : Int}
    {status : String} (h : Regular k msg)
    (hQuantity : k.sdk.newIntFromString msg.quantity = some q) (h0 : 0 ≤ left) (hle : left ≤ q)
    (hStatus : status = statusOf msg.toOrder.orderType left) :
    (takerAfter msg.toOrder left status).Live k q left where
  side := h.side
  price := h.price
  orderType := rfl
  quantity := hQuantity
  remaining := hLaw.newInt_toString ((hLaw.newInt_fits hQuantity).of_le h0 hle)
  nonneg := h0
  le := hle
  status := hStatus

/-- The key that a placed order would rest under is not in use. -/
theorem Agree.resting_free (hLaw : k.sdk.Lawful) {s : State} {msg : MsgPlaceOrder}
    {takerId : String} (h : Agree k s) (hMsg : Regular k msg)
    (hNamed : PlacedId msg.marketId takerId) (hFresh : takerId ∉ s.order) :
    s.orderbook[(restingEntry msg.toOrder takerId).key]? = none := by
  obtain ⟨q, hq, hPos⟩ := hMsg.quantity
  have hLive : (takerAfter msg.toOrder q (statusOf msg.toOrder.orderType q)).Live k q q :=
    hMsg.takerAfter_live hLaw hq (Int.le_of_lt hPos) (le_refl q) rfl
  have hFree := h.restingEntry_fresh hLaw hLive hNamed hFresh
  exact hFree

/-- The taker's record and entry keep orders and book in agreement. -/
theorem Agree.finalize (hLaw : k.sdk.Lawful) {s s' : State} {msg : MsgPlaceOrder}
    {takerId : String} {market : Market} {q left : Int} (h : Agree k s) (hMsg : Regular k msg)
    (hNamed : PlacedId msg.marketId takerId)
    (hQuantity : k.sdk.newIntFromString msg.quantity = some q) (h0 : 0 ≤ left) (hle : left ≤ q)
    (hFresh : takerId ∉ s.order) (hEnd : Finalized k msg.toOrder takerId market left s s') :
    Agree k s' ∧ Kept k s s' := by
  have hLive : ∀ status, status = statusOf msg.toOrder.orderType left →
      (takerAfter msg.toOrder left status).Live k q left :=
    fun _ => hMsg.takerAfter_live hLaw hQuantity h0 hle
  have hKept : ∀ {s₁ : State} {o : Order}, s₁.order = s.order.insert takerId o → Kept k s s₁ := by
    intro s₁ o hOrder id o' ho'
    obtain ⟨q', r', hLive'⟩ := h.order id o' ho'
    refine ⟨o', ?_, .refl hLive'⟩
    have hne : id ≠ takerId := fun hId => hFresh (hId ▸ Store.mem_iff.mpr ⟨o', ho'⟩)
    rw [hOrder, Store.get?_insert_ne hne, ho']
  cases hEnd with
  | filled hLeft =>
    have hDone := hLive "FILLED" (by rw [statusOf, if_pos hLeft])
    refine ⟨h.insert_done hDone hNamed hFresh ?_, hKept rfl⟩
    exact show "FILLED" ≠ "PARTIAL" by decide
  | cancelled hLeft hMarket bank _ =>
    have hDone := hLive "CANCELLED_PARTIAL" (by
      rw [statusOf, if_neg hLeft, if_pos hMarket])
    have hAgree : Agree k { s with bank := bank } := h.of_stores rfl rfl
    refine ⟨hAgree.insert_done hDone hNamed hFresh ?_, hKept rfl⟩
    exact show "CANCELLED_PARTIAL" ≠ "PARTIAL" by decide
  | resting hLeft hLimit =>
    have hRests := hLive "PARTIAL" (by rw [statusOf, if_neg hLeft, if_neg hLimit])
    exact ⟨h.insert_resting hLaw hRests hNamed hFresh rfl, hKept rfl⟩

/-- The state in which the fills of a placed order end, and how it ends. -/
theorem Agree.matched (hLaw : k.sdk.Lawful) {ctx : Context} {s s' : State} {msg : MsgPlaceOrder}
    {market : Market} {quantity : Int} {coins : Coins} {bank : Bank} {I : Int → State → Prop}
    (h : Agree k s) (hMsg : Regular k msg)
    (hPlaced : Placed k ctx s msg market quantity coins bank s')
    (hFills : FillsKeep k msg.toOrder (msg.orderId ctx.height) market I)
    (hI : I quantity { s with bank := bank }) :
    ∃ rest left s₁, Looping k msg.toOrder I { s with bank := bank } quantity rest left s₁ ∧
      Finalized k msg.toOrder (msg.orderId ctx.height) market left s₁ s' := by
  have h₀ : Agree k { s with bank := bank } := h.of_stores rfl rfl
  obtain ⟨cs, rem, left, s₁, hMem, hSub, hRem, hLoop, hEnd⟩ := matchOrders_eq_ok hPlaced.matched
  obtain rfl : quantity = rem := Option.some.inj (hPlaced.parsed.symm.trans hRem)
  obtain ⟨q, hq, hPos⟩ := hMsg.quantity
  obtain rfl : q = quantity := Option.some.inj (hq.symm.trans hPlaced.parsed)
  have hStart := h₀.looping hMem hSub (Int.le_of_lt hPos) hI
  obtain ⟨rest, hDone⟩ := hStart.loop hLaw hFills hLoop
  exact ⟨rest, left, s₁, hDone, hEnd⟩

/-- A regular order that is placed keeps orders and book in agreement. -/
theorem Agree.placed (hLaw : k.sdk.Lawful) {ctx : Context} {s s' : State} {msg : MsgPlaceOrder}
    {market : Market} {quantity : Int} {coins : Coins} {bank : Bank} (h : Agree k s)
    (hMsg : Regular k msg) (hFresh : msg.orderId ctx.height ∉ s.order)
    (hPlaced : Placed k ctx s msg market quantity coins bank s') :
    Agree k s' ∧ Kept k s s' := by
  have h₀ : Agree k { s with bank := bank } := h.of_stores rfl rfl
  let I : Int → State → Prop := fun _ s₁ => Kept k { s with bank := bank } s₁
  have hFills : FillsKeep k msg.toOrder (msg.orderId ctx.height) market I :=
    fun hAgree hEntry _ _ hFilled hKept => hKept.trans (hAgree.kept_fill hLaw hEntry hFilled)
  obtain ⟨_, left, s₁, hDone, hEnd⟩ := h.matched hLaw hMsg hPlaced hFills (h₀.kept_of_order rfl)
  have hNamed := MsgPlaceOrder.placedId hPlaced.creator ctx.height
  obtain ⟨h₂, hKept₂⟩ := hDone.agree.finalize hLaw hMsg hNamed hPlaced.parsed hDone.nonneg
    hDone.le (fun hIn => hFresh ((hDone.keys _).mp hIn)) hEnd
  exact ⟨h₂, hDone.extra.trans hKept₂⟩

-- ---------------------------------------------------------------------------
-- Steps
-- ---------------------------------------------------------------------------

/-- What a step does to the orders: it changes them as `Evolved` allows,
removes filled ones, and stores new ones under ids not yet issued. -/
structure Progress (k : Keeper) (record : List (String × Nat)) (s s' : State) : Prop where
  kept : ∀ (id : String) (o : Order), s.order[id]? = some o →
    (∃ o', s'.order[id]? = some o' ∧ Evolved k o o') ∨
      (o.status = "FILLED" ∧ s'.order[id]? = none)
  fresh : ∀ id ∈ s'.order, id ∉ s.order → ¬ Issued record id

/-- While the orders stay, nothing becomes of them. -/
theorem Agree.progress_of_order {s s' : State} (h : Agree k s) (record : List (String × Nat))
    (hOrder : s'.order = s.order) : Progress k record s s' where
  kept id o ho := .inl (h.kept_of_order hOrder id o ho)
  fresh _ hid hNew := absurd (hOrder ▸ hid) hNew

/-- A purge removes filled orders only. -/
theorem Agree.progress_purge {s : State} (h : Agree k s) (record : List (String × Nat))
    (limit : Nat) : Progress k record s (Keeper.batchCleanFilledOrders s limit).1 := by
  let P : State → Prop := fun s₁ =>
    (∀ (id : String) (o : Order), s₁.order[id]? = some o → s.order[id]? = some o) ∧
      ∀ (id : String) (o : Order), s.order[id]? = some o →
        s₁.order[id]? = some o ∨ (o.status = "FILLED" ∧ s₁.order[id]? = none)
  have hStep : ∀ s₁ orderId order, s₁.order[orderId]? = some order → order.status = "FILLED" →
      P s₁ → P (purgeOrder s₁ orderId order) := by
    rintro s₁ orderId order hStored hFilled ⟨hSub, hGone⟩
    refine ⟨fun id o ho => hSub id o (Store.get?_of_erase ho).2, fun id o ho => ?_⟩
    by_cases hId : id = orderId
    · subst hId
      obtain rfl : order = o := Option.some.inj ((hSub id order hStored).symm.trans ho)
      exact .inr ⟨hFilled, Std.ExtTreeMap.getElem?_erase_self⟩
    · show (s₁.order.erase orderId)[id]? = some o ∨
        o.status = "FILLED" ∧ (s₁.order.erase orderId)[id]? = none
      rw [Store.get?_erase_ne hId]
      exact hGone id o ho
  obtain ⟨-, hGone⟩ : P (Keeper.batchCleanFilledOrders s limit).1 :=
    purge_induction hStep limit ⟨fun _ _ ho => ho, fun _ _ ho => .inl ho⟩
  refine ⟨?_, fun id hid hNew => absurd (purge_mem_order s limit id hid) hNew⟩
  intro id o ho
  obtain ⟨q, r, hLive⟩ := h.order id o ho
  exact (hGone id o ho).imp (fun ho' => ⟨o, ho', .refl hLive⟩) fun hFilled => hFilled

/-- The invariant of a run that has filled the slots of `record`. -/
structure Alive (k : Keeper) (record : List (String × Nat)) (s : State) : Prop where
  agree : Agree k s
  issued : ∀ id ∈ s.order, Issued record id

/-- Every step of a regular run keeps the orders alive, and only lets them progress. -/
theorem alive_step (hLaw : k.sdk.Lawful) {record : List (String × Nat)} {s : State} {op : Op}
    (hOp : RegularOp k op) (hNodup : (record ++ k.accepted slots s op).Nodup)
    (h : Alive k record s) :
    Alive k (record ++ k.accepted slots s op) (k.step s op) ∧
      Progress k record s (k.step s op) := by
  -- a step that stores no new order
  have hOld : ∀ {new : List (String × Nat)} {s' : State}, Agree k s' → Progress k record s s' →
      (∀ id ∈ s'.order, id ∈ s.order) → Alive k (record ++ new) s' ∧ Progress k record s s' :=
    fun hAgree hProgress hSub =>
      ⟨⟨hAgree, fun id hid => (h.issued id (hSub id hid)).append⟩, hProgress⟩
  have hPurge : ∀ (new : List (String × Nat)) (limit : Nat),
      Alive k (record ++ new) (Keeper.batchCleanFilledOrders s limit).1 ∧
        Progress k record s (Keeper.batchCleanFilledOrders s limit).1 :=
    fun new limit => hOld (h.agree.purges hLaw limit) (h.agree.progress_purge record limit)
      (purge_mem_order s limit)
  revert hNodup
  refine step_accepted (P := fun new s' => (record ++ new).Nodup →
    Alive k (record ++ new) s' ∧ Progress k record s s') op ?_ ?_ ?_
  · exact fun _ => hOld h.agree (h.agree.progress_of_order record rfl) fun _ hid => hid
  · rintro ctx msg s' r rfl hHandle hNodup
    have hEffect := handle_effect hHandle
    cases hEffect with
    | rejected => exact hOld h.agree (h.agree.progress_of_order record rfl) fun _ hid => hid
    | registerPairs =>
      exact hOld (h.agree.of_stores rfl rfl) (h.agree.progress_of_order record rfl)
        fun _ hid => hid
    | cleanOrders limit => exact hPurge _ limit
    | @placeOrder _ msg market quantity coins bank _ hPlaced =>
      have hNew := not_issued hNodup hPlaced.creator
      have hFresh : msg.orderId ctx.height ∉ s.order := fun hid => hNew (h.issued _ hid)
      obtain ⟨hAgree, hKept⟩ := h.agree.placed hLaw hOp hFresh hPlaced
      refine ⟨⟨hAgree, ?_⟩, fun id o ho => .inl (hKept id o ho), ?_⟩
      · intro id hid
        rcases (matchOrders_mem_order hLaw hPlaced.matched).mp hid with rfl | hIn
        · exact ⟨_, List.mem_append_right _ (List.mem_singleton_self _), creatorHead msg.creator,
            creatorHead_length hPlaced.creator, rfl⟩
        · exact (h.issued id hIn).append
      · intro id hid hNot
        rcases (matchOrders_mem_order hLaw hPlaced.matched).mp hid with rfl | hIn
        · exact hNew
        · exact absurd hIn hNot
    | _ => exact hOp.elim
  · rintro rfl -
    exact hPurge _ 5

-- ---------------------------------------------------------------------------
-- Runs
-- ---------------------------------------------------------------------------

/-- Every run of regular steps in new slots keeps the orders alive. -/
theorem alive_run (hLaw : k.sdk.Lawful) {record : List (String × Nat)} {s : State}
    {ops : List Op} (hOps : ∀ op ∈ ops, RegularOp k op)
    (hNodup : (record ++ k.slots s ops).Nodup) (h : Alive k record s) :
    Alive k (record ++ k.slots s ops) (Run.exec k.step s ops) := by
  exact Run.exec_history (P := Alive k) (fun _ _ => List.Nodup.of_append_left)
    (fun _ _ _ hOp hQ hAlive => (alive_step hLaw hOp hQ hAlive).1)
    (Run.steps_of_forall hOps) hNodup h

/-- The chain starts with no orders at all. -/
theorem alive_empty (k : Keeper) (bank : Bank) : Alive k [] (State.empty bank) := by
  constructor
  · constructor <;> intro _ _ h <;> simp [State.empty] at h
  · intro id hid
    simp [State.empty] at hid

/-- An order of a well-formed run, later on: it has evolved, or it is gone,
and then it was not cut short. -/
theorem order_later (hLaw : k.sdk.Lawful) {record : List (String × Nat)} {s : State}
    {ops : List Op} (hOps : ∀ op ∈ ops, WellFormedOp k op)
    (hNodup : (record ++ k.slots s ops).Nodup) (h : Alive k record s) {id : String} {o : Order}
    (ho : s.order[id]? = some o) :
    (∃ o', (Run.exec k.step s ops).order[id]? = some o' ∧ Evolved k o o') ∨
      (o.status ≠ "CANCELLED_PARTIAL" ∧ (Run.exec k.step s ops).order[id]? = none) := by
  let P : List (String × Nat) → State → Prop := fun record s' => Alive k record s' ∧
    Issued record id ∧ ((∃ o', s'.order[id]? = some o' ∧ Evolved k o o') ∨
      (o.status ≠ "CANCELLED_PARTIAL" ∧ s'.order[id]? = none))
  have hStep : ∀ record s' op, WellFormedOp k op → (record ++ k.accepted slots s' op).Nodup →
      P record s' → P (record ++ k.accepted slots s' op) (k.step s' op) := by
    rintro record s' op hOp hQ ⟨hAlive, hIssued, hLater⟩
    obtain ⟨hAlive', hProgress⟩ := alive_step hLaw (hOp.regular hLaw) hQ hAlive
    refine ⟨hAlive', hIssued.append, ?_⟩
    rcases hLater with ⟨o₁, ho₁, hEv⟩ | ⟨hCut, hGone⟩
    · rcases hProgress.kept id o₁ ho₁ with ⟨o₂, ho₂, hEv'⟩ | ⟨hFilled, hGone⟩
      · exact .inl ⟨o₂, ho₂, hEv.trans hEv'⟩
      · refine .inr ⟨?_, hGone⟩
        intro hCut
        -- an order that was cut short is still that order, and not filled
        obtain rfl := hEv.final (by rw [hCut]; decide)
        rw [hCut] at hFilled
        exact absurd hFilled (by decide)
    · refine .inr ⟨hCut, ?_⟩
      by_contra hBack
      have hMem : id ∈ (k.step s' op).order :=
        Decidable.of_not_not fun hNot => hBack (Store.notMem_iff.mp hNot)
      exact hProgress.fresh id hMem (Store.notMem_iff.mpr hGone) hIssued
  obtain ⟨q, r, hLive⟩ := h.agree.order id o ho
  have hInit : P record s := ⟨h, h.issued id (Store.mem_iff.mpr ⟨o, ho⟩), .inl ⟨o, ho, .refl hLive⟩⟩
  exact (Run.exec_history (P := P) (fun _ _ => List.Nodup.of_append_left) hStep
    (Run.steps_of_forall hOps) hNodup hInit).2.2

/-- **The life of an order.** On every well-formed run, of any heights, the
stored orders and the entries of the book are in the state that the remaining
quantities say, one entry for each resting order, and what a record said at an
earlier point of the run binds the record of the same id at the end. -/
theorem order_life_cycle (hLaw : k.sdk.Lawful) {bank : Bank} {pre post : List Op}
    (hRun : WellFormedRun k bank (pre ++ post)) :
    (∀ (id : String) (o : Order), (k.reach bank (pre ++ post)).order[id]? = some o →
      ∃ q r, k.sdk.newIntFromString o.quantity = some q ∧
        k.sdk.newIntFromString o.remaining = some r ∧ 0 ≤ r ∧ r ≤ q ∧
        (o.status = "FILLED" ↔ r = 0) ∧
        (o.status = "CANCELLED_PARTIAL" ↔ o.orderType = "MARKET" ∧ 0 < r) ∧
        (o.status = "PARTIAL" ↔ o.orderType ≠ "MARKET" ∧ 0 < r)) ∧
    (∀ (id : String) (o : Order), (k.reach bank (pre ++ post)).order[id]? = some o →
      (o.status = "PARTIAL" ↔ ∃! kv : String × Orderbook,
        (k.reach bank (pre ++ post)).orderbook[kv.1]? = some kv.2 ∧ kv.2.orderId = id)) ∧
    (∀ (kk : String) (e : Orderbook), (k.reach bank (pre ++ post)).orderbook[kk]? = some e →
      ∃ o, (k.reach bank (pre ++ post)).order[e.orderId]? = some o ∧ e.marketId = o.marketId ∧
        e.side = o.side ∧ e.price = o.price ∧
        kk = orderbookKey o.marketId o.side o.price e.orderId) ∧
    (∀ (id : String) (o : Order), (k.reach bank pre).order[id]? = some o →
      (∀ o', (k.reach bank (pre ++ post)).order[id]? = some o' → Evolved k o o') ∧
      (o.status = "CANCELLED_PARTIAL" →
        (k.reach bank (pre ++ post)).order[id]? = some o)) := by
  have hSlots := hRun.slots
  have hOps : ∀ op ∈ pre ++ post, RegularOp k op := fun op hop => (hRun.op op hop).regular hLaw
  have hAll : Alive k (k.slots (State.empty bank) (pre ++ post)) (k.reach bank (pre ++ post)) :=
    alive_run hLaw hOps hSlots (alive_empty k bank)
  rw [Keeper.slots, Run.trace_append] at hSlots
  have hPre : Alive k (k.slots (State.empty bank) pre) (k.reach bank pre) :=
    alive_run hLaw (fun op hop => hOps op (List.mem_append_left _ hop))
      (List.nodup_append.mp hSlots).1 (alive_empty k bank)
  refine ⟨?_, ?_, ?_, ?_⟩
  · intro id o ho
    obtain ⟨q, r, hLive⟩ := hAll.agree.order id o ho
    exact ⟨q, r, hLive.quantity, hLive.remaining, hLive.nonneg, hLive.le, hLive.statuses⟩
  · intro id o ho
    exact hAll.agree.resting_iff ho
  · intro kk e hk
    exact hAll.agree.entry_fields hk
  · intro id o ho
    have hLater := order_later hLaw (fun op hop => hRun.op op (List.mem_append_right _ hop))
      hSlots hPre ho
    rw [← Run.exec_append] at hLater
    rcases hLater with ⟨o', ho', hEv⟩ | ⟨hCut, hGone⟩
    · refine ⟨fun o₁ ho₁ => Option.some.inj (ho'.symm.trans ho₁) ▸ hEv, ?_⟩
      intro hCut
      rw [ho', hEv.final (by rw [hCut]; decide)]
    · refine ⟨?_, fun hCut' => absurd hCut' hCut⟩
      intro o₁ ho₁
      rw [hGone] at ho₁
      cases ho₁

open Ganc.Dex.Sample Ganc.Sample in
/-- Alice's ask before and after Bob takes the rest of it. -/
theorem order_life_cycle_sample :
    ∃ o o', (keeper.reach bank trade).order[orderIdOf "uatom-uusdt" 2 "cosmos"]? = some o ∧
      (keeper.reach bank (trade ++ [place 4 bob "BUY" "5" "5"])).order[
        orderIdOf "uatom-uusdt" 2 "cosmos"]? = some o' ∧ Evolved keeper o o' := by
  have hRun : WellFormedRun keeper bank (trade ++ [place 4 bob "BUY" "5" "5"]) :=
    ⟨by decide +kernel, by decide +kernel⟩
  have hBefore : ((keeper.reach bank trade).order[
      orderIdOf "uatom-uusdt" 2 "cosmos"]?).isSome := by decide +kernel
  have hAfter : ((keeper.reach bank (trade ++ [place 4 bob "BUY" "5" "5"])).order[
      orderIdOf "uatom-uusdt" 2 "cosmos"]?).isSome := by decide +kernel
  obtain ⟨o, ho⟩ := Option.isSome_iff_exists.mp hBefore
  obtain ⟨o', ho'⟩ := Option.isSome_iff_exists.mp hAfter
  exact ⟨o, o', ho, ho', ((order_life_cycle Sdk.sample_lawful hRun).2.2.2 _ o ho).1 o' ho'⟩

end Ganc.Dex
