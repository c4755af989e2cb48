import Ganc.Dex.LifeCycle
import Ganc.Dex.Solvency

/-!
# x/dex — orders in different markets

All markets share the two stores and the module account, and a match walks over
the whole book. Yet an order of one market is independent of an order of
another: it leaves the records and the entries of the other market untouched
(`Placed.elsewhere`), and two states that agree on its own market give it the
same fills, the same end and the same sends (`placed_alike`). The sends are
what makes the balances agree in the end: whatever the bank holds, they move
it by the same amounts.

`Orderly` is what a state needs for that. Its order store and its book agree,
and the module account can pay what the book owes, so a refund that is owed is
paid in either order of execution.
-/

namespace Ganc.Dex

variable {k : Keeper}

-- ---------------------------------------------------------------------------
-- Runs without market bids
-- ---------------------------------------------------------------------------

/-- A well-formed order: a bid has a positive price, an ask may have the price zero. -/
structure Proper (k : Keeper) (msg : MsgPlaceOrder) : Prop extends Regular k msg where
  bid : msg.side = "BUY" → k.Positive msg.price

instance (msg : MsgPlaceOrder) : Decidable (Proper k msg) :=
  decidable_of_iff (Regular k msg ∧ (msg.side = "BUY" → k.Positive msg.price))
    ⟨fun h => ⟨h.1, h.2⟩, fun h => ⟨h.toRegular, h.bid⟩⟩

def ProperOp (k : Keeper) : Op → Prop
  | .deliver _ (.registerPairs msg) =>
    k.sdk.validateDenom msg.baseDenom ∧ k.sdk.validateDenom msg.quoteDenom ∧
      '-' ∉ msg.baseDenom.toList ∧ '-' ∉ msg.quoteDenom.toList
  | .deliver _ (.placeOrder msg) => Proper k msg
  | .deliver _ (.cleanOrders _) => True
  | .endBlock => True
  | _ => False

instance : DecidablePred (ProperOp k)
  | .deliver _ (.registerPairs _) => inferInstanceAs (Decidable (_ ∧ _ ∧ _ ∧ _))
  | .deliver _ (.placeOrder msg) => inferInstanceAs (Decidable (Proper k msg))
  | .deliver _ (.cleanOrders _) | .endBlock => isTrue trivial
  | .deliver _ (.updateParams _) | .deliver _ (.createMarket _) | .deliver _ (.updateMarket _)
  | .deliver _ (.deleteMarket _) | .deliver _ (.createOrder _) | .deliver _ (.updateOrder _)
  | .deliver _ (.deleteOrder _) => isFalse id

theorem ProperOp.regular {op : Op} (h : ProperOp k op) : RegularOp k op := by
  unfold ProperOp at h
  split at h
  · trivial
  · exact h.toRegular
  · trivial
  · trivial
  · exact h.elim

structure ProperRun (k : Keeper) (bank : Bank) (ops : List Op) : Prop where
  op : ∀ op ∈ ops, ProperOp k op
  slots : (k.slots (State.empty bank) ops).Nodup

/-- The state between the messages of such a run. -/
structure Orderly (k : Keeper) (s : State) : Prop where
  agree : Agree k s
  solvent : Solvent k s

namespace Orderly

variable {s s' : State} {ctx : Context} {msg : MsgPlaceOrder}

/-- A bid pays what the asks that it can trade with want. -/
theorem affordable (hLaw : k.sdk.Lawful) (h : Orderly k s) (hMsg : Proper k msg)
    (hSide : msg.side ≠ "SELL") : Affordable k s msg := by
  intro e he hComp o ho
  have hBuy : msg.side = "BUY" := hMsg.side.resolve_right hSide
  obtain ⟨limit, hLimit, -⟩ := hMsg.bid hBuy
  obtain ⟨kk, hStored⟩ := mem_entries.mp he
  obtain ⟨-, o', ho', -, hEntry⟩ := h.agree.entry kk e hStored
  obtain rfl : o' = o := Option.some.inj (ho'.symm.trans ho)
  obtain ⟨q, r, hLive⟩ := h.agree.order _ _ ho'
  obtain ⟨p, hp, -⟩ := hLive.price
  have hPrice : k.sdk.newIntFromString e.price = some p := by
    rw [hEntry]
    exact hp
  have hWithin := hComp.within ((hMsg.bid hBuy).limit hLaw) hLimit hPrice
  rw [allowance, if_pos hBuy, Keeper.value_eq hp, Keeper.value_eq hLimit]
  exact hWithin.1 hBuy

/-- A proper order of a fresh id is covered in an orderly state. -/
theorem covered (hLaw : k.sdk.Lawful) (h : Orderly k s) (hMsg : Proper k msg)
    (hFresh : msg.orderId ctx.height ∉ s.order) :
    Covered k s (.deliver ctx (.placeOrder msg)) := by
  refine ⟨?_, fun hSide _ => h.affordable hLaw hMsg hSide⟩
  intro e he
  obtain ⟨kk, hStored⟩ := mem_entries.mp he
  exact h.agree.unnamed hFresh kk e hStored

/-- A proper order that is placed keeps the state orderly. -/
theorem placed (hLaw : k.sdk.Lawful) {market : Market} {quantity : Int} {coins : Coins}
    {bank : Bank} (h : Orderly k s) (hMsg : Proper k msg)
    (hFresh : msg.orderId ctx.height ∉ s.order)
    (hPlaced : Placed k ctx s msg market quantity coins bank s') : Orderly k s' :=
  ⟨(h.agree.placed hLaw hMsg.toRegular hFresh hPlaced).1,
    h.solvent.placed hLaw (h.covered hLaw hMsg hFresh) hPlaced⟩

/-- A purge keeps the state orderly. -/
theorem purges (hLaw : k.sdk.Lawful) (h : Orderly k s) (limit : Nat) :
    Orderly k (Keeper.batchCleanFilledOrders s limit).1 :=
  ⟨h.agree.purges hLaw limit, h.solvent.purges limit⟩

/-- Registering a pair again changes no denom of its market. -/
theorem register (h : Orderly k s) (hPaired : Paired s) {msg : MsgRegisterPairs}
    (hDash : '-' ∉ msg.baseDenom.toList) : Orderly k { s with
      market := s.market.insert (pairId msg.baseDenom msg.quoteDenom) msg.toMarket } := by
  refine ⟨h.agree.of_stores rfl rfl, h.solvent.market ?_⟩
  intro e he hId
  obtain ⟨kk, hStored⟩ := mem_entries.mp he
  obtain ⟨m, hm⟩ := hPaired.listed kk e hStored
  obtain ⟨hSameBase, hSameQuote⟩ := hPaired.denoms hm hId hDash
  refine .inr ?_
  rw [← hId, hm, Option.map_some, deliveryDenom, deliveryDenom]
  show some (if e.side = "SELL" then m.baseDenom else m.quoteDenom) =
    some (if e.side = "SELL" then msg.baseDenom else msg.quoteDenom)
  rw [hSameBase, hSameQuote]

end Orderly

/-- Every step of a proper run keeps the state orderly. -/
theorem orderly_step (hLaw : k.sdk.Lawful) {record : List (String × Nat)} {s : State} {op : Op}
    (hOp : ProperOp k op) (hNodup : (record ++ k.accepted slots s op).Nodup)
    (hAlive : Alive k record s) (h : Orderly k s) (hPaired : Paired s) :
    Orderly k (k.step s op) ∧ Paired (k.step s op) := by
  revert hNodup
  refine step_accepted (P := fun new s' => (record ++ new).Nodup → Orderly k s' ∧ Paired s')
    op ?_ ?_ ?_
  · exact fun _ => ⟨h, hPaired⟩
  · rintro ctx msg s' r rfl hHandle hNodup
    have hEffect := handle_effect hHandle
    cases hEffect with
    | rejected => exact ⟨h, hPaired⟩
    | registerPairs =>
      obtain ⟨-, -, hDash, -⟩ := hOp
      exact ⟨h.register hPaired hDash, hPaired.register hDash⟩
    | cleanOrders limit =>
      exact ⟨h.purges hLaw limit, hPaired.mono (purge_bookLE s limit) (purge_frame s limit).1⟩
    | placeOrder hPlaced =>
      have hNew := not_issued hNodup hPlaced.creator
      exact ⟨h.placed hLaw hOp (fun hid => hNew (hAlive.issued _ hid)) hPlaced,
        hPaired.placed hPlaced⟩
    | _ => exact hOp.elim
  · rintro rfl -
    exact ⟨h.purges hLaw 5, hPaired.mono (purge_bookLE s 5) (purge_frame s 5).1⟩

/-- Every state of a proper run is orderly. -/
theorem orderly_reach (hLaw : k.sdk.Lawful) {bank : Bank} {ops : List Op}
    (hRun : ProperRun k bank ops) :
    Alive k (k.slots (State.empty bank) ops) (k.reach bank ops) ∧ Orderly k (k.reach bank ops) := by
  let P : List (String × Nat) → State → Prop := fun record s =>
    Alive k record s ∧ Orderly k s ∧ Paired s
  have hStep : ∀ record s op, ProperOp k op → (record ++ k.accepted slots s op).Nodup →
      P record s → P (record ++ k.accepted slots s op) (k.step s op) := by
    rintro record s op hOp hNodup ⟨hAlive, hOrderly, hPaired⟩
    exact ⟨(alive_step hLaw hOp.regular hNodup hAlive).1,
      orderly_step hLaw hOp hNodup hAlive hOrderly hPaired⟩
  have hEmpty : Paired (State.empty bank) := by
    constructor <;> intro _ _ h <;> simp [State.empty] at h
  have hInit : P [] (State.empty bank) :=
    ⟨alive_empty k bank, ⟨(alive_empty k bank).agree, solvent_empty bank⟩, hEmpty⟩
  obtain ⟨hAlive, hOrderly, -⟩ := Run.exec_history (P := P)
    (fun _ _ => List.Nodup.of_append_left) hStep (Run.steps_of_forall hRun.op) hRun.slots hInit
  exact ⟨hAlive, hOrderly⟩

-- ---------------------------------------------------------------------------
-- The records of one market
-- ---------------------------------------------------------------------------

/-- The two states have the same orders and the same entries in a market. -/
structure SameMarket (id : String) (s t : State) : Prop where
  order : Store.AgreeOn (fun o : Order => o.marketId = id) s.order t.order
  orderbook : Store.AgreeOn (fun e : Orderbook => e.marketId = id) s.orderbook t.orderbook

namespace SameMarket

variable {id : String} {s t u : State}

theorem symm (h : SameMarket id s t) : SameMarket id t s := ⟨h.order.symm, h.orderbook.symm⟩

theorem trans (h : SameMarket id s t) (h' : SameMarket id t u) : SameMarket id s u :=
  ⟨h.order.trans h'.order, h.orderbook.trans h'.orderbook⟩

end SameMarket

/-- The stores are the markets' records and nothing else. -/
theorem stores_eq {s t : State} (h : ∀ id, SameMarket id s t) :
    s.order = t.order ∧ s.orderbook = t.orderbook :=
  ⟨Store.eq_of_agreeOn fun id => (h id).order, Store.eq_of_agreeOn fun id => (h id).orderbook⟩

-- ---------------------------------------------------------------------------
-- The other markets
-- ---------------------------------------------------------------------------

section Elsewhere

variable {s s' : State} {takerId id : String} {market : Market} {left : Int}

/-- A fill writes records of the taker's market only. -/
theorem Agree.fill_elsewhere (hLaw : k.sdk.Lawful) {taker maker : Order} {entry : Orderbook}
    {rem r p n : Int} (h : Agree k s) (hEntry : s.orderbook[entry.key]? = some entry)
    (hComp : Compatible k taker entry)
    (hFilled : Filled k taker takerId market entry rem s maker r p n left s')
    (hId : taker.marketId ≠ id) : SameMarket id s s' := by
  have hMaker := hFilled.maker_stored hLaw
  have hMarket : maker.marketId ≠ id := by
    rwa [h.maker_market hEntry hMaker, hComp.market]
  constructor
  · rw [hFilled.order]
    refine Store.agreeOn_insert ?_ hMarket
    intro o ho
    rwa [← Option.some.inj (hMaker.symm.trans ho)]
  · rw [hFilled.orderbook]
    split
    · refine Store.agreeOn_erase ?_
      intro e he
      rw [← Option.some.inj (hEntry.symm.trans he), hComp.market]
      exact hId
    · exact .refl _

/-- So does the end of a taker, which stores new records. -/
theorem Finalized.elsewhere {taker : Order}
    (h : Finalized k taker takerId market left s s') (hFresh : takerId ∉ s.order)
    (hFree : s.orderbook[(restingEntry taker takerId).key]? = none) (hId : taker.marketId ≠ id) :
    SameMarket id s s' := by
  have hOrder : ∀ status, Store.AgreeOn (fun o : Order => o.marketId = id) s.order
      (s.order.insert takerId (takerAfter taker left status)) :=
    fun _ => Store.agreeOn_insert (fun o ho => absurd (Store.mem_iff.mpr ⟨o, ho⟩) hFresh) hId
  cases h with
  | filled => exact ⟨hOrder _, .refl _⟩
  | cancelled => exact ⟨hOrder _, .refl _⟩
  | resting =>
    refine ⟨hOrder _, Store.agreeOn_insert ?_ hId⟩
    intro e he
    rw [hFree] at he
    cases he

/-- **The frame of a placed order**: it leaves the other markets untouched. -/
theorem Placed.elsewhere (hLaw : k.sdk.Lawful) {ctx : Context} {msg : MsgPlaceOrder}
    {quantity : Int} {coins : Coins} {bank : Bank}
    (hPlaced : Placed k ctx s msg market quantity coins bank s') (h : Agree k s)
    (hMsg : Regular k msg) (hFresh : msg.orderId ctx.height ∉ s.order)
    (hId : msg.marketId ≠ id) : SameMarket id s s' := by
  let I : Int → State → Prop := fun _ s₁ => SameMarket id s s₁
  have hFills : FillsKeep k msg.toOrder (msg.orderId ctx.height) market I :=
    fun hAgree hEntry hComp _ hFilled hSame =>
      hSame.trans (hAgree.fill_elsewhere hLaw hEntry hComp hFilled hId)
  have hInit : I quantity { s with bank := bank } := ⟨.refl _, .refl _⟩
  obtain ⟨_, left, s₁, hDone, hEnd⟩ := h.matched hLaw hMsg hPlaced hFills hInit
  have hNamed := MsgPlaceOrder.placedId hPlaced.creator ctx.height
  have hFresh₁ : msg.orderId ctx.height ∉ s₁.order := fun hIn => hFresh ((hDone.keys _).mp hIn)
  exact hDone.extra.trans
    (hEnd.elsewhere hFresh₁ (hDone.agree.resting_free hLaw hMsg hNamed hFresh₁) hId)

end Elsewhere

-- ---------------------------------------------------------------------------
-- One order in two states
-- ---------------------------------------------------------------------------

section Alike

variable {msg : MsgPlaceOrder} {takerId : String} {market : Market} {quantity left : Int}

/-- Inside the execution loop of an order placed in `s₀`. -/
structure Midway (k : Keeper) (msg : MsgPlaceOrder) (market : Market) (quantity : Int)
    (s₀ : State) (rest : List Orderbook) (rem : Int) (s : State) : Prop
    extends Covering k msg market quantity s₀ rest rem s where
  agree : Agree k s
  keys : ∀ id, id ∈ s.order ↔ id ∈ s₀.order

/-- After one more fill the order is still inside the loop. -/
theorem Midway.next (hLaw : k.sdk.Lawful) {s₀ s s' : State} {entry : Orderbook}
    {rest : List Orderbook} {rem r p n : Int} {maker : Order} (hRem : rem ≠ 0)
    (hFilled : Filled k msg.toOrder takerId market entry rem s maker r p n left s')
    (h : Midway k msg market quantity s₀ (entry :: rest) rem s) :
    Midway k msg market quantity s₀ rest left s' where
  toCovering := h.toCovering.next hLaw hRem hFilled
  agree := h.agree.fill hLaw h.pending.head hFilled
  keys id := by rw [hFilled.mem_order hLaw, h.keys]

/-- A refund that is due is in the module account. -/
theorem Covering.refundable {s₀ s : State} {rest : List Orderbook}
    (h : Covering k msg market quantity s₀ rest left s) (hSell : msg.side = "SELL") :
    left ≤ s.bank.held market.baseDenom := by
  have hFunds := h.funds market.baseDenom
  have hBook : 0 ≤ owes k market.baseDenom s :=
    Store.total_nonneg fun _ e _ => weigh_nonneg (owed_nonneg market.baseDenom) e
  have hOwn : paid (deliveryDenom msg.side market) (due msg.side (k.value msg.price) left)
      market.baseDenom = max 0 left := by
    rw [hSell]
    exact if_pos rfl
  omega

/-- A proper `MARKET` order sells. -/
theorem Proper.sell_of_market (hLaw : k.sdk.Lawful) (h : Proper k msg)
    (hMarket : msg.toOrder.orderType = "MARKET") : msg.side = "SELL" := by
  refine h.side.resolve_left fun hBuy => ?_
  have hLimit : msg.toOrder.orderType = "LIMIT" := (h.bid hBuy).limit hLaw
  rw [hMarket] at hLimit
  exact absurd hLimit (by decide)

variable {s₀ s s' t₀ t t' : State}

/-- The loops of one order in two states, before the same candidate. -/
structure Abreast (k : Keeper) (msg : MsgPlaceOrder) (market : Market) (quantity : Int)
    (s₀ t₀ : State) (rest : List Orderbook) (rem : Int) (s t : State) : Prop where
  fst : Midway k msg market quantity s₀ rest rem s
  snd : Midway k msg market quantity t₀ rest rem t
  same : SameMarket msg.marketId s t
  sent : Bank.SentAlike s₀.bank s.bank t₀.bank t.bank

/-- The two fills meet the same record, so they trade the same quantity at the same price. -/
theorem Abreast.next (hLaw : k.sdk.Lawful) {entry : Orderbook} {rest : List Orderbook}
    {rem r p n left' r' p' n' : Int} {maker maker' : Order} (hRem : rem ≠ 0)
    (hs : Filled k msg.toOrder takerId market entry rem s maker r p n left s')
    (ht : Filled k msg.toOrder takerId market entry rem t maker' r' p' n' left' t')
    (h : Abreast k msg market quantity s₀ t₀ (entry :: rest) rem s t) :
    left' = left ∧ Abreast k msg market quantity s₀ t₀ rest left s' t' := by
  have hMaker := hs.maker_stored hLaw
  have hComp := h.fst.compatible entry (List.mem_cons_self ..)
  have hMarket : maker.marketId = msg.marketId :=
    (h.fst.agree.maker_market h.fst.pending.head hMaker).trans hComp.market
  have hMaker' : t.order[entry.orderId]? = some maker := (h.same.order _ _ hMarket).mp hMaker
  obtain rfl : maker = maker' := Option.some.inj (hMaker'.symm.trans (ht.maker_stored hLaw))
  obtain rfl : r = r' := Option.some.inj (hs.remaining.symm.trans ht.remaining)
  obtain rfl : p = p' := Option.some.inj (hs.price.symm.trans ht.price)
  obtain rfl : n = n' := hs.qty.trans ht.qty.symm
  obtain rfl : left = left' := hs.left_eq.trans ht.left_eq.symm
  refine ⟨rfl, h.fst.next hLaw hRem hs, h.snd.next hLaw hRem ht, ⟨?_, ?_⟩,
    h.sent.trans ⟨_, hs.sent, ht.sent⟩⟩
  · rw [hs.order, ht.order]
    exact h.same.order.insert _ _
  · rw [hs.orderbook, ht.orderbook]
    split
    · exact h.same.orderbook.erase _
    · exact h.same.orderbook

/-- With the same quantity left the order ends in the same way, and is paid the same
refund. -/
theorem Abreast.finish (hLaw : k.sdk.Lawful) (hMsg : Proper k msg) {rest : List Orderbook}
    (h : Abreast k msg market quantity s₀ t₀ rest left s t)
    (hs : Finalized k msg.toOrder takerId market left s s')
    (ht : Finalized k msg.toOrder takerId market left t t') :
    SameMarket msg.marketId s' t' ∧ Bank.SentAlike s₀.bank s'.bank t₀.bank t'.bank := by
  cases hs with
  | filled hLeft =>
    cases ht with
    | filled => exact ⟨⟨h.same.order.insert _ _, h.same.orderbook⟩, h.sent⟩
    | cancelled hne => exact absurd hLeft hne
    | resting hne => exact absurd hLeft hne
  | cancelled hne hMarket bank hRefund =>
    cases ht with
    | filled hLeft => exact absurd hLeft hne
    | resting _ hLimit => exact absurd hMarket hLimit
    | cancelled _ _ bank' hRefund' =>
      have hSell := hMsg.sell_of_market hLaw hMarket
      have hPaid := handleRefund_paid hRefund hne hSell (h.fst.refundable hSell)
      have hPaid' := handleRefund_paid hRefund' hne hSell (h.snd.refundable hSell)
      exact ⟨⟨h.same.order.insert _ _, h.same.orderbook⟩, h.sent.trans ⟨_, hPaid, hPaid'⟩⟩
  | resting hne hLimit =>
    cases ht with
    | filled hLeft => exact absurd hLeft hne
    | cancelled _ hMarket => exact absurd hMarket hLimit
    | resting => exact ⟨⟨h.same.order.insert _ _, h.same.orderbook.insert _ _⟩, h.sent⟩

/-- With the escrow paid in, the loop can start. -/
theorem Midway.start (hLaw : k.sdk.Lawful) {coins : Coins} {bank : Bank} {cs : List Orderbook}
    {fetched : List Orderbook} {ties : SortSlice} (h : Orderly k s) (hMsg : Proper k msg)
    (hAdmitted : Admitted k s msg market quantity coins bank)
    (hFetch : k.fetchCandidates msg.toOrder s.orderbook.toList = .ok fetched)
    (hSort : k.sortCandidates ties (Keeper.targetSide msg.toOrder.side) fetched = .ok cs) :
    Midway k msg market quantity s cs quantity { s with bank := bank } := by
  obtain ⟨hMem, hSub⟩ := sorted_candidates hFetch hSort
  exact ⟨.start hLaw h.solvent hAdmitted (fun hSide _ => h.affordable hLaw hMsg hSide) hMem hSub,
    h.agree.of_stores rfl rfl, fun _ => Iff.rfl⟩

/-- **An order sees its own market only.** In two states with the same records of its
market it leaves the same records there, and the bank carries out the same sends. -/
theorem placed_alike (hLaw : k.sdk.Lawful) {ctx : Context} {market' : Market} {quantity' : Int}
    {coins coins' : Coins} {bank bank' : Bank} (hOrderly : Orderly k s) (hOrderly' : Orderly k t)
    (hMsg : Proper k msg) (hListed : s.market = t.market) (hSame : SameMarket msg.marketId s t)
    (hs : Placed k ctx s msg market quantity coins bank s')
    (ht : Placed k ctx t msg market' quantity' coins' bank' t') :
    SameMarket msg.marketId s' t' ∧ Bank.SentAlike s.bank s'.bank t.bank t'.bank := by
  obtain rfl : market = market' := by
    have hMarket' := ht.listed
    rw [← hListed, hs.listed] at hMarket'
    exact Option.some.inj hMarket'
  obtain rfl : quantity = quantity' := Option.some.inj (hs.parsed.symm.trans ht.parsed)
  obtain rfl : coins = coins' := Except.ok.inj (hs.escrow.symm.trans ht.escrow)
  obtain ⟨fetched, cs, rem, left, s₁, hFetch, hSort, hRem, hLoop, hEnd⟩ :=
    matchOrders_stages hs.matched
  obtain ⟨fetched', cs', rem', left', t₁, hFetch', hSort', hRem', hLoop', hEnd'⟩ :=
    matchOrders_stages ht.matched
  -- the entries of other markets change neither the candidates nor their order
  have hFetched : k.fetchCandidates msg.toOrder s.orderbook.toList =
      k.fetchCandidates msg.toOrder t.orderbook.toList := by
    rw [fetchCandidates_filter, fetchCandidates_filter _ t.orderbook.toList]
    exact congrArg _ hSame.orderbook.filter_toList
  obtain rfl : fetched = fetched' := Except.ok.inj (hFetch.symm.trans (hFetched.trans hFetch'))
  obtain rfl : cs = cs' := Except.ok.inj (hSort.symm.trans hSort')
  obtain rfl : quantity = rem := Option.some.inj (hs.parsed.symm.trans hRem)
  obtain rfl : quantity = rem' := Option.some.inj (hs.parsed.symm.trans hRem')
  have hEscrow : Bank.SentAlike s.bank bank t.bank bank' :=
    ⟨[⟨.user (k.addressOf msg.creator), .module, coins⟩],
      Bank.sendAll_cons_eq_ok.mpr ⟨bank, hs.funded, rfl⟩,
      Bank.sendAll_cons_eq_ok.mpr ⟨bank', ht.funded, rfl⟩⟩
  have hStart : Abreast k msg market quantity s t cs quantity { s with bank := bank }
      { t with bank := bank' } :=
    ⟨.start hLaw hOrderly hMsg hs.toAdmitted hFetch hSort,
      .start hLaw hOrderly' hMsg ht.toAdmitted hFetch' hSort, ⟨hSame.order, hSame.orderbook⟩,
      hEscrow⟩
  obtain ⟨rfl, _, hDone⟩ := executeLoop_lockstep
    (fun hRem hFilled hFilled' h => h.next hLaw hRem hFilled hFilled') hLoop hLoop' hStart
  exact hDone.finish hLaw hMsg hEnd hEnd'

end Alike

-- ---------------------------------------------------------------------------
-- Two orders
-- ---------------------------------------------------------------------------

/-- A well-formed order about to be placed, under an id that is not in use. -/
structure Poised (k : Keeper) (ctx : Context) (msg : MsgPlaceOrder) (s : State) : Prop where
  orderly : Orderly k s
  proper : Proper k msg
  fresh : 6 ≤ msg.creator.toList.length → msg.orderId ctx.height ∉ s.order

theorem handle_placed {ctx : Context} {msg : MsgPlaceOrder} {s s' : State} {r : Response}
    (h : k.handle ctx s (.placeOrder msg) = .ok (s', r)) :
    ∃ market quantity coins bank, Placed k ctx s msg market quantity coins bank s' :=
  (placeOrder_eq_ok h).2

section Two

variable {ctx ctx' ctx₁ ctx₂ : Context} {msg msg' p₁ p₂ : MsgPlaceOrder}
variable {s s' s₁ s₁₂ s₂ s₂₁ : State} {r r₁ r₁₂ r₂ r₂₁ : Response}

/-- A placed order leaves the other markets as they are. -/
theorem Poised.elsewhere (hLaw : k.sdk.Lawful) (h : Poised k ctx msg s)
    (hOk : k.handle ctx s (.placeOrder msg) = .ok (s', r)) {id : String} (hId : msg.marketId ≠ id) :
    SameMarket id s s' := by
  obtain ⟨market, quantity, coins, bank, hPlaced⟩ := handle_placed hOk
  exact hPlaced.elsewhere hLaw h.orderly.agree h.proper.toRegular (h.fresh hPlaced.creator) hId

/-- An order of another market that gets in first takes neither the id nor the order of
the state. -/
theorem Poised.after (hLaw : k.sdk.Lawful) (h : Poised k ctx msg s) (h' : Poised k ctx' msg' s)
    (hMarkets : msg.marketId ≠ msg'.marketId)
    (hOk : k.handle ctx' s (.placeOrder msg') = .ok (s', r)) : Poised k ctx msg s' := by
  obtain ⟨market, quantity, coins, bank, hPlaced⟩ := handle_placed hOk
  refine ⟨h'.orderly.placed hLaw h'.proper (h'.fresh hPlaced.creator) hPlaced, h.proper, ?_⟩
  intro hCreator hIn
  rcases (matchOrders_mem_order hLaw hPlaced.matched).mp hIn with hSame | hOld
  · have hLength := (creatorHead_length hCreator).trans (creatorHead_length hPlaced.creator).symm
    exact hMarkets (orderIdOf_inj hLength hSame).1
  · exact h.fresh hCreator hOld

/-- An order placed before and after an order of another market. -/
theorem Poised.alike (hLaw : k.sdk.Lawful) (h : Poised k ctx₁ p₁ s) (h' : Poised k ctx₂ p₂ s)
    (hMarkets : p₁.marketId ≠ p₂.marketId)
    (h₁ : k.handle ctx₁ s (.placeOrder p₁) = .ok (s₁, r₁))
    (h₂ : k.handle ctx₂ s (.placeOrder p₂) = .ok (s₂, r₂))
    (h₂₁ : k.handle ctx₁ s₂ (.placeOrder p₁) = .ok (s₂₁, r₂₁)) :
    SameMarket p₁.marketId s₁ s₂₁ ∧ Bank.SentAlike s.bank s₁.bank s₂.bank s₂₁.bank := by
  have hAfter := h.after hLaw h' hMarkets h₂
  have hSame := h'.elsewhere hLaw h₂ (Ne.symm hMarkets)
  obtain ⟨_, _, _, _, hPlaced⟩ := handle_placed h₁
  obtain ⟨_, _, _, _, hOther⟩ := handle_placed h₂
  obtain ⟨_, _, _, _, hPlaced'⟩ := handle_placed h₂₁
  exact placed_alike hLaw h.orderly hAfter.orderly h.proper hOther.frame.1.symm hSame hPlaced
    hPlaced'

/-- Two orders at different markets may be placed in either order. -/
theorem Poised.commute (hLaw : k.sdk.Lawful) (h : Poised k ctx₁ p₁ s) (h' : Poised k ctx₂ p₂ s)
    (hMarkets : p₁.marketId ≠ p₂.marketId)
    (h₁ : k.handle ctx₁ s (.placeOrder p₁) = .ok (s₁, r₁))
    (h₁₂ : k.handle ctx₂ s₁ (.placeOrder p₂) = .ok (s₁₂, r₁₂))
    (h₂ : k.handle ctx₂ s (.placeOrder p₂) = .ok (s₂, r₂))
    (h₂₁ : k.handle ctx₁ s₂ (.placeOrder p₁) = .ok (s₂₁, r₂₁)) :
    s₁₂.order = s₂₁.order ∧ s₁₂.orderbook = s₂₁.orderbook ∧ s₁₂.market = s₂₁.market ∧
      s₁₂.bank.balance = s₂₁.bank.balance := by
  obtain ⟨hSame₁, hSent₁⟩ := h.alike hLaw h' hMarkets h₁ h₂ h₂₁
  obtain ⟨hSame₂, hSent₂⟩ := h'.alike hLaw h (Ne.symm hMarkets) h₂ h₁ h₁₂
  have hFrame₁₂ : ∀ {id}, p₂.marketId ≠ id → SameMarket id s₁ s₁₂ :=
    (h'.after hLaw h (Ne.symm hMarkets) h₁).elsewhere hLaw h₁₂
  have hFrame₂₁ : ∀ {id}, p₁.marketId ≠ id → SameMarket id s₂ s₂₁ :=
    (h.after hLaw h' hMarkets h₂).elsewhere hLaw h₂₁
  have hStores : s₁₂.order = s₂₁.order ∧ s₁₂.orderbook = s₂₁.orderbook := by
    refine stores_eq fun id => ?_
    by_cases hId₁ : p₁.marketId = id
    · subst hId₁
      exact (hFrame₁₂ (Ne.symm hMarkets)).symm.trans hSame₁
    by_cases hId₂ : p₂.marketId = id
    · subst hId₂
      exact hSame₂.symm.trans (hFrame₂₁ hMarkets)
    · -- a market of neither order
      have hStart : SameMarket id s₁ s₂ :=
        (h.elsewhere hLaw h₁ hId₁).symm.trans (h'.elsewhere hLaw h₂ hId₂)
      exact (hFrame₁₂ hId₂).symm.trans (hStart.trans (hFrame₂₁ hId₁))
  have hMarket : ∀ {ctx : Context} {msg : MsgPlaceOrder} {t t' : State} {r : Response},
      k.handle ctx t (.placeOrder msg) = .ok (t', r) → t'.market = t.market := by
    intro ctx msg t t' r hOk
    obtain ⟨_, _, _, _, hPlaced⟩ := handle_placed hOk
    exact hPlaced.frame.1
  refine ⟨hStores.1, hStores.2, ?_, ?_⟩
  · rw [hMarket h₁₂, hMarket h₁, hMarket h₂₁, hMarket h₂]
  · funext a d
    have hMoved₁ := hSent₁.balance a d
    have hMoved₂ := hSent₂.balance a d
    omega

end Two

/-- **Orders in different markets are independent.** After any well-formed run, of two
orders at one height, in markets that have seen no order at that height or later, it does
not matter which is first; and each leaves the other's market untouched. -/
theorem markets_independent (hLaw : k.sdk.Lawful) {bank : Bank} {ops : List Op}
    (hRun : ProperRun k bank ops) {ctx₁ ctx₂ : Context} {p₁ p₂ : MsgPlaceOrder}
    (hMsg₁ : Proper k p₁) (hMsg₂ : Proper k p₂) (hMarkets : p₁.marketId ≠ p₂.marketId)
    (hHeight : ctx₁.height = ctx₂.height)
    (hLater : ∀ slot ∈ k.slots (State.empty bank) ops,
      slot.1 = p₁.marketId ∨ slot.1 = p₂.marketId → slot.2 < ctx₁.height) :
    (∀ (s₁ s₁₂ s₂ s₂₁ : State) (r₁ r₁₂ r₂ r₂₁ : Response),
      k.handle ctx₁ (k.reach bank ops) (.placeOrder p₁) = .ok (s₁, r₁) →
      k.handle ctx₂ s₁ (.placeOrder p₂) = .ok (s₁₂, r₁₂) →
      k.handle ctx₂ (k.reach bank ops) (.placeOrder p₂) = .ok (s₂, r₂) →
      k.handle ctx₁ s₂ (.placeOrder p₁) = .ok (s₂₁, r₂₁) →
      s₁₂.order = s₂₁.order ∧ s₁₂.orderbook = s₂₁.orderbook ∧ s₁₂.market = s₂₁.market ∧
        s₁₂.bank.balance = s₂₁.bank.balance) ∧
    (∀ (s₁ : State) (r₁ : Response),
      k.handle ctx₁ (k.reach bank ops) (.placeOrder p₁) = .ok (s₁, r₁) →
      SameMarket p₂.marketId (k.reach bank ops) s₁ ∧
      ∀ (s₁₂ : State) (r₁₂ : Response), k.handle ctx₂ s₁ (.placeOrder p₂) = .ok (s₁₂, r₁₂) →
        SameMarket p₁.marketId s₁ s₁₂) ∧
    (∀ (s₂ : State) (r₂ : Response),
      k.handle ctx₂ (k.reach bank ops) (.placeOrder p₂) = .ok (s₂, r₂) →
      SameMarket p₁.marketId (k.reach bank ops) s₂ ∧
      ∀ (s₂₁ : State) (r₂₁ : Response), k.handle ctx₁ s₂ (.placeOrder p₁) = .ok (s₂₁, r₂₁) →
        SameMarket p₂.marketId s₂ s₂₁) := by
  obtain ⟨hAlive, hOrderly⟩ := orderly_reach hLaw hRun
  have hPoised : ∀ {ctx : Context} {msg : MsgPlaceOrder}, Proper k msg →
      (∀ slot ∈ k.slots (State.empty bank) ops, slot.1 = msg.marketId → slot.2 < ctx.height) →
      Poised k ctx msg (k.reach bank ops) := by
    intro ctx msg hMsg hNew
    refine ⟨hOrderly, hMsg, ?_⟩
    intro hCreator hIn
    refine not_issued (List.nodup_append.mpr ⟨hRun.slots, by simp, ?_⟩) hCreator
      (hAlive.issued _ hIn)
    rintro slot hSlot _ hSingle rfl
    obtain rfl := List.mem_singleton.mp hSingle
    exact absurd (hNew _ hSlot rfl) (Nat.lt_irrefl _)
  have h₁ : Poised k ctx₁ p₁ (k.reach bank ops) :=
    hPoised hMsg₁ fun slot hSlot hMarket => hLater slot hSlot (.inl hMarket)
  have h₂ : Poised k ctx₂ p₂ (k.reach bank ops) :=
    hPoised hMsg₂ fun slot hSlot hMarket => hHeight ▸ hLater slot hSlot (.inr hMarket)
  refine ⟨?_, ?_, ?_⟩
  · intro s₁ s₁₂ s₂ s₂₁ r₁ r₁₂ r₂ r₂₁ hOk₁ hOk₁₂ hOk₂ hOk₂₁
    exact h₁.commute hLaw h₂ hMarkets hOk₁ hOk₁₂ hOk₂ hOk₂₁
  · intro s₁ r₁ hOk₁
    refine ⟨h₁.elsewhere hLaw hOk₁ hMarkets, ?_⟩
    intro s₁₂ r₁₂ hOk₁₂
    exact (h₂.after hLaw h₁ (Ne.symm hMarkets) hOk₁).elsewhere hLaw hOk₁₂ (Ne.symm hMarkets)
  · intro s₂ r₂ hOk₂
    refine ⟨h₂.elsewhere hLaw hOk₂ (Ne.symm hMarkets), ?_⟩
    intro s₂₁ r₂₁ hOk₂₁
    exact (h₁.after hLaw h₂ hMarkets hOk₂).elsewhere hLaw hOk₂₁ hMarkets

namespace Sample

open Ganc.Sample

/-- An order in the market of `uosmo` against `uusdt`. -/
def osmoOrder (creator side price quantity : String) : MsgPlaceOrder :=
  ⟨creator, "uosmo-uusdt", side, price, quantity⟩

/-- Alice asks for `uusdt` in two markets. -/
def twoMarkets : List Op :=
  [register carol "uatom" "uusdt", register carol "uosmo" "uusdt", place 2 alice "SELL" "4" "9",
    .deliver (block 2) (.placeOrder (osmoOrder alice "SELL" "3" "5"))]

/-- Bob buys in the first market, and Alice sells in the second at any price. -/
def bobBuys : Op := place 3 bob "BUY" "6" "4"
def aliceSells : Op := .deliver (block 3) (.placeOrder (osmoOrder alice "SELL" "0" "7"))

end Sample

open Ganc.Dex.Sample Ganc.Sample in
/-- Bob buys at one market, Alice sells at the other, in either order. -/
theorem markets_independent_sample :
    (keeper.reach bank (twoMarkets ++ [bobBuys, aliceSells])).order =
        (keeper.reach bank (twoMarkets ++ [aliceSells, bobBuys])).order ∧
      (keeper.reach bank (twoMarkets ++ [bobBuys, aliceSells])).orderbook =
        (keeper.reach bank (twoMarkets ++ [aliceSells, bobBuys])).orderbook := by
  have hRun : ProperRun keeper bank twoMarkets := ⟨by decide +kernel, by decide +kernel⟩
  have hBob : (keeper.handle (block 3) (keeper.reach bank twoMarkets)
      (.placeOrder (order bob "BUY" "6" "4"))).isOk := by decide +kernel
  have hAlice : (keeper.handle (block 3) (keeper.reach bank twoMarkets)
      (.placeOrder (osmoOrder alice "SELL" "0" "7"))).isOk := by decide +kernel
  have hBoth : (keeper.handle (block 3) (keeper.reach bank (twoMarkets ++ [bobBuys]))
      (.placeOrder (osmoOrder alice "SELL" "0" "7"))).isOk := by decide +kernel
  have hBoth' : (keeper.handle (block 3) (keeper.reach bank (twoMarkets ++ [aliceSells]))
      (.placeOrder (order bob "BUY" "6" "4"))).isOk := by decide +kernel
  obtain ⟨⟨s₁, r₁⟩, h₁⟩ := Result.exists_of_isOk hBob
  obtain ⟨⟨s₂, r₂⟩, h₂⟩ := Result.exists_of_isOk hAlice
  obtain ⟨⟨s₁₂, r₁₂⟩, h₁₂⟩ := Result.exists_of_isOk hBoth
  obtain ⟨⟨s₂₁, r₂₁⟩, h₂₁⟩ := Result.exists_of_isOk hBoth'
  have hStep : ∀ ops op, keeper.reach bank (ops ++ [op]) = keeper.step (keeper.reach bank ops) op :=
    fun _ _ => Run.exec_append ..
  have hOne : keeper.reach bank (twoMarkets ++ [bobBuys]) = s₁ :=
    (hStep ..).trans (step_of_ok h₁)
  have hOne' : keeper.reach bank (twoMarkets ++ [aliceSells]) = s₂ :=
    (hStep ..).trans (step_of_ok h₂)
  have hTwo : keeper.reach bank (twoMarkets ++ [bobBuys, aliceSells]) = s₁₂ :=
    (hStep (twoMarkets ++ [bobBuys]) aliceSells).trans (step_of_ok h₁₂)
  have hTwo' : keeper.reach bank (twoMarkets ++ [aliceSells, bobBuys]) = s₂₁ :=
    (hStep (twoMarkets ++ [aliceSells]) bobBuys).trans (step_of_ok h₂₁)
  rw [hOne] at h₁₂
  rw [hOne'] at h₂₁
  obtain ⟨hOrder, hBook, -⟩ := (markets_independent Sdk.sample_lawful hRun (by decide +kernel)
    (by decide +kernel) (by decide) rfl (by decide +kernel)).1 s₁ s₁₂ s₂ s₂₁ r₁ r₁₂ r₂ r₂₁ h₁ h₁₂ h₂
    h₂₁
  rw [hTwo, hTwo']
  exact ⟨hOrder, hBook⟩

end Ganc.Dex
