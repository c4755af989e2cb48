import Ganc.Dex.Book
import Ganc.Dex.Sample

/-!
# x/dex — when the escrow covers the book

Any account may write any record, so in general the module account does not
hold what the orders in the book still have to deliver. It does as long as
every step of the run is `Covered`:

* a placed order gets an id that no entry names, and if it is not an ask, no
  ask it can trade with is priced above what it escrows per unit;
* a record written by hand makes no entry owe more, or in another denom.

The invariant is `Solvent`, and inside a match `Covering`, where the taker's
own escrow counts as owed too.
-/

namespace Ganc.Dex

variable {k : Keeper}

-- ---------------------------------------------------------------------------
-- What the book owes
-- ---------------------------------------------------------------------------

/-- What an order of the given side still has to deliver for `n` of its
remaining quantity: base for an ask, quote at its own price for a bid. -/
def delivery (side : String) (price n : Int) : Int :=
  if side = "SELL" then n else if side = "BUY" then price * n else 0

/-- The denom an order of the given side delivers in. -/
def deliveryDenom (side : String) (m : Market) : String :=
  if side = "SELL" then m.baseDenom else m.quoteDenom

/-- The same for all that remains of an order; an order with a negative
remainder has nothing to deliver. -/
def due (side : String) (price remaining : Int) : Int :=
  max 0 (delivery side price remaining)

/-- What the order of an entry still has to deliver. -/
def owed (k : Keeper) (d : String) (e : Orderbook) (o : Order) (m : Market) : Int :=
  paid (deliveryDenom e.side m) (due e.side (k.value o.price) (k.value o.remaining)) d

/-- What all entries of the book together still have to deliver. -/
def owes (k : Keeper) (d : String) (s : State) : Int := bookTotal (owed k d) s

theorem due_nonneg (side : String) (price remaining : Int) : 0 ≤ due side price remaining :=
  Int.le_max_left ..

/-- No entry is owed less than nothing. -/
theorem owed_nonneg (d : String) (e : Orderbook) (o : Order) (m : Market) :
    0 ≤ owed k d e o m :=
  paid_nonneg d (due_nonneg ..)

theorem paid_mono {denom : String} {a b : Int} (d : String) (h : a ≤ b) :
    paid denom a d ≤ paid denom b d := by
  unfold paid
  split <;> omega

theorem due_zero (side : String) (price : Int) : due side price 0 = 0 := by
  unfold due delivery
  split
  · rfl
  · split <;> simp

/-- What a fill of `n` takes off an order's dues. -/
theorem due_sub {side : String} {price r n : Int} (h0 : 0 ≤ n) (hn : n ≤ r)
    (hPrice : side = "BUY" → 0 ≤ n * price) :
    due side price (r - n) = due side price r - delivery side price n := by
  unfold due delivery
  split
  · omega
  split
  next hBuy =>
    have hProduct := hPrice hBuy
    rw [Int.mul_comm] at hProduct
    rcases Int.lt_or_eq_of_le h0 with hPos | rfl
    · -- a positive fill at a price that makes it non-negative
      have hp : 0 ≤ price := Int.nonneg_of_mul_nonneg_left hProduct hPos
      have hLeft : 0 ≤ price * (r - n) := Int.mul_nonneg hp (by omega)
      rw [Int.mul_sub] at *
      omega
    · simp
  · simp

/-- A fill delivers no more than its entry is due. -/
theorem delivery_le_due {side : String} {price n r : Int} (hn : n ≤ r)
    (hPrice : side = "BUY" → 0 ≤ price) : delivery side price n ≤ due side price r := by
  unfold due delivery
  split
  · omega
  split
  next hBuy =>
    have hCost := Int.mul_le_mul_of_nonneg_left hn (hPrice hBuy)
    omega
  · omega

-- ---------------------------------------------------------------------------
-- Covered steps
-- ---------------------------------------------------------------------------

def State.entries (s : State) : List Orderbook := s.orderbook.toList.map Prod.snd

theorem mem_entries {s : State} {e : Orderbook} :
    e ∈ s.entries ↔ ∃ kk : String, s.orderbook[kk]? = some e := by
  simp only [State.entries, List.mem_map, Store.mem_toList, Prod.exists]
  constructor
  · rintro ⟨kk, e', he, rfl⟩
    exact ⟨kk, he⟩
  · rintro ⟨kk, he⟩
    exact ⟨kk, e, he, rfl⟩

/-- What an order that is no ask escrows for a unit of the base denom. -/
def allowance (k : Keeper) (msg : MsgPlaceOrder) : Int :=
  if msg.side = "BUY" then k.value msg.price else 0

/-- No ask that the order can trade with is priced above its allowance. -/
def Affordable (k : Keeper) (s : State) (msg : MsgPlaceOrder) : Prop :=
  ∀ e ∈ s.entries, Compatible k msg.toOrder e → ∀ o ∈ s.order[e.orderId]?,
    k.value o.price ≤ allowance k msg

/-- What the stored order of an entry still has to deliver. -/
def dues (k : Keeper) (s : State) (e : Orderbook) : Int :=
  s.order[e.orderId]?.elim 0 fun o => due e.side (k.value o.price) (k.value o.remaining)

/-- Under a new order record no entry owes more. -/
def RecordCovered (k : Keeper) (s : State) (id : String) (o : Order) : Prop :=
  ∀ e ∈ s.entries, e.orderId = id →
    due e.side (k.value o.price) (k.value o.remaining) ≤ dues k s e

/-- Under a new market record every entry that owes something owes it in the
denom it owed it in. -/
def MarketCovered (k : Keeper) (s : State) (id : String) (m : Market) : Prop :=
  ∀ e ∈ s.entries, e.marketId = id → dues k s e = 0 ∨
    s.market[id]?.map (deliveryDenom e.side) = some (deliveryDenom e.side m)

def Covered (k : Keeper) (s : State) : Op → Prop
  | .deliver ctx (.placeOrder msg) =>
    (∀ e ∈ s.entries, e.orderId ≠ msg.orderId ctx.height) ∧
      (msg.side ≠ "SELL" → 0 < k.value msg.quantity → Affordable k s msg)
  | .deliver _ (.createOrder msg) => RecordCovered k s msg.index msg.toOrder
  | .deliver _ (.updateOrder msg) => RecordCovered k s msg.index msg.toOrder
  | .deliver _ (.createMarket msg) => MarketCovered k s msg.index msg.toMarket
  | .deliver _ (.updateMarket msg) => MarketCovered k s msg.index msg.toMarket
  | .deliver _ (.registerPairs msg) =>
    MarketCovered k s (pairId msg.baseDenom msg.quoteDenom) msg.toMarket
  | _ => True

instance (taker : Order) (e : Orderbook) : Decidable (Compatible k taker e) :=
  decidable_of_iff (e.marketId = taker.marketId ∧ e.side = Keeper.targetSide taker.side ∧
      k.priceCompatible taker e = .ok true)
    ⟨fun ⟨hMarket, hSide, hPrice⟩ => ⟨hMarket, hSide, hPrice⟩,
      fun h => ⟨h.market, h.side, h.price⟩⟩

instance (s : State) (msg : MsgPlaceOrder) : Decidable (Affordable k s msg) := by
  unfold Affordable
  infer_instance

instance (s : State) (id : String) (o : Order) : Decidable (RecordCovered k s id o) := by
  unfold RecordCovered
  infer_instance

instance (s : State) (id : String) (m : Market) : Decidable (MarketCovered k s id m) := by
  unfold MarketCovered
  infer_instance

instance (s : State) : DecidablePred (Covered k s)
  | .deliver _ (.placeOrder _) => inferInstanceAs (Decidable (_ ∧ (_ → _ → Affordable k s _)))
  | .deliver _ (.createOrder _) | .deliver _ (.updateOrder _) =>
    inferInstanceAs (Decidable (RecordCovered k s _ _))
  | .deliver _ (.createMarket _) | .deliver _ (.updateMarket _)
  | .deliver _ (.registerPairs _) => inferInstanceAs (Decidable (MarketCovered k s _ _))
  | .deliver _ (.updateParams _) | .deliver _ (.deleteMarket _) | .deliver _ (.deleteOrder _)
  | .deliver _ (.cleanOrders _) | .endBlock => isTrue trivial

-- ---------------------------------------------------------------------------
-- Steps that write records
-- ---------------------------------------------------------------------------

/-- The module account holds what the book owes. -/
structure Solvent (k : Keeper) (s : State) : Prop where
  keyed : Keyed s
  distinct : Distinct s
  funds : ∀ d, owes k d s ≤ s.bank.held d

variable {s s' : State}

/-- A step that adds no entry, moves no coin and lets no entry owe more keeps
the module solvent. -/
theorem Solvent.of_le (h : Solvent k s) (hBook : s'.orderbook = s.orderbook)
    (hBank : s'.bank = s.bank)
    (hLe : ∀ e ∈ s.entries, ∀ d, weigh (owed k d) s' e ≤ weigh (owed k d) s e) :
    Solvent k s' := by
  have hSub : BookLE s' s := fun kk e he => hBook ▸ he
  refine ⟨h.keyed.mono hSub, h.distinct.mono hSub, ?_⟩
  intro d
  have hTotal : owes k d s' ≤ owes k d s := by
    unfold owes bookTotal
    rw [hBook]
    exact Store.total_le_total fun kk e he => hLe e (mem_entries.mpr ⟨kk, he⟩) d
  rw [hBank]
  exact le_trans hTotal (h.funds d)

/-- What an entry is owed, by its record and market if they are there. -/
theorem weigh_owed (d : String) (e : Orderbook) : weigh (owed k d) s e =
    s.market[e.marketId]?.elim 0 fun m => paid (deliveryDenom e.side m) (dues k s e) d := by
  unfold weigh dues
  cases s.order[e.orderId]? <;> cases s.market[e.marketId]? <;> simp [owed, paid]

theorem dues_nonneg (e : Orderbook) : 0 ≤ dues k s e := by
  unfold dues
  cases s.order[e.orderId]? with
  | none => exact le_refl 0
  | some o => exact due_nonneg ..

/-- An entry whose order owes no more owes no more. -/
theorem weigh_le_of_dues {e : Orderbook} (hMarket : s'.market = s.market)
    (hDues : dues k s' e ≤ dues k s e) (d : String) :
    weigh (owed k d) s' e ≤ weigh (owed k d) s e := by
  rw [weigh_owed, weigh_owed, hMarket]
  cases s.market[e.marketId]? with
  | none => exact le_refl 0
  | some m => exact paid_mono d hDues

/-- A covered record keeps the escrow solvent. -/
theorem Solvent.record (h : Solvent k s) {id : String} {o : Order}
    (hCovered : RecordCovered k s id o) :
    Solvent k { s with order := s.order.insert id o } := by
  refine h.of_le rfl rfl fun e he => weigh_le_of_dues rfl ?_
  by_cases hId : e.orderId = id
  · have hNew : dues k { s with order := s.order.insert id o } e =
        due e.side (k.value o.price) (k.value o.remaining) := by
      show Option.elim (s.order.insert id o)[e.orderId]? 0 _ = _
      rw [hId, Std.ExtTreeMap.getElem?_insert_self]
      rfl
    rw [hNew]
    exact hCovered e he hId
  · have hOld : dues k { s with order := s.order.insert id o } e = dues k s e := by
      show Option.elim (s.order.insert id o)[e.orderId]? 0 _ = _
      rw [Store.get?_insert_ne hId]
      rfl
    rw [hOld]

/-- Under a covered market record no entry owes more. -/
theorem weigh_market_le {id : String} {m : Market} (hCovered : MarketCovered k s id m)
    {e : Orderbook} (he : e ∈ s.entries) (d : String) :
    weigh (owed k d) { s with market := s.market.insert id m } e ≤ weigh (owed k d) s e := by
  rw [weigh_owed, weigh_owed]
  show Option.elim (s.market.insert id m)[e.marketId]? 0 _ ≤ _
  by_cases hId : e.marketId = id
  · rw [hId, Std.ExtTreeMap.getElem?_insert_self]
    show paid (deliveryDenom e.side m) (dues k s e) d ≤ _
    rcases hCovered e he hId with hZero | hDenom
    · rw [hZero, paid_zero]
      cases s.market[id]? with
      | none => exact le_refl 0
      | some old => exact (paid_zero _ d).ge
    · obtain ⟨old, hOld, hSame⟩ := Option.map_eq_some_iff.mp hDenom
      rw [hOld, ← hSame]
      exact le_refl _
  · rw [Store.get?_insert_ne hId]
    exact le_refl _

/-- A covered market keeps the escrow solvent. -/
theorem Solvent.market (h : Solvent k s) {id : String} {m : Market}
    (hCovered : MarketCovered k s id m) :
    Solvent k { s with market := s.market.insert id m } :=
  h.of_le rfl rfl fun _ he d => weigh_market_le hCovered he d

/-- Without its order an entry owes nothing. -/
theorem weigh_delete_le (s : State) (id : String) (e : Orderbook) (d : String) :
    weigh (owed k d) { s with order := s.order.erase id } e ≤ weigh (owed k d) s e := by
  have hDues : dues k { s with order := s.order.erase id } e ≤ dues k s e := by
    show Option.elim (s.order.erase id)[e.orderId]? 0 _ ≤ _
    rw [Store.get?_erase]
    split
    · exact dues_nonneg e
    · exact le_refl _
  refine weigh_le_of_dues ?_ hDues d
  rfl

/-- Without its order, an entry is owed nothing. -/
theorem Solvent.deleteOrder (h : Solvent k s) (id : String) :
    Solvent k { s with order := s.order.erase id } :=
  h.of_le rfl rfl fun e _ d => weigh_delete_le s id e d

/-- Without its market, an entry is owed nothing. -/
theorem Solvent.deleteMarket (h : Solvent k s) (id : String) :
    Solvent k { s with market := s.market.erase id } := by
  refine h.of_le rfl rfl ?_
  intro e _ d
  rw [weigh_owed, weigh_owed]
  show Option.elim (s.market.erase id)[e.marketId]? 0 _ ≤ _
  rw [Store.get?_erase]
  split
  · cases s.market[e.marketId]? with
    | none => exact le_refl 0
    | some m => exact paid_nonneg d (dues_nonneg e)
  · exact le_refl _

/-- Taking entries off the book owes less. -/
theorem Solvent.purge (h : Solvent k s) (id : String) (o : Order) :
    Solvent k (purgeOrder s id o) := by
  have hDelete := h.deleteOrder id
  refine ⟨hDelete.keyed.mono fun kk e he => (Store.get?_of_erase he).2,
    hDelete.distinct.mono fun kk e he => (Store.get?_of_erase he).2, fun d => ?_⟩
  refine le_trans ?_ (hDelete.funds d)
  exact Store.total_erase_le _ fun kk e _ => weigh_nonneg (owed_nonneg d) e

/-- A purge only takes from what is owed. -/
theorem Solvent.purges (h : Solvent k s) (limit : Nat) :
    Solvent k (Keeper.batchCleanFilledOrders s limit).1 :=
  purge_induction (P := Solvent k) (fun _ id o _ _ h => h.purge id o) limit h

-- ---------------------------------------------------------------------------
-- A match
-- ---------------------------------------------------------------------------

/-- What holds while a taker is matched with `rem` left to fill, and the
candidates `rest` are still to come. -/
structure Covering (k : Keeper) (msg : MsgPlaceOrder) (market : Market) (quantity : Int)
    (s₀ : State) (rest : List Orderbook) (rem : Int) (s : State) : Prop where
  pending : Pending rest s
  book : BookLE s s₀
  distinct : Distinct s
  listed : s.market[msg.marketId]? = some market
  compatible : ∀ e ∈ rest, Compatible k msg.toOrder e
  le : rem ≤ quantity
  /-- Only a taker that was never filled can have a negative quantity left. -/
  nonneg : rem = quantity ∨ 0 ≤ rem
  affordable : msg.side ≠ "SELL" → 0 < quantity → ∀ e ∈ rest, ∀ (o : Order),
    s.order[e.orderId]? = some o → k.value o.price ≤ allowance k msg
  funds : ∀ d, owes k d s +
    paid (deliveryDenom msg.side market) (due msg.side (k.value msg.price) rem) d ≤ s.bank.held d

/-- What a fill pays is at most what its two orders had to deliver for it. -/
theorem delivery_trade {msg : MsgPlaceOrder} {e : Orderbook} (market : Market) {n p : Int}
    (hComp : Compatible k msg.toOrder e) (hn : 0 ≤ n) (hQuote : 0 ≤ n * p)
    (hPrice : msg.side ≠ "SELL" → p ≤ allowance k msg) (d : String) :
    paid market.baseDenom n d + paid market.quoteDenom (n * p) d ≤
      paid (deliveryDenom e.side market) (delivery e.side p n) d +
        paid (deliveryDenom msg.side market) (delivery msg.side (k.value msg.price) n) d := by
  have hSide : e.side = Keeper.targetSide msg.side := hComp.side
  by_cases hSell : msg.side = "SELL"
  · rw [hSide, hSell]
    show _ ≤ paid market.quoteDenom (p * n) d + paid market.baseDenom n d
    rw [Int.mul_comm p n, Int.add_comm]
  have hAsk : e.side = "SELL" := by rw [hSide, Keeper.targetSide, if_neg hSell]
  have hLimit := hPrice hSell
  rw [hAsk]
  show _ ≤ paid market.baseDenom n d + _
  by_cases hBuy : msg.side = "BUY"
  · rw [allowance, if_pos hBuy] at hLimit
    rw [hBuy]
    have hCost : n * p ≤ k.value msg.price * n := by
      rw [Int.mul_comm (k.value msg.price)]
      exact Int.mul_le_mul_of_nonneg_left hLimit hn
    have hPaid : paid market.quoteDenom (n * p) d ≤
        paid market.quoteDenom (k.value msg.price * n) d := paid_mono d hCost
    show _ ≤ _ + paid market.quoteDenom (k.value msg.price * n) d
    omega
  · -- an order on no side delivers nothing, and trades at no positive price
    rw [allowance, if_neg hBuy] at hLimit
    have hFree : n * p = 0 := by
      have := Int.mul_nonpos_of_nonneg_of_nonpos hn hLimit
      omega
    rw [hFree, paid_zero, delivery, if_neg hSell, if_neg hBuy, paid_zero]

/-- After a fill the entry owes its delivery of the filled quantity less, also when it
leaves the book. -/
theorem owes_fill (hLaw : k.sdk.Lawful) {taker : Order} {takerId : String} {market : Market}
    {entry : Orderbook} {rem left r p n : Int} {maker : Order}
    (hFilled : Filled k taker takerId market entry rem s maker r p n left s')
    (hDistinct : Distinct s) (hEntry : s.orderbook[entry.key]? = some entry)
    (hMarket : s.market[entry.marketId]? = some market) (d : String) :
    owes k d s' = owes k d s -
      paid (deliveryDenom entry.side market) (delivery entry.side p n) d := by
  have hn := hFilled.qty
  have hn0 := hFilled.qty_nonneg
  have hFits : MathInt.Fits (r - n) :=
    (hLaw.newInt_fits hFilled.remaining).of_le (by omega) (by omega)
  have hAfter : owed k d entry (makerAfter maker r n) market =
      paid (deliveryDenom entry.side market) (due entry.side p (r - n)) d := by
    rw [owed, makerAfter_price, makerAfter_remaining,
      Keeper.value_eq hFilled.price, Keeper.value_eq (hLaw.newInt_toString hFits)]
  have hBefore : owed k d entry maker market =
      paid (deliveryDenom entry.side market) (due entry.side p r) d := by
    rw [owed, Keeper.value_eq hFilled.price, Keeper.value_eq hFilled.remaining]
  have hDue : due entry.side p (r - n) = due entry.side p r - delivery entry.side p n :=
    due_sub hn0 (by omega) fun _ => hFilled.quote_nonneg
  have hFill := bookTotal_fill (w := owed k d) hFilled hDistinct hEntry
    (hFilled.maker_stored hLaw) hMarket
  rw [hDue, paid_sub] at hAfter
  unfold owes
  split at hFill
  next hZero =>
    rw [hZero, due_zero] at hDue
    rw [show due entry.side p r = delivery entry.side p n by omega] at hBefore
    omega
  next => omega

/-- An order that comes to rest owes what it has to deliver, and no entry owes more. -/
theorem owes_rest (hLaw : k.sdk.Lawful) {msg : MsgPlaceOrder} {takerId : String}
    {market : Market} {left : Int} (hUnnamed : Unnamed s takerId)
    (hListed : s.market[msg.marketId]? = some market) (hFits : MathInt.Fits left) (d : String) :
    owes k d { s with
        orderbook := s.orderbook.insert (restingEntry msg.toOrder takerId).key
          (restingEntry msg.toOrder takerId)
        order := s.order.insert takerId (takerAfter msg.toOrder left "PARTIAL") } ≤
      paid (deliveryDenom msg.side market) (due msg.side (k.value msg.price) left) d +
        owes k d s := by
  have hBook := bookTotal_rest (owed k d) (restingEntry msg.toOrder takerId)
    (takerAfter msg.toOrder left "PARTIAL") hUnnamed hListed
  have hOwn : owed k d (restingEntry msg.toOrder takerId)
      (takerAfter msg.toOrder left "PARTIAL") market =
      paid (deliveryDenom msg.side market) (due msg.side (k.value msg.price) left) d := by
    rw [owed, show (takerAfter msg.toOrder left "PARTIAL").remaining = toString left from rfl,
      Keeper.value_eq (hLaw.newInt_toString hFits)]
    rfl
  have hErase : Store.total (fun _ e => weigh (owed k d) s e)
      (s.orderbook.erase (restingEntry msg.toOrder takerId).key) ≤ owes k d s :=
    Store.total_erase_le _ fun _ e _ => weigh_nonneg (owed_nonneg d) e
  refine le_trans (le_of_eq hBook) ?_
  omega

/-- One more fill keeps the escrow covering the book and the taker. -/
theorem Covering.next (hLaw : k.sdk.Lawful) {msg : MsgPlaceOrder} {takerId : String}
    {market : Market} {quantity : Int} {s₀ : State} {entry : Orderbook} {rest : List Orderbook}
    {rem left r p n : Int} {maker : Order} (hRem : rem ≠ 0)
    (hFilled : Filled k msg.toOrder takerId market entry rem s maker r p n left s')
    (h : Covering k msg market quantity s₀ (entry :: rest) rem s) :
    Covering k msg market quantity s₀ rest left s' := by
  have hMaker := hFilled.maker_stored hLaw
  have hn := hFilled.qty
  have hn0 := hFilled.qty_nonneg
  have hLeft := hFilled.left_eq
  have hComp := h.compatible entry (List.mem_cons_self ..)
  have hMarket : s.market[entry.marketId]? = some market := hComp.market ▸ h.listed
  have hPrice : msg.side ≠ "SELL" → p ≤ allowance k msg := by
    intro hSide
    have hQuantity := h.le
    have hBound := h.affordable hSide (by omega) entry (List.mem_cons_self ..) maker hMaker
    rwa [Keeper.value_eq hFilled.price] at hBound
  refine ⟨h.pending.next hFilled, hFilled.bookLE.trans h.book, h.distinct.mono hFilled.bookLE,
    hFilled.markets ▸ h.listed, fun e he => h.compatible e (List.mem_cons_of_mem _ he),
    by have := h.le; omega, .inr (by omega), ?_, ?_⟩
  · intro hSide hQuantity e he o ho
    rcases hFilled.price_or_stored ho with hOwn | hOld
    · rw [hOwn]
      exact hPrice hSide
    · exact h.affordable hSide hQuantity e (List.mem_cons_of_mem _ he) o hOld
  · intro d
    have hBook := owes_fill hLaw hFilled h.distinct h.pending.head hMarket d
    -- the taker owes its own delivery less, too
    have hTaker : due msg.side (k.value msg.price) left =
        due msg.side (k.value msg.price) rem - delivery msg.side (k.value msg.price) n := by
      rw [hLeft]
      refine due_sub hn0 (by omega) ?_
      intro hBuy
      have hLimit := hPrice (by rw [hBuy]; decide)
      rw [allowance, if_pos hBuy] at hLimit
      exact le_trans hFilled.quote_nonneg (Int.mul_le_mul_of_nonneg_left hLimit hn0)
    have hTrade := delivery_trade market hComp hn0 hFilled.quote_nonneg hPrice d
    have hFunds := h.funds d
    rw [hFilled.held, hBook, hTaker, paid_sub]
    omega

/-- The escrow of an order covers what it has to deliver. -/
theorem due_le_escrowed (hLaw : k.sdk.Lawful) {msg : MsgPlaceOrder} {market : Market}
    {quantity : Int} {coins : Coins} {bank : Bank}
    (h : Admitted k s msg market quantity coins bank) (d : String) :
    paid (deliveryDenom msg.side market) (due msg.side (k.value msg.price) quantity) d ≤
      escrowed k market msg.side msg.price quantity d := by
  obtain ⟨-, hBid, hAsk⟩ := escrowCoins_eq_ok h.escrow
  by_cases hBuy : msg.side = "BUY"
  · obtain ⟨p, hp, hCost⟩ := hBid hBuy
    rw [escrowed, if_pos hBuy, hBuy, Keeper.value_eq hp, hp]
    show paid market.quoteDenom (max 0 (p * quantity)) d ≤ _
    split
    next hMarket =>
      -- a market bid has the price "0", and escrows that many coins
      have hZero : msg.price = "0" := by
        by_contra hne
        rw [orderTypeOf, if_neg hne] at hMarket
        exact absurd hMarket (by decide)
      rw [hZero, hLaw.newInt_zero] at hp
      rw [← Option.some.inj hp, Int.zero_mul]
      exact le_refl _
    next hLimit =>
      have h0 := hCost hLimit
      rw [Option.getD_some, Int.max_eq_right h0]
  · have h0 := hAsk hBuy
    rw [escrowed, if_neg hBuy]
    by_cases hSell : msg.side = "SELL"
    · rw [hSell]
      show paid market.baseDenom (max 0 quantity) d ≤ paid market.baseDenom quantity d
      rw [Int.max_eq_right h0]
    · rw [due, delivery, if_neg hSell, if_neg hBuy]
      show paid _ 0 d ≤ _
      rw [paid_zero]
      exact paid_nonneg d h0

/-- After the escrow is paid in, it covers the book and the taker. -/
theorem Covering.start (hLaw : k.sdk.Lawful) {msg : MsgPlaceOrder} {market : Market}
    {quantity : Int} {coins : Coins} {bank : Bank} {cs : List Orderbook} (h : Solvent k s)
    (hAdmitted : Admitted k s msg market quantity coins bank)
    (hAfford : msg.side ≠ "SELL" → 0 < k.value msg.quantity → Affordable k s msg)
    (hMem : ∀ e, e ∈ cs ↔ e ∈ s.orderbook.toList.map Prod.snd ∧ Compatible k msg.toOrder e)
    (hSub : ∃ fetched, cs.Perm fetched ∧
      fetched.Sublist (s.orderbook.toList.map Prod.snd)) :
    Covering k msg market quantity s cs quantity { s with bank := bank } := by
  obtain ⟨fetched, hPerm, hSub⟩ := hSub
  obtain ⟨hNodup, hStored⟩ := h.keyed.pending hPerm hSub
  refine ⟨⟨hNodup, hStored⟩, fun _ _ he => he, h.distinct, hAdmitted.listed,
    fun e he => ((hMem e).mp he).2, le_refl _, .inl rfl, ?_, ?_⟩
  · intro hSide hQuantity e he o ho
    obtain ⟨hIn, hComp⟩ := (hMem e).mp he
    rw [← Keeper.value_eq hAdmitted.parsed] at hQuantity
    exact hAfford hSide hQuantity e hIn hComp o ho
  · intro d
    have hFunds := h.funds d
    have hEscrow := due_le_escrowed hLaw hAdmitted d
    have hHeld := hAdmitted.held d
    have hSame : owes k d { s with bank := bank } = owes k d s :=
      bookTotal_congr rfl fun _ _ _ => weigh_congr rfl rfl
    show _ ≤ bank.held d
    omega

/-- What covers book and taker covers the book. -/
theorem Covering.owes_le {msg : MsgPlaceOrder} {market : Market} {quantity rem : Int}
    {s₀ : State} {rest : List Orderbook} (h : Covering k msg market quantity s₀ rest rem s)
    (d : String) : owes k d s ≤ s.bank.held d := by
  have hFunds := h.funds d
  have hOwn : 0 ≤ paid (deliveryDenom msg.side market) (due msg.side (k.value msg.price) rem) d :=
    paid_nonneg d (due_nonneg ..)
  omega

/-- What remains of the taker fits a number. -/
theorem Covering.fits (hLaw : k.sdk.Lawful) {msg : MsgPlaceOrder} {market : Market}
    {quantity rem : Int} {s₀ : State} {rest : List Orderbook}
    (h : Covering k msg market quantity s₀ rest rem s)
    (hParsed : k.sdk.newIntFromString msg.quantity = some quantity) : MathInt.Fits rem := by
  rcases h.nonneg with rfl | h0
  · exact hLaw.newInt_fits hParsed
  · exact (hLaw.newInt_fits hParsed).of_le h0 h.le

/-- However a taker ends, its own escrow covers what it leaves on the book. -/
theorem Covering.finish (hLaw : k.sdk.Lawful) {msg : MsgPlaceOrder} {takerId : String}
    {market : Market} {quantity left : Int} {s₀ : State} {rest : List Orderbook}
    (h : Covering k msg market quantity s₀ rest left s) (h₀ : Solvent k s₀)
    (hParsed : k.sdk.newIntFromString msg.quantity = some quantity) (hNew : Unnamed s₀ takerId)
    (hEnd : Finalized k msg.toOrder takerId market left s s') : Solvent k s' := by
  have hUnnamed : Unnamed s takerId := hNew.mono h.book
  have hKeyed : Keyed s := h₀.keyed.mono h.book
  have hSame : ∀ (o : Order) (bank : Bank) (d : String),
      owes k d { s with bank := bank, order := s.order.insert takerId o } = owes k d s :=
    fun o bank d => bookTotal_unnamed rfl rfl (fun id hne => Store.get?_insert_ne hne) hUnnamed
  cases hEnd with
  | filled hLeft =>
    refine ⟨hKeyed, h.distinct, ?_⟩
    intro d
    rw [hSame]
    exact h.owes_le d
  | cancelled hLeft hMarket bank hRefund =>
    refine ⟨hKeyed, h.distinct, ?_⟩
    intro d
    rw [hSame]
    show _ ≤ bank.held d
    rcases handleRefund_eq_ok hRefund with rfl | ⟨hSell, h0, hHeld⟩
    · exact h.owes_le d
    · have hFunds := h.funds d
      have hSell : msg.side = "SELL" := hSell
      have hBase : deliveryDenom msg.side market = market.baseDenom := by rw [hSell]; rfl
      have hLeft : due msg.side (k.value msg.price) left = left := by
        rw [hSell]
        exact Int.max_eq_right h0
      rw [hBase, hLeft] at hFunds
      rw [hHeld]
      omega
  | resting hLeft hLimit =>
    refine ⟨hKeyed.insert _, h.distinct.insert hUnnamed, ?_⟩
    intro d
    have hFunds := h.funds d
    have hRest := owes_rest hLaw hUnnamed h.listed (h.fits hLaw hParsed) d
    refine le_trans hRest ?_
    show _ ≤ s.bank.held d
    omega

/-- A covered order that is placed keeps the escrow solvent. -/
theorem Solvent.placed (hLaw : k.sdk.Lawful) {ctx : Context} {msg : MsgPlaceOrder}
    {market : Market} {quantity : Int} {coins : Coins} {bank : Bank} (h : Solvent k s)
    (hCovered : Covered k s (.deliver ctx (.placeOrder msg)))
    (hPlaced : Placed k ctx s msg market quantity coins bank s') : Solvent k s' := by
  obtain ⟨hId, hAfford⟩ := hCovered
  obtain ⟨cs, rem, left, s₁, hMem, hSub, hRem, hLoop, hEnd⟩ := matchOrders_eq_ok hPlaced.matched
  obtain rfl : quantity = rem := Option.some.inj (hPlaced.parsed.symm.trans hRem)
  have hStart := Covering.start hLaw h hPlaced.toAdmitted hAfford hMem hSub
  obtain ⟨rest, hDone, -⟩ := executeLoop_induction
    (fun hRem hFilled hCovering => hCovering.next hLaw hRem hFilled) hLoop hStart
  exact hDone.finish hLaw h hPlaced.parsed
    (fun kk e he => hId e (mem_entries.mpr ⟨kk, he⟩)) hEnd

-- ---------------------------------------------------------------------------
-- Runs
-- ---------------------------------------------------------------------------

/-- Every covered step keeps the escrow solvent. -/
theorem solvent_step (hLaw : k.sdk.Lawful) (s : State) (op : Op) (hCovered : Covered k s op)
    (h : Solvent k s) : Solvent k (k.step s op) := by
  have hEffect := step_effect k s op
  generalize k.step s op = s' at hEffect ⊢
  cases hEffect with
  | rejected => exact h
  | updateParams => exact h.of_le rfl rfl fun _ _ _ => le_refl _
  | createMarket => exact h.market hCovered
  | updateMarket => exact h.market hCovered
  | deleteMarket => exact h.deleteMarket _
  | createOrder => exact h.record hCovered
  | updateOrder => exact h.record hCovered
  | deleteOrder => exact h.deleteOrder _
  | registerPairs => exact h.market hCovered
  | placeOrder hPlaced => exact h.placed hLaw hCovered hPlaced
  | cleanOrders limit => exact h.purges limit
  | endBlock => exact h.purges 5

/-- The empty book is owed nothing. -/
theorem solvent_empty (bank : Bank) : Solvent k (State.empty bank) := by
  refine ⟨?_, ?_, ?_⟩
  · intro kk e he
    simp [State.empty] at he
  · intro k₁ k₂ e₁ e₂ he
    simp [State.empty] at he
  · intro d
    rw [owes, bookTotal, State.empty, Store.total_empty]
    exact bank.held_nonneg d

/-- **The escrow covers the book** in every state of a run whose accepted steps are all
covered: of every denom the module account holds at least what the orders of
all entries still have to deliver. -/
theorem escrow_covers_book (hLaw : k.sdk.Lawful) (bank : Bank) (ops : List Op)
    (hCovered : Run.Steps k.step (k.Accepting (Covered k)) (State.empty bank) ops) (d : String) :
    owes k d (k.reach bank ops) ≤ (k.reach bank ops).bank.held d := by
  have hSolvent : Solvent k (k.reach bank ops) :=
    Run.exec_invariant_of_steps
      (fun s op hStep h => hStep.step h fun hC => solvent_step hLaw s op hC h)
      hCovered (solvent_empty bank)
  exact hSolvent.funds d

namespace Sample

open Ganc.Sample

/-- Bob's bid and Alice's ask rest in the book, and Carol buys without paying. -/
def freeLunch : List Op :=
  [register carol "uatom" "uusdt", place 2 bob "BUY" "5" "10", place 3 alice "SELL" "7" "10",
    place 4 carol "BUY" "0" "7"]

end Sample

open Ganc.Dex.Sample in
theorem escrow_covers_book_sample :
    owes keeper "uatom" (keeper.reach bank trade) ≤
      (keeper.reach bank trade).bank.held "uatom" :=
  escrow_covers_book Sdk.sample_lawful bank trade (by decide +kernel) "uatom"

open Ganc.Dex.Sample in
/-- **The escrow is drained.** A market bid escrows nothing and Alice is paid out
of the coins of Bob, whose bid the module can no longer honour. -/
theorem escrow_short :
    (keeper.reach bank freeLunch).bank.held "uusdt" = 1 ∧
      owes keeper "uusdt" (keeper.reach bank freeLunch) = 50 := by
  decide +kernel

end Ganc.Dex
