import Ganc.Dex.Book
import Ganc.Dex.Keys

/-!
# x/dex — orders and entries agree

`Agree` is what the order store and the book have to do with each other when
only well-formed orders are placed: a stored order has a status that its type
and its remaining quantity determine, and an order has an entry of its own
exactly when it is `PARTIAL`. One lemma for each thing that happens to the
stores shows that `Agree` survives it: a fill (`Agree.fill`), the end of a
taker (`Agree.finalize`) and a purge (`Agree.purge`). The markets do not come
into it (`Agree.of_stores`).
-/

namespace Ganc.Dex

variable {k : Keeper}

-- ---------------------------------------------------------------------------
-- Orders
-- ---------------------------------------------------------------------------

/-- The string is a positive integer. -/
def Keeper.Positive (k : Keeper) (t : String) : Prop :=
  ∃ i, k.sdk.newIntFromString t = some i ∧ 0 < i

instance (t : String) : Decidable (k.Positive t) :=
  decidable_of_iff ((k.sdk.newIntFromString t).any fun i => decide (0 < i)) (by
    simp [Keeper.Positive, Option.any_eq_true])

/-- A positive price makes a `LIMIT` order. -/
theorem Keeper.Positive.limit (hLaw : k.sdk.Lawful) {price : String} (h : k.Positive price) :
    orderTypeOf price = "LIMIT" := by
  obtain ⟨p, hp, hPos⟩ := h
  exact orderTypeOf_of_pos hLaw hp hPos

/-- The status of a stored order of the given type with `r` remaining. -/
def statusOf (orderType : String) (r : Int) : String :=
  if r = 0 then "FILLED"
  else if orderType = "MARKET" then "CANCELLED_PARTIAL"
  else "PARTIAL"

/-- A stored order between its placement and its purge, with quantity `q` of
which `r` remains. -/
structure Order.Live (k : Keeper) (o : Order) (q r : Int) : Prop where
  side : o.side = "BUY" ∨ o.side = "SELL"
  price : ∃ p, k.sdk.newIntFromString o.price = some p ∧ 0 ≤ p
  orderType : o.orderType = orderTypeOf o.price
  quantity : k.sdk.newIntFromString o.quantity = some q
  remaining : k.sdk.newIntFromString o.remaining = some r
  nonneg : 0 ≤ r
  le : r ≤ q
  status : o.status = statusOf o.orderType r

namespace Order.Live

variable {o : Order} {q r : Int}

/-- The price of a live order is a numeral, so it holds no bar. -/
theorem bar_notMem_price (hLaw : k.sdk.Lawful) (h : o.Live k q r) : '|' ∉ o.price.toList := by
  obtain ⟨p, hp, -⟩ := h.price
  exact hLaw.notMem_of_newInt hp (by decide)

/-- A live order is `FILLED` exactly if nothing of it is left. -/
theorem filled_iff (h : o.Live k q r) : o.status = "FILLED" ↔ r = 0 := by
  rw [h.status, statusOf]
  split
  · simp [*]
  · split <;> simp_all

/-- A live order rests exactly if something is left of it and it is not a `MARKET` order. -/
theorem partial_iff (h : o.Live k q r) :
    o.status = "PARTIAL" ↔ r ≠ 0 ∧ o.orderType ≠ "MARKET" := by
  rw [h.status, statusOf]
  split
  · simp [*]
  · split <;> simp_all

/-- A live order is cancelled exactly if something is left of a `MARKET` order. -/
theorem cancelled_iff (h : o.Live k q r) :
    o.status = "CANCELLED_PARTIAL" ↔ r ≠ 0 ∧ o.orderType = "MARKET" := by
  rw [h.status, statusOf]
  split
  · simp [*]
  · split <;> simp_all

/-- The status says what remains. -/
theorem statuses (h : o.Live k q r) :
    (o.status = "FILLED" ↔ r = 0) ∧
      (o.status = "CANCELLED_PARTIAL" ↔ o.orderType = "MARKET" ∧ 0 < r) ∧
      (o.status = "PARTIAL" ↔ o.orderType ≠ "MARKET" ∧ 0 < r) := by
  have hr := h.nonneg
  refine ⟨h.filled_iff, ?_, ?_⟩
  · rw [h.cancelled_iff, and_comm]
    exact and_congr_right fun _ => ⟨fun _ => by omega, fun _ => by omega⟩
  · rw [h.partial_iff, and_comm]
    exact and_congr_right fun _ => ⟨fun _ => by omega, fun _ => by omega⟩

/-- What a fill leaves of a resting order. -/
theorem makerAfter (hLaw : k.sdk.Lawful) (h : o.Live k q r) (hPartial : o.status = "PARTIAL")
    {n : Int} (h0 : 0 ≤ n) (hn : n ≤ r) : (makerAfter o r n).Live k q (r - n) := by
  obtain ⟨hr, hType⟩ := h.partial_iff.mp hPartial
  have hFits : MathInt.Fits (r - n) := (hLaw.newInt_fits h.remaining).of_le (by omega) (by omega)
  exact {
    side := h.side
    price := h.price
    orderType := h.orderType
    quantity := h.quantity
    remaining := hLaw.newInt_toString hFits
    nonneg := by omega
    le := by have := h.le; omega
    status := by
      show (if r - n = 0 then "FILLED" else o.status) = statusOf o.orderType (r - n)
      rw [statusOf, if_neg hType, hPartial] }

end Order.Live

-- ---------------------------------------------------------------------------
-- The invariant
-- ---------------------------------------------------------------------------

/-- The order store and the book agree. -/
structure Agree (k : Keeper) (s : State) : Prop where
  /-- A stored order has an id that `PlaceOrder` gave to it. -/
  named : ∀ (id : String) (o : Order), s.order[id]? = some o → PlacedId o.marketId id
  order : ∀ (id : String) (o : Order), s.order[id]? = some o → ∃ q r, o.Live k q r
  /-- An entry is the entry of a stored, resting order. -/
  entry : ∀ (kk : String) (e : Orderbook), s.orderbook[kk]? = some e →
    kk = e.key ∧ ∃ o, s.order[e.orderId]? = some o ∧ o.status = "PARTIAL" ∧
      e = restingEntry o e.orderId
  /-- A resting order has its entry. -/
  listed : ∀ (id : String) (o : Order), s.order[id]? = some o → o.status = "PARTIAL" →
    s.orderbook[(restingEntry o id).key]? = some (restingEntry o id)

namespace Agree

variable {s s' : State}

/-- The agreement is about the orders and the book only. -/
theorem of_stores (h : Agree k s) (hOrder : s'.order = s.order)
    (hBook : s'.orderbook = s.orderbook) : Agree k s' := by
  obtain ⟨h₁, h₂, h₃, h₄⟩ := h
  exact ⟨by rwa [hOrder], by rwa [hOrder], by rwa [hOrder, hBook], by rwa [hOrder, hBook]⟩

/-- Every entry lies under its own key. -/
theorem keyed (h : Agree k s) : Keyed s := fun kk e he => (h.entry kk e he).1

/-- No order has two entries. -/
theorem distinct (h : Agree k s) : Distinct s := by
  intro k₁ k₂ e₁ e₂ h₁ h₂ hId
  obtain ⟨hKey₁, o₁, ho₁, -, he₁⟩ := h.entry k₁ e₁ h₁
  obtain ⟨hKey₂, o₂, ho₂, -, he₂⟩ := h.entry k₂ e₂ h₂
  have ho : o₁ = o₂ := by
    rw [hId] at ho₁
    exact Option.some.inj (ho₁.symm.trans ho₂)
  rw [hKey₁, hKey₂, he₁, he₂, ho, hId]

/-- An id without an order has no entry. -/
theorem unnamed (h : Agree k s) {id : String} (hFresh : id ∉ s.order) : Unnamed s id := by
  intro kk e he hId
  obtain ⟨-, o, ho, -⟩ := h.entry kk e he
  exact hFresh (hId ▸ Store.mem_iff.mpr ⟨o, ho⟩)

/-- The order behind a candidate: it rests, with something remaining. -/
theorem maker (h : Agree k s) {entry : Orderbook} (hEntry : s.orderbook[entry.key]? = some entry) :
    ∃ o q r, s.order[entry.orderId]? = some o ∧ o.status = "PARTIAL" ∧
      entry = restingEntry o entry.orderId ∧ o.Live k q r ∧ 0 < r := by
  obtain ⟨-, o, ho, hPartial, he⟩ := h.entry entry.key entry hEntry
  obtain ⟨q, r, hLive⟩ := h.order entry.orderId o ho
  have hr := (hLive.partial_iff.mp hPartial).1
  have := hLive.nonneg
  exact ⟨o, q, r, ho, hPartial, he, hLive, by omega⟩

/-- The order of an entry is in the market of the entry. -/
theorem maker_market (h : Agree k s) {entry : Orderbook} {o : Order}
    (hEntry : s.orderbook[entry.key]? = some entry) (ho : s.order[entry.orderId]? = some o) :
    o.marketId = entry.marketId := by
  obtain ⟨o', -, -, ho', -, he, -⟩ := h.maker hEntry
  obtain rfl : o' = o := Option.some.inj (ho'.symm.trans ho)
  exact (congrArg Orderbook.marketId he).symm

/-- An order rests exactly when one entry of the book names it. -/
theorem resting_iff (h : Agree k s) {id : String} {o : Order} (ho : s.order[id]? = some o) :
    o.status = "PARTIAL" ↔ ∃! kv : String × Orderbook,
      s.orderbook[kv.1]? = some kv.2 ∧ kv.2.orderId = id := by
  refine ⟨?_, ?_⟩
  · intro hPartial
    have hListed := h.listed id o ho hPartial
    refine ⟨⟨(restingEntry o id).key, restingEntry o id⟩, ⟨hListed, rfl⟩, ?_⟩
    rintro ⟨kk, e⟩ ⟨hk, hId⟩
    have hKey : kk = (restingEntry o id).key := h.distinct kk _ e _ hk hListed hId
    subst hKey
    have he : e = restingEntry o id := Option.some.inj (hk.symm.trans hListed)
    rw [he]
  · intro hOne
    obtain ⟨⟨kk, e⟩, ⟨hk, hId⟩, -⟩ := hOne
    obtain ⟨-, o', ho', hPartial, -⟩ := h.entry kk e hk
    have hSame : o' = o := by
      rw [show e.orderId = id from hId] at ho'
      exact Option.some.inj (ho'.symm.trans ho)
    rw [← hSame, hPartial]

/-- An entry and its key carry the fields of the order. -/
theorem entry_fields (h : Agree k s) {kk : String} {e : Orderbook}
    (hk : s.orderbook[kk]? = some e) :
    ∃ o, s.order[e.orderId]? = some o ∧ e.marketId = o.marketId ∧ e.side = o.side ∧
      e.price = o.price ∧ kk = orderbookKey o.marketId o.side o.price e.orderId := by
  obtain ⟨hKey, o, ho, -, he⟩ := h.entry kk e hk
  rw [he] at hKey
  exact ⟨o, ho, by rw [he]; rfl, by rw [he]; rfl, by rw [he]; rfl, hKey⟩

-- ---------------------------------------------------------------------------
-- What keeps it
-- ---------------------------------------------------------------------------

/-- A fill keeps the agreement: its maker either stays `PARTIAL` with its entry
or is `FILLED` and loses it. -/
theorem fill (hLaw : k.sdk.Lawful) (h : Agree k s) {taker : Order} {takerId : String}
    {market : Market} {entry : Orderbook} {rem left r p n : Int} {maker : Order}
    (hEntry : s.orderbook[entry.key]? = some entry)
    (hFilled : Filled k taker takerId market entry rem s maker r p n left s') : Agree k s' := by
  obtain ⟨o, q, r', ho, hPartial, he, hLive, hPos⟩ := h.maker hEntry
  obtain rfl : o = maker := Option.some.inj (ho.symm.trans (hFilled.maker_stored hLaw))
  obtain rfl : r' = r := Option.some.inj (hLive.remaining.symm.trans hFilled.remaining)
  have hn : n ≤ r' := by have := hFilled.qty; omega
  have hLive' := hLive.makerAfter hLaw hPartial hFilled.qty_nonneg hn
  have hStored := hFilled.stored_after
  refine ⟨?_, ?_, ?_, ?_⟩
  · intro id o' ho'
    by_cases hId : id = entry.orderId
    · rw [hId, hStored] at ho'
      obtain rfl := Option.some.inj ho'
      rw [hId]
      exact h.named entry.orderId o ho
    · exact h.named id o' (hFilled.stored_other hId ▸ ho')
  · intro id o' ho'
    by_cases hId : id = entry.orderId
    · rw [hId, hStored] at ho'
      exact ⟨q, r' - n, Option.some.inj ho' ▸ hLive'⟩
    · exact h.order id o' (hFilled.stored_other hId ▸ ho')
  · intro kk e hk
    have hk₀ := hFilled.book_subset hk
    obtain ⟨hKey, o', ho', hPartial', he'⟩ := h.entry kk e hk₀
    refine ⟨hKey, ?_⟩
    by_cases hId : e.orderId = entry.orderId
    · -- the entry is the filled one, and it is still there
      have hSame : kk = entry.key := h.distinct kk entry.key e entry hk₀ hEntry hId
      obtain rfl : e = entry := by
        rw [hSame, hEntry] at hk₀
        exact (Option.some.inj hk₀).symm
      have hLeft : r' - n ≠ 0 := by
        intro hZero
        rw [hFilled.orderbook, if_pos hZero, hSame, Std.ExtTreeMap.getElem?_erase_self] at hk
        cases hk
      refine ⟨makerAfter o r' n, hStored, ?_, he⟩
      rw [makerAfter, if_neg hLeft, hPartial]
    · exact ⟨o', by rw [hFilled.stored_other hId, ho'], hPartial', he'⟩
  · intro id o' ho' hPartial'
    by_cases hId : id = entry.orderId
    · rw [hId, hStored] at ho'
      obtain rfl := Option.some.inj ho'
      have hLeft : r' - n ≠ 0 := (hLive'.partial_iff.mp hPartial').1
      rw [hFilled.orderbook, if_neg hLeft, hId]
      show s.orderbook[(restingEntry o entry.orderId).key]? = some (restingEntry o entry.orderId)
      rw [← he, hEntry]
    · rw [hFilled.stored_other hId] at ho'
      have hListed := h.listed id o' ho' hPartial'
      rw [hFilled.orderbook]
      split
      · refine (Store.get?_erase_ne fun hKey => hId ?_).trans hListed
        rw [hKey, hEntry] at hListed
        rw [Option.some.inj hListed]
        rfl
      · exact hListed

/-- The key of a new order's entry is not in use. -/
theorem restingEntry_fresh (hLaw : k.sdk.Lawful) (h : Agree k s) {taker : Order}
    {takerId : String} {q r : Int} (hLive : taker.Live k q r)
    (hNamed : PlacedId taker.marketId takerId) (hFresh : takerId ∉ s.order) :
    s.orderbook[(restingEntry taker takerId).key]? = none := by
  cases hOld : s.orderbook[(restingEntry taker takerId).key]? with
  | none => rfl
  | some e =>
    obtain ⟨hKey, o, ho, -, he⟩ := h.entry _ e hOld
    obtain ⟨q', r', hLive'⟩ := h.order _ o ho
    rw [he] at hKey
    have hId : takerId = e.orderId :=
      orderbookKey_inj hLive.side hLive'.side (hLive.bar_notMem_price hLaw)
        (hLive'.bar_notMem_price hLaw) hNamed (h.named _ o ho) hKey
    exact absurd (hId ▸ Store.mem_iff.mpr ⟨o, ho⟩) hFresh

/-- Writing an order under an id of its market leaves every order under such an id. -/
theorem named_insert (h : Agree k s) {o : Order} {id : String} (hNamed : PlacedId o.marketId id)
    (id' : String) (o' : Order) (ho' : (s.order.insert id o)[id']? = some o') :
    PlacedId o'.marketId id' := by
  rw [Store.get?_insert] at ho'
  split at ho'
  next hId => rwa [hId, ← Option.some.inj ho']
  next => exact h.named id' o' ho'

/-- Writing a live order leaves every order live. -/
theorem live_insert (h : Agree k s) {o : Order} {id : String} {q r : Int} (hLive : o.Live k q r)
    (id' : String) (o' : Order) (ho' : (s.order.insert id o)[id']? = some o') :
    ∃ q r, o'.Live k q r := by
  rw [Store.get?_insert] at ho'
  split at ho'
  · exact ⟨q, r, Option.some.inj ho' ▸ hLive⟩
  · exact h.order id' o' ho'

/-- A new order that does not rest has no entry. -/
theorem insert_done (h : Agree k s) {o : Order} {id : String} {q r : Int}
    (hLive : o.Live k q r) (hNamed : PlacedId o.marketId id) (hFresh : id ∉ s.order)
    (hDone : o.status ≠ "PARTIAL") : Agree k { s with order := s.order.insert id o } := by
  refine ⟨h.named_insert hNamed, h.live_insert hLive, ?_, ?_⟩
  · intro kk e hk
    obtain ⟨hKey, o', ho', hPartial, he⟩ := h.entry kk e hk
    exact ⟨hKey, o', by rw [Store.get?_insert_ne (h.unnamed hFresh kk e hk), ho'], hPartial, he⟩
  · intro id' o' ho' hPartial
    rw [Store.get?_insert] at ho'
    split at ho'
    · exact absurd (Option.some.inj ho' ▸ hPartial) hDone
    · exact h.listed id' o' ho' hPartial

/-- A new order that rests brings its entry with it. -/
theorem insert_resting (hLaw : k.sdk.Lawful) (h : Agree k s) {o : Order} {id : String}
    {q r : Int} (hLive : o.Live k q r) (hNamed : PlacedId o.marketId id) (hFresh : id ∉ s.order)
    (hPartial : o.status = "PARTIAL") : Agree k { s with
      orderbook := s.orderbook.insert (restingEntry o id).key (restingEntry o id)
      order := s.order.insert id o } := by
  have hKeyFree := h.restingEntry_fresh hLaw hLive hNamed hFresh
  refine ⟨h.named_insert hNamed, h.live_insert hLive, ?_, ?_⟩
  · intro kk e hk
    rw [Store.get?_insert] at hk
    split at hk
    next hKey =>
      obtain rfl := Option.some.inj hk
      exact ⟨hKey, o, Std.ExtTreeMap.getElem?_insert_self, hPartial, rfl⟩
    next =>
      obtain ⟨hKey, o', ho', hPartial', he⟩ := h.entry kk e hk
      refine ⟨hKey, o', ?_, hPartial', he⟩
      rw [Store.get?_insert_ne (h.unnamed hFresh kk e hk), ho']
  · intro id' o' ho' hPartial'
    rw [Store.get?_insert] at ho'
    split at ho'
    next hId =>
      obtain rfl := Option.some.inj ho'
      rw [hId, Std.ExtTreeMap.getElem?_insert_self]
    next hId =>
      have hListed := h.listed id' o' ho' hPartial'
      refine (Store.get?_insert_ne fun hKey => ?_).trans hListed
      rw [hKey, hKeyFree] at hListed
      cases hListed

/-- The book key the purge removes is the key of no entry. -/
theorem purge_misses (hLaw : k.sdk.Lawful) (h : Agree k s) {id : String} {o : Order}
    (hStored : s.order[id]? = some o) : (purgeOrder s id o).orderbook = s.orderbook := by
  obtain ⟨q, r, hLive⟩ := h.order id o hStored
  refine Store.erase_of_get?_none ?_
  cases hHit : s.orderbook[o.marketId ++ "|" ++ o.price ++ "|" ++ id]? with
  | none => rfl
  | some e =>
    obtain ⟨hKey, o', ho', -, he⟩ := h.entry _ e hHit
    obtain ⟨q', r', hLive'⟩ := h.order _ o' ho'
    rw [he] at hKey
    exact absurd hKey (purgeKey_ne hLive'.side (hLive.bar_notMem_price hLaw)
      (hLive'.bar_notMem_price hLaw) (h.named id o hStored) (h.named _ o' ho'))

/-- No entry names a filled order. -/
theorem unnamed_of_filled (h : Agree k s) {id : String} {o : Order}
    (hStored : s.order[id]? = some o) (hFilled : o.status = "FILLED") : Unnamed s id := by
  intro kk e hk hId
  obtain ⟨-, o', ho', hPartial, -⟩ := h.entry kk e hk
  rw [hId, hStored] at ho'
  rw [← Option.some.inj ho', hFilled] at hPartial
  exact absurd hPartial (by decide)

/-- Purging a filled order keeps orders and book in agreement. -/
theorem purge (hLaw : k.sdk.Lawful) (h : Agree k s) {id : String} {o : Order}
    (hStored : s.order[id]? = some o) (hFilled : o.status = "FILLED") :
    Agree k (purgeOrder s id o) := by
  have hMissed := h.purge_misses hLaw hStored
  refine ⟨fun id' o' ho' => h.named id' o' (Store.get?_of_erase ho').2,
    fun id' o' ho' => h.order id' o' (Store.get?_of_erase ho').2,
    fun kk e hk => ?_, fun id' o' ho' hPartial => ?_⟩
  · rw [hMissed] at hk
    obtain ⟨hKey, o', ho', hPartial, he⟩ := h.entry kk e hk
    have hne := h.unnamed_of_filled hStored hFilled kk e hk
    exact ⟨hKey, o', (Store.get?_erase_ne hne).trans ho', hPartial, he⟩
  · rw [hMissed]
    exact h.listed id' o' (Store.get?_of_erase ho').2 hPartial

/-- So does a whole purge. -/
theorem purges (hLaw : k.sdk.Lawful) (h : Agree k s) (limit : Nat) :
    Agree k (Keeper.batchCleanFilledOrders s limit).1 :=
  purge_induction (P := Agree k) (fun _ _ _ hStored hFilled h => h.purge hLaw hStored hFilled)
    limit h

end Agree

-- ---------------------------------------------------------------------------
-- Markets of entries
-- ---------------------------------------------------------------------------

/-- The pairs of the markets, as far as their ids are made of denoms without a dash. -/
structure Paired (s : State) : Prop where
  /-- The id of a market determines its denoms. -/
  pair : ∀ (id : String) (m : Market), s.market[id]? = some m →
    id = pairId m.baseDenom m.quoteDenom ∧ '-' ∉ m.baseDenom.toList
  /-- The market of an entry is registered. -/
  listed : ∀ (kk : String) (e : Orderbook), s.orderbook[kk]? = some e →
    ∃ m, s.market[e.marketId]? = some m

namespace Paired

variable {s s' : State}

/-- The pairs remain while entries only go. -/
theorem mono (h : Paired s) (hBook : BookLE s' s) (hMarket : s'.market = s.market) :
    Paired s' :=
  ⟨hMarket ▸ h.pair, fun kk e he => hMarket ▸ h.listed kk e (hBook kk e he)⟩

/-- The market of an entry stands for the pair that its id is made of. -/
theorem denoms (h : Paired s) {id base quote : String} {m : Market}
    (hm : s.market[id]? = some m) (hId : id = pairId base quote) (hDash : '-' ∉ base.toList) :
    base = m.baseDenom ∧ quote = m.quoteDenom := by
  obtain ⟨hPair, hDash'⟩ := h.pair id m hm
  exact pairId_inj hDash hDash' (hId.symm.trans hPair)

/-- A pair whose base denom holds no dash may be registered. -/
theorem register (h : Paired s) {msg : MsgRegisterPairs} (hDash : '-' ∉ msg.baseDenom.toList) :
    Paired { s with
      market := s.market.insert (pairId msg.baseDenom msg.quoteDenom) msg.toMarket } := by
  constructor
  · intro id m hm
    rw [Store.get?_insert] at hm
    split at hm
    next hId =>
      obtain rfl := Option.some.inj hm
      exact ⟨hId, hDash⟩
    next => exact h.pair id m hm
  · exact fun kk e he => Store.exists_get?_insert _ _ (h.listed kk e he)

/-- A placed order is one of a registered market. -/
theorem placed (h : Paired s) {ctx : Context} {msg : MsgPlaceOrder} {market : Market}
    {quantity : Int} {coins : Coins} {bank : Bank}
    (hPlaced : Placed k ctx s msg market quantity coins bank s') : Paired s' := by
  have hMarket : s'.market = s.market := hPlaced.frame.1
  refine ⟨hMarket ▸ h.pair, ?_⟩
  intro kk e he
  rw [hMarket]
  rcases matchOrders_book_cases hPlaced.matched he with hOld | ⟨rfl, -⟩
  · exact h.listed kk e hOld
  · exact ⟨market, hPlaced.listed⟩

end Paired

-- ---------------------------------------------------------------------------
-- The execution loop
-- ---------------------------------------------------------------------------

/-- What holds before every pass through the execution loop of a taker that
started with `top` to fill; `I` is whatever else the fills keep. -/
structure Looping (k : Keeper) (taker : Order) (I : Int → State → Prop) (s₀ : State)
    (top : Int) (rest : List Orderbook) (rem : Int) (s : State) : Prop where
  compatible : ∀ e ∈ rest, Compatible k taker e
  pending : Pending rest s
  agree : Agree k s
  extra : I rem s
  nonneg : 0 ≤ rem
  le : rem ≤ top
  keys : ∀ id, id ∈ s.order ↔ id ∈ s₀.order

section Loop

variable {taker : Order} {takerId : String} {market : Market} {I : Int → State → Prop}

/-- The fills of `taker` keep `I`. -/
def FillsKeep (k : Keeper) (taker : Order) (takerId : String) (market : Market)
    (I : Int → State → Prop) : Prop :=
  ∀ {entry : Orderbook} {rem left r p n : Int} {s s' : State} {maker : Order},
    Agree k s → s.orderbook[entry.key]? = some entry → Compatible k taker entry → 0 < rem →
    Filled k taker takerId market entry rem s maker r p n left s' → I rem s → I left s'

/-- One fill keeps the invariant of the loop, with the part that the caller adds. -/
theorem Looping.next (hLaw : k.sdk.Lawful) (hI : FillsKeep k taker takerId market I)
    {s₀ s s' : State} {top : Int} {entry : Orderbook} {rest : List Orderbook}
    {rem left r p n : Int} {maker : Order} (hRem : rem ≠ 0)
    (hFilled : Filled k taker takerId market entry rem s maker r p n left s')
    (h : Looping k taker I s₀ top (entry :: rest) rem s) :
    Looping k taker I s₀ top rest left s' := by
  have hn := hFilled.qty
  have hn0 := hFilled.qty_nonneg
  have hLeft := hFilled.left_eq
  have h0 := h.nonneg
  have hle := h.le
  exact {
    compatible := fun e he => h.compatible e (List.mem_cons_of_mem _ he)
    pending := h.pending.next hFilled
    agree := h.agree.fill hLaw h.pending.head hFilled
    extra := hI h.agree h.pending.head (h.compatible entry (List.mem_cons_self ..)) (by omega)
      hFilled h.extra
    nonneg := by omega
    le := by omega
    keys := fun id => by rw [hFilled.mem_order hLaw, h.keys] }

/-- The start of the loop. -/
theorem Agree.looping {s : State} (h : Agree k s) {cs : List Orderbook} {rem : Int}
    (hMem : ∀ e, e ∈ cs ↔ e ∈ s.orderbook.toList.map Prod.snd ∧ Compatible k taker e)
    (hSub : ∃ fetched, cs.Perm fetched ∧ fetched.Sublist (s.orderbook.toList.map Prod.snd))
    (hRem : 0 ≤ rem) (hI : I rem s) : Looping k taker I s rem cs rem s := by
  obtain ⟨fetched, hPerm, hSub⟩ := hSub
  exact ⟨fun e he => ((hMem e).mp he).2, h.keyed.pending hPerm hSub, h, hI, hRem, le_refl rem,
    fun _ => Iff.rfl⟩

/-- The end of the loop. -/
theorem Looping.loop (hLaw : k.sdk.Lawful) (hI : FillsKeep k taker takerId market I)
    {s₀ s s' : State} {top rem left : Int} {cs : List Orderbook}
    (hLoop : k.executeLoop taker takerId market cs rem s = .ok (left, s'))
    (h : Looping k taker I s₀ top cs rem s) : ∃ rest, Looping k taker I s₀ top rest left s' := by
  obtain ⟨rest, hRest, -⟩ :=
    executeLoop_induction (fun hRem hFilled h => h.next hLaw hI hRem hFilled) hLoop h
  exact ⟨rest, hRest⟩

end Loop

end Ganc.Dex
