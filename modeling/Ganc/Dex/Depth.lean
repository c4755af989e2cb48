import Ganc.Dex.Splitting
import Ganc.Lib.Ladder

/-!
# x/dex — the book as its price levels show it

`depth` forgets whose orders rest in the book, and under which ids and keys: it
says how much rests at each price of a side of a market. On this view an accepted
order is a `Quote`, and the abstract book answers a quote by itself
(`Depth.place`): the quantity sweeps the ladder of the other side, best prices
first and within its limit, and what a limit order has left goes to its own price.

The engine refines this book: after a run of well-formed orders the depth is what
the abstract book makes of the accepted orders (`depth_refines`), so the ties of
the sort, the ids, the heights, the purges and what was rejected do not show in
it. Two runs that have accepted the same quotes serve the next one alike
(`served_alike`), and a more generous quote takes no less at any price
(`generous_takes_more`).
-/

namespace Ganc.Dex

open Greedy (ladder sweep)

variable {k : Keeper}

-- ---------------------------------------------------------------------------
-- The abstract book
-- ---------------------------------------------------------------------------

/-- An order without a name: a market order has no limit. -/
structure Quote where
  marketId : String
  side : String
  limit : Option Int
  quantity : Int
deriving DecidableEq, Repr

/-- A price that the quote trades at. -/
def Quote.Accepts (o : Quote) (price : Int) : Prop :=
  ∀ limit ∈ o.limit, WithinLimit o.side limit price

instance (o : Quote) : DecidablePred o.Accepts := fun price => by
  unfold Quote.Accepts
  infer_instance

/-- How much rests at each price of a side of a market. -/
abbrev Depth := String → String → Int →₀ Int

namespace Depth

variable (d : Depth) (o : Quote)

/-- The part of the other side that a quote can trade with. -/
noncomputable def offer : Int →₀ Int :=
  (d o.marketId (Keeper.targetSide o.side)).filter o.Accepts

/-- What a quote takes at each price. -/
noncomputable def taken : Int →₀ Int := sweep (level o.side) (d.offer o) o.quantity

/-- What a quote has left. -/
noncomputable def left : Int := o.quantity - (d.taken o).sum fun _ n => n

/-- What a quote adds to its own side. -/
noncomputable def rest : Int →₀ Int := o.limit.elim 0 fun price => .single price (d.left o)

/-- The book after a quote. -/
noncomputable def place : Depth := fun marketId side =>
  if marketId = o.marketId then
    if side = Keeper.targetSide o.side then d marketId side - d.taken o
    else if side = o.side then d marketId side + d.rest o
    else d marketId side
  else d marketId side

end Depth

/-- Two prices of one level are one price. -/
theorem level_injective (side : String) : Function.Injective (level side) :=
  fun _ _ => level_eq_iff.mp

-- ---------------------------------------------------------------------------
-- The depth of a state
-- ---------------------------------------------------------------------------

/-- The entries of a side of a market. -/
def sideOf (s : State) (marketId side : String) : List Orderbook :=
  (s.orderbook.toList.map Prod.snd).filter fun e => e.marketId = marketId ∧ e.side = side

/-- The depth of the book: each entry counts for what is left of its order. -/
noncomputable def depth (k : Keeper) (s : State) : Depth := fun marketId side =>
  ladder (k.priceOf s) (k.openQty s) (sideOf s marketId side)

/-- An order as the abstract book sees it. -/
def MsgPlaceOrder.quote (k : Keeper) (msg : MsgPlaceOrder) : Quote where
  marketId := msg.marketId
  side := msg.side
  limit := if orderTypeOf msg.price = "LIMIT" then some (k.value msg.price) else none
  quantity := k.value msg.quantity

/-- A quote accepts the prices within the limit of its order. -/
theorem accepts_quote {msg : MsgPlaceOrder} {price : Int} : (msg.quote k).Accepts price ↔
    (msg.toOrder.orderType = "LIMIT" →
      WithinLimit msg.side (k.value msg.toOrder.price) price) := by
  show (∀ limit ∈ (if orderTypeOf msg.price = "LIMIT" then some (k.value msg.price) else none),
    WithinLimit msg.side limit price) ↔
    (orderTypeOf msg.price = "LIMIT" → WithinLimit msg.side (k.value msg.price) price)
  split
  next hLimit => simp [hLimit]
  next hMarket => simp [hMarket]

/-- The side of a market holds the entries that name both. -/
theorem Keyed.mem_sideOf {s : State} (h : Keyed s) {marketId side : String} {e : Orderbook} :
    e ∈ sideOf s marketId side ↔
      s.orderbook[e.key]? = some e ∧ e.marketId = marketId ∧ e.side = side := by
  rw [sideOf, List.mem_filter, h.mem_entries, decide_eq_true_eq]

theorem Keyed.nodup_sideOf {s : State} (h : Keyed s) (marketId side : String) :
    (sideOf s marketId side).Nodup :=
  h.nodup_entries.filter _

/-- What an order can trade with is the part of the other side that its quote accepts. -/
theorem makers_eq_filter (s : State) (msg : MsgPlaceOrder) : k.makers s msg.toOrder =
    (sideOf s msg.marketId (Keeper.targetSide msg.side)).filter
      fun e => (msg.quote k).Accepts (k.priceOf s e) := by
  rw [Keeper.makers, sideOf, List.filter_filter]
  refine List.filter_congr ?_
  intro e _
  rw [← Bool.decide_and, decide_eq_decide, accepts_quote]
  constructor
  · rintro ⟨hMarket, hSide, hWithin⟩
    exact ⟨hWithin, hMarket, hSide⟩
  · rintro ⟨hWithin, hMarket, hSide⟩
    exact ⟨hMarket, hSide, hWithin⟩

/-- What the depth offers a quote is the ladder of the makers of its order. -/
theorem offer_depth (s : State) (msg : MsgPlaceOrder) : (depth k s).offer (msg.quote k) =
    ladder (k.priceOf s) (k.openQty s) (k.makers s msg.toOrder) := by
  rw [makers_eq_filter]
  exact Greedy.filter_ladder _

-- ---------------------------------------------------------------------------
-- What a match leaves of the book
-- ---------------------------------------------------------------------------

section Match

variable {s s' s₁ : State} {taker : Order} {takerId : String} {market : Market}
variable {quantity rem left : Int} {cs : List Orderbook} {f : Orderbook → Int}

/-- The taker ends with an entry of its own. -/
def ComesToRest (taker : Order) (left : Int) : Prop := left ≠ 0 ∧ taker.orderType ≠ "MARKET"

instance : Decidable (ComesToRest taker left) := by
  unfold ComesToRest
  infer_instance

/-- The maker is used up. -/
def Emptied (k : Keeper) (s : State) (taker : Order) (f : Orderbook → Int) (e : Orderbook) : Prop :=
  e ∈ k.makers s taker ∧ f e = k.openQty s e

instance : DecidablePred (Emptied k s taker f) := fun e => by
  unfold Emptied
  infer_instance

/-- The entries after a match: those that are not used up, and the taker's if it rests. -/
theorem Matchable.entry_after (h : Matchable k s taker takerId quantity)
    (hPerm : cs.Perm (k.makers s taker))
    (hSwept : Swept k taker takerId market s cs f rem s left s₁)
    (hEnd : Finalized k taker takerId market left s₁ s') {e : Orderbook} :
    s'.orderbook[e.key]? = some e ↔
      s.orderbook[e.key]? = some e ∧ ¬ Emptied k s taker f e ∨
        ComesToRest taker left ∧ e = restingEntry taker takerId := by
  have hLoop : s₁.orderbook[e.key]? = some e ↔
      s.orderbook[e.key]? = some e ∧ ¬ Emptied k s taker f e := by
    rw [hSwept.book]
    split
    next hGone =>
      obtain ⟨e', he', hKey, hFull⟩ := hGone
      have hMaker := hPerm.mem_iff.mp he'
      refine iff_of_false (by simp) ?_
      rintro ⟨hStored, hNot⟩
      have hStored' := (h.maker_offered hMaker).1
      rw [hKey, hStored] at hStored'
      obtain rfl := Option.some.inj hStored'
      exact hNot ⟨hMaker, hFull⟩
    next hKept =>
      refine (and_iff_left ?_).symm
      rintro ⟨hMaker, hFull⟩
      exact hKept ⟨e, hPerm.mem_iff.mpr hMaker, rfl, hFull⟩
  cases hEnd with
  | filled hLeft => exact hLoop.trans (or_iff_left fun hRest => hRest.1.1 hLeft).symm
  | cancelled hLeft hMarket => exact hLoop.trans (or_iff_left fun hRest => hRest.1.2 hMarket).symm
  | resting hLeft hLimit =>
    rw [Store.get?_insert]
    split
    next hKey =>
      have hNew : ¬ (s.orderbook[e.key]? = some e ∧ ¬ Emptied k s taker f e) := by
        rintro ⟨hStored, -⟩
        exact h.newKey (hKey ▸ Store.mem_iff.mpr ⟨e, hStored⟩)
      rw [or_iff_right hNew, Option.some.injEq, eq_comm]
      exact (and_iff_right ⟨hLeft, hLimit⟩).symm
    next hKey =>
      rw [hLoop, or_iff_left]
      rintro ⟨-, rfl⟩
      exact hKey rfl

/-- The orders of the entries after a match. -/
theorem Matchable.makerOf_other (h : Matchable k s taker takerId quantity) (hDistinct : Distinct s)
    (hPerm : cs.Perm (k.makers s taker))
    (hSwept : Swept k taker takerId market s cs f rem s left s₁)
    (hEnd : Finalized k taker takerId market left s₁ s') (hUnnamed : Unnamed s takerId)
    {e : Orderbook} (he : s.orderbook[e.key]? = some e) (hOther : e ∉ k.makers s taker) :
    makerOf s' e = makerOf s e := by
  obtain ⟨status, hOrder⟩ := hEnd.order_eq
  rw [makerOf, hOrder, Store.get?_insert_ne (hUnnamed _ e he), hSwept.others, makerOf]
  intro hIn
  obtain ⟨e', he', hId⟩ := List.mem_map.mp hIn
  have hStored' := (h.maker_offered (hPerm.mem_iff.mp he')).1
  have hKey := hDistinct _ _ e' e hStored' he hId
  rw [hKey, he] at hStored'
  obtain rfl := Option.some.inj hStored'
  exact hOther (hPerm.mem_iff.mp he')

end Match

-- ---------------------------------------------------------------------------
-- An accepted order on the depth
-- ---------------------------------------------------------------------------

section Order

variable {ctx : Context} {s s' : State} {msg : MsgPlaceOrder} {market : Market}
variable {quantity : Int} {coins : Coins} {bank : Bank}

/-- What an accepted order has done: `f` is what the makers gave, in the fills `new`, and
`left` what remains of the order. -/
structure Served (k : Keeper) (ctx : Context) (s : State) (msg : MsgPlaceOrder) (quantity : Int)
    (f : Orderbook → Int) (left : Int) (new : List Fill) (s' : State) : Prop where
  greedy : Greedy.BestFirst (k.openQty s)
    (fun e e' => level msg.side (k.priceOf s e) < level msg.side (k.priceOf s e'))
    (k.makers s msg.toOrder) quantity f
  fills : s'.fills = s.fills ++ new
  levels : ∀ price, filledAt price new =
    Greedy.sumOn (fun e => k.priceOf s e = price) f (k.makers s msg.toOrder)
  left_eq : left = quantity - ((k.makers s msg.toOrder).map f).sum
  unfilled : unfilled k s' (msg.orderId ctx.height) = left
  entry : ∀ e, s'.orderbook[e.key]? = some e ↔
    s.orderbook[e.key]? = some e ∧ ¬ Emptied k s msg.toOrder f e ∨
      ComesToRest msg.toOrder left ∧ e = restingEntry msg.toOrder (msg.orderId ctx.height)
  price : ∀ e, s.orderbook[e.key]? = some e → k.priceOf s' e = k.priceOf s e
  openQty : ∀ e, s.orderbook[e.key]? = some e → k.openQty s' e =
    k.openQty s e - if e ∈ k.makers s msg.toOrder then f e else 0
  own : k.priceOf s' (restingEntry msg.toOrder (msg.orderId ctx.height)) = k.value msg.price ∧
    k.openQty s' (restingEntry msg.toOrder (msg.orderId ctx.height)) = left
  keyed : Keyed s ∧ Keyed s'
  newId : Unnamed s (msg.orderId ctx.height)
  side : msg.side = "BUY" ∨ msg.side = "SELL"

/-- Every placed order is served as a quote at the depth of the book. -/
theorem Agree.served (hLaw : k.sdk.Lawful) (h : Agree k s) (hMsg : Regular k msg)
    (hFresh : msg.orderId ctx.height ∉ s.order)
    (hPlaced : Placed k ctx s msg market quantity coins bank s') :
    ∃ f left new, Served k ctx s msg quantity f left new s' := by
  have hAgree : Agree k { s with bank := bank } := h.of_stores rfl rfl
  have hMatchable := hAgree.matchable hLaw hMsg (MsgPlaceOrder.placedId hPlaced.creator _)
    hPlaced.parsed hFresh
  obtain ⟨hAgree', hKept⟩ := h.placed hLaw hMsg hFresh hPlaced
  obtain ⟨cs, f, left, s₁, hPerm, hServed, hSwept, hEnd⟩ := hMatchable.swept hPlaced.matched
  have hUnnamed : Unnamed s (msg.orderId ctx.height) := h.unnamed hFresh
  have hMakers := hServed.perm hPerm
  have hLeft : left = quantity - ((k.makers s msg.toOrder).map f).sum := by
    rw [hSwept.left_eq, (hPerm.map f).sum_eq]
    rfl
  have hFits : MathInt.Fits left := by
    have hTotal := hMakers.total
    have hCap : 0 ≤ ((k.makers { s with bank := bank } msg.toOrder).map f).sum := by
      refine List.sum_nonneg ?_
      intro x hx
      obtain ⟨e, he, rfl⟩ := List.mem_map.mp hx
      exact (hMakers.bounds e he).1
    have hSum : left =
        quantity - ((k.makers { s with bank := bank } msg.toOrder).map f).sum := hLeft
    exact (hLaw.newInt_fits hPlaced.parsed).of_le (by omega) (by omega)
  refine ⟨f, left,
    fillsOf k msg.toOrder (msg.orderId ctx.height) market { s with bank := bank } f cs, ?_⟩
  constructor
  case greedy =>
    refine hMakers.congr (fun _ _ => rfl) ?_
    intro e _ e' _ hLess
    exact level_lt_iff.mp hLess
  case fills => rw [hEnd.frame.2, hSwept.fills]
  case levels =>
    intro price
    rw [filledAt_fillsOf]
    exact Greedy.sumOn_perm hPerm
  case left_eq => exact hLeft
  case unfilled => exact hEnd.unfilled_eq hLaw hFits
  case entry => exact fun e => hMatchable.entry_after hPerm hSwept hEnd
  case price =>
    intro e he
    obtain ⟨o, -, -, ho, -⟩ := h.maker he
    obtain ⟨o', ho', hEvolved⟩ := hKept _ o ho
    rw [Keeper.priceOf, Keeper.priceOf, makerOf, makerOf, ho, ho', Option.getD_some,
      Option.getD_some, hEvolved.price]
  case openQty =>
    intro e he
    split
    next hMaker =>
      exact hMatchable.openQty_after hLaw hPerm hSwept hEnd hMaker (hMakers.bounds e hMaker)
    next hOther =>
      rw [Keeper.openQty, Keeper.openQty, sub_zero,
        hMatchable.makerOf_other hAgree.distinct hPerm hSwept hEnd hUnnamed he hOther]
      rfl
  case own =>
    obtain ⟨status, hOrder⟩ := hEnd.order_eq
    have hMaker : makerOf s' (restingEntry msg.toOrder (msg.orderId ctx.height)) =
        takerAfter msg.toOrder left status := by
      show s'.order[msg.orderId ctx.height]?.getD default = _
      rw [hOrder, Std.ExtTreeMap.getElem?_insert_self, Option.getD_some]
    rw [Keeper.priceOf, Keeper.openQty, hMaker]
    exact ⟨rfl, Keeper.value_eq (hLaw.newInt_toString hFits)⟩
  case keyed => exact ⟨h.keyed, hAgree'.keyed⟩
  case newId => exact hUnnamed
  case side => exact hMsg.side

namespace Served

variable {f : Orderbook → Int} {left : Int} {new : List Fill}

/-- The entries of a side after an order. -/
theorem sideOf_perm (h : Served k ctx s msg quantity f left new s') (marketId side : String) :
    (sideOf s' marketId side).Perm
      ((if ComesToRest msg.toOrder left ∧ marketId = msg.marketId ∧ side = msg.side then
          [restingEntry msg.toOrder (msg.orderId ctx.height)] else []) ++
        (sideOf s marketId side).filter fun e => ¬ Emptied k s msg.toOrder f e) := by
  have hRight : ((if ComesToRest msg.toOrder left ∧ marketId = msg.marketId ∧ side = msg.side then
      [restingEntry msg.toOrder (msg.orderId ctx.height)] else []) ++
      (sideOf s marketId side).filter fun e => ¬ Emptied k s msg.toOrder f e).Nodup := by
    refine List.nodup_append.mpr ⟨?_, (h.keyed.1.nodup_sideOf marketId side).filter _, ?_⟩
    · split
      · exact List.nodup_singleton _
      · exact List.nodup_nil
    · intro e he e' he' hEq
      split at he
      · obtain rfl := List.mem_singleton.mp he
        obtain ⟨hStored, -⟩ := h.keyed.1.mem_sideOf.mp (List.mem_filter.mp he').1
        exact h.newId _ e' hStored (hEq ▸ rfl)
      · cases he
  refine (List.perm_ext_iff_of_nodup (h.keyed.2.nodup_sideOf marketId side) hRight).mpr ?_
  intro e
  rw [h.keyed.2.mem_sideOf, h.entry, List.mem_append, List.mem_filter, h.keyed.1.mem_sideOf,
    decide_eq_true_eq]
  constructor
  · rintro ⟨⟨hStored, hNot⟩ | ⟨hRests, rfl⟩, rfl, rfl⟩
    · exact .inr ⟨⟨hStored, rfl, rfl⟩, hNot⟩
    · refine .inl ?_
      rw [if_pos ⟨hRests, rfl, rfl⟩]
      exact List.mem_singleton_self _
  · rintro (hOwn | ⟨⟨hStored, hMarket, hSide⟩, hNot⟩)
    · split at hOwn
      next hRests =>
        obtain rfl := List.mem_singleton.mp hOwn
        exact ⟨.inr ⟨hRests.1, rfl⟩, hRests.2.1.symm, hRests.2.2.symm⟩
      next => cases hOwn
    · exact ⟨.inl ⟨hStored, hNot⟩, hMarket, hSide⟩

/-- What the makers of a side gave. -/
theorem ladder_given (h : Served k ctx s msg quantity f left new s') (marketId side : String) :
    ladder (k.priceOf s) (fun e => if e ∈ k.makers s msg.toOrder then f e else 0)
        (sideOf s marketId side) =
      if marketId = msg.marketId ∧ side = Keeper.targetSide msg.side then
        ladder (k.priceOf s) f (k.makers s msg.toOrder) else 0 := by
  have hGiven : ladder (k.priceOf s) (fun e => if e ∈ k.makers s msg.toOrder then f e else 0)
      ((sideOf s marketId side).filter fun e => e ∈ k.makers s msg.toOrder) =
      ladder (k.priceOf s) (fun e => if e ∈ k.makers s msg.toOrder then f e else 0)
        (sideOf s marketId side) := by
    refine Greedy.ladder_filter ?_
    intro e _ hOther
    exact if_neg (by simpa using hOther)
  rw [← hGiven]
  split
  next hTarget =>
    obtain ⟨rfl, rfl⟩ := hTarget
    have hSame : ((sideOf s msg.marketId (Keeper.targetSide msg.side)).filter
        fun e => e ∈ k.makers s msg.toOrder).Perm (k.makers s msg.toOrder) := by
      refine (List.perm_ext_iff_of_nodup ((h.keyed.1.nodup_sideOf _ _).filter _)
        (h.keyed.1.nodup_makers _)).mpr ?_
      intro e
      rw [List.mem_filter, decide_eq_true_eq, h.keyed.1.mem_sideOf]
      refine and_iff_right_of_imp ?_
      intro hMaker
      obtain ⟨hStored, hMarket, hSide, -⟩ := h.keyed.1.mem_makers.mp hMaker
      exact ⟨hStored, hMarket, hSide⟩
    rw [Greedy.ladder_perm hSame]
    exact Greedy.ladder_congr (fun _ _ => rfl) fun e he => if_pos he
  next hOther =>
    have hNone : ((sideOf s marketId side).filter fun e => e ∈ k.makers s msg.toOrder) = [] := by
      refine List.filter_eq_nil_iff.mpr ?_
      intro e he hMaker
      obtain ⟨-, rfl, rfl⟩ := h.keyed.1.mem_sideOf.mp he
      obtain ⟨-, hMarket, hSide, -⟩ := h.keyed.1.mem_makers.mp (by simpa using hMaker)
      exact hOther ⟨hMarket, hSide⟩
    rw [hNone]
    rfl

/-- What the makers gave is what the quote takes. -/
theorem taken_eq (h : Served k ctx s msg quantity f left new s')
    (hQuantity : k.value msg.quantity = quantity) :
    (depth k s).taken (msg.quote k) = ladder (k.priceOf s) f (k.makers s msg.toOrder) := by
  rw [h.greedy.ladder_eq (level_injective msg.side), Depth.taken, offer_depth, ← hQuantity]
  rfl

/-- What the quote leaves is what the order has left. -/
theorem left_quote (h : Served k ctx s msg quantity f left new s')
    (hQuantity : k.value msg.quantity = quantity) :
    (depth k s).left (msg.quote k) = left := by
  rw [Depth.left, h.taken_eq hQuantity, Greedy.sum_ladder, h.left_eq, ← hQuantity]
  rfl

/-- At each price, what is filled is what the quote takes. -/
theorem filledAt_eq (h : Served k ctx s msg quantity f left new s')
    (hQuantity : k.value msg.quantity = quantity) (price : Int) :
    filledAt price new = (depth k s).taken (msg.quote k) price := by
  rw [h.levels, h.taken_eq hQuantity, Greedy.ladder_apply]

/-- What an order with something left adds to its side. -/
theorem ladder_own (h : Served k ctx s msg quantity f left new s')
    (hQuantity : k.value msg.quantity = quantity) :
    ladder (k.priceOf s') (k.openQty s') (if ComesToRest msg.toOrder left then
      [restingEntry msg.toOrder (msg.orderId ctx.height)] else []) =
      (depth k s).rest (msg.quote k) := by
  rw [Depth.rest, h.left_quote hQuantity]
  show _ = (if orderTypeOf msg.price = "LIMIT" then some (k.value msg.price) else none).elim 0 _
  by_cases hLimit : orderTypeOf msg.price = "LIMIT"
  · rw [if_pos hLimit, Option.elim_some]
    by_cases hLeft : left = 0
    · rw [if_neg fun hRests => hRests.1 hLeft, hLeft, Finsupp.single_zero]
      rfl
    · rw [if_pos ⟨hLeft, orderTypeOf_eq_limit.mp hLimit⟩, Greedy.ladder_cons, h.own.1, h.own.2]
      exact add_zero _
  · have hMarket : ¬ ComesToRest msg.toOrder left :=
      fun hRests => hLimit (orderTypeOf_eq_limit.mpr hRests.2)
    rw [if_neg hLimit, if_neg hMarket]
    rfl

/-- **An accepted order is one step of the abstract book.** -/
theorem depth_eq (h : Served k ctx s msg quantity f left new s')
    (hQuantity : k.value msg.quantity = quantity) :
    depth k s' = (depth k s).place (msg.quote k) := by
  funext marketId side
  have hStored : ∀ e ∈ sideOf s marketId side, s.orderbook[e.key]? = some e :=
    fun e he => (h.keyed.1.mem_sideOf.mp he).1
  -- the entries that were there before, used up or not
  have hOld : ladder (k.priceOf s') (k.openQty s')
      ((sideOf s marketId side).filter fun e => ¬ Emptied k s msg.toOrder f e) =
      depth k s marketId side -
        if marketId = msg.marketId ∧ side = Keeper.targetSide msg.side then
          (depth k s).taken (msg.quote k) else 0 := by
    rw [h.taken_eq hQuantity, ← h.ladder_given, depth, ← Greedy.ladder_sub]
    refine (Greedy.ladder_congr ?_ ?_).trans (Greedy.ladder_filter ?_)
    · exact fun e he => h.price e (hStored e (List.mem_filter.mp he).1)
    · exact fun e he => h.openQty e (hStored e (List.mem_filter.mp he).1)
    · intro e _ hGone
      obtain ⟨hMaker, hFull⟩ : Emptied k s msg.toOrder f e := by simpa using hGone
      rw [if_pos hMaker, hFull, sub_self]
  have hNew : ladder (k.priceOf s') (k.openQty s')
      (if ComesToRest msg.toOrder left ∧ marketId = msg.marketId ∧ side = msg.side then
        [restingEntry msg.toOrder (msg.orderId ctx.height)] else []) =
      if marketId = msg.marketId ∧ side = msg.side then (depth k s).rest (msg.quote k) else 0 := by
    split
    next hOwn => rw [if_pos hOwn.2, ← h.ladder_own hQuantity, if_pos hOwn.1]
    next hNot =>
      split
      next hOwn =>
        rw [← h.ladder_own hQuantity, if_neg fun hRests => hNot ⟨hRests, hOwn⟩]
      next => rfl
  have hTarget := targetSide_ne h.side
  show ladder _ _ (sideOf s' marketId side) = _
  rw [Greedy.ladder_perm (h.sideOf_perm marketId side), Greedy.ladder_append, hOld, hNew,
    Depth.place]
  show _ = if marketId = msg.marketId then if side = Keeper.targetSide msg.side then _ else
    if side = msg.side then _ else _ else _
  by_cases hMarket : marketId = msg.marketId
  · by_cases hOther : side = Keeper.targetSide msg.side
    · have hNotOwn : side ≠ msg.side := fun hOwn => hTarget (hOther.symm.trans hOwn)
      simp only [hMarket, if_true, if_pos hOther, hNotOwn, and_false, if_false, true_and, zero_add]
    · simp only [hMarket, if_true, hOther, and_false, if_false, true_and, sub_zero]
      split
      · exact add_comm _ _
      · exact zero_add _
  · simp only [hMarket, if_false, false_and, sub_zero, zero_add]

end Served

end Order

-- ---------------------------------------------------------------------------
-- Runs
-- ---------------------------------------------------------------------------

/-- A purge of filled orders leaves the depth as it is. -/
theorem Quiet.depth_eq {s s' : State} (h : Quiet s s') : depth k s' = depth k s := by
  funext marketId side
  have hMaker : ∀ e ∈ sideOf s marketId side, makerOf s' e = makerOf s e := by
    intro e he
    obtain ⟨kv, hkv, rfl⟩ := List.mem_map.mp (List.mem_filter.mp he).1
    exact h.makerOf_eq (Store.mem_toList.mp hkv)
  rw [depth, depth, sideOf, h.orderbook, ← sideOf]
  refine Greedy.ladder_congr ?_ ?_
  · intro e he
    rw [Keeper.priceOf, hMaker e he, Keeper.priceOf]
  · intro e he
    rw [Keeper.openQty, hMaker e he, Keeper.openQty]

/-- The depth is never negative. -/
theorem Agree.depth_nonneg {s : State} (h : Agree k s) (marketId side : String) (price : Int) :
    0 ≤ depth k s marketId side price := by
  rw [depth, Greedy.ladder_apply]
  refine Greedy.sumOn_nonneg ?_
  intro e he
  obtain ⟨hStored, -⟩ := h.keyed.mem_sideOf.mp he
  obtain ⟨o, q, r, ho, -, -, hLive, hPos⟩ := h.maker hStored
  rw [Keeper.openQty, makerOf, ho, Option.getD_some, Keeper.value_eq hLive.remaining]
  exact hPos.le

/-- The quote of a message that places an order. -/
def quotesOf (k : Keeper) (_ : Context) : Msg → List Quote
  | .placeOrder msg => [msg.quote k]
  | _ => []

/-- The quotes of the accepted orders of a run, in order. -/
def Keeper.quotes (k : Keeper) (start : State) (ops : List Op) : List Quote :=
  Run.trace k.step (k.accepted (quotesOf k)) start ops

/-- The state between the steps of a run of orders: its orders have been placed. -/
theorem OrderRun.history (hLaw : k.sdk.Lawful) {start : State} {ops : List Op}
    (h : OrderRun k start ops) : Agree k (Run.exec k.step start ops) ∧
      ∀ id ∈ (Run.exec k.step start ops).order,
        id ∈ Run.trace k.step (k.accepted orderIds) start ops := by
  let P : List String → State → Prop := fun ids s => Agree k s ∧ ∀ id ∈ s.order, id ∈ ids
  have hStart : P [] start := ⟨h.opening.trading.agree, (h.opening.trading (k := k)).stored⟩
  have hStep : ∀ ids s op, RegularOp k op → (ids ++ k.accepted orderIds s op).Nodup → P ids s →
      P (ids ++ k.accepted orderIds s op) (k.step s op) :=
    fun _ _ _ hOp hNodup hState => agree_step hLaw hOp hNodup hState
  exact Run.exec_history (P := P) (fun _ _ => List.Nodup.of_append_left) hStep
    (Run.steps_of_forall h.op) h.fresh hStart

/-- **One step of a run** is what the abstract book makes of the quote it has accepted. -/
theorem Agree.depth_step (hLaw : k.sdk.Lawful) {s : State} {op : Op} {ids : List String}
    (h : Agree k s) (hIds : ∀ id ∈ s.order, id ∈ ids) (hOp : RegularOp k op)
    (hNodup : (ids ++ k.accepted orderIds s op).Nodup) :
    depth k (k.step s op) = (k.accepted (quotesOf k) s op).foldl Depth.place (depth k s) := by
  have hPurge : ∀ limit, depth k (Keeper.batchCleanFilledOrders s limit).1 = depth k s :=
    fun limit => (h.quiet_purge hLaw limit).depth_eq
  cases op with
  | endBlock => exact hPurge 5
  | deliver ctx msg =>
    cases hHandle : k.handle ctx s msg with
    | error e => rw [step_of_error hHandle, accepted_of_error hHandle, List.foldl_nil]
    | ok p =>
      obtain ⟨s', r⟩ := p
      rw [accepted_of_ok hHandle] at hNodup ⊢
      rw [step_of_ok hHandle]
      cases msg with
      | registerPairs msg =>
        cases handle_effect hHandle with
        | rejected => rfl
        | registerPairs => rfl
      | cleanOrders msg =>
        cases handle_effect hHandle with
        | rejected => rfl
        | cleanOrders limit => exact hPurge limit
      | placeOrder msg =>
        obtain ⟨-, market, quantity, coins, bank, hPlaced⟩ := placeOrder_eq_ok hHandle
        have hFresh : msg.orderId ctx.height ∉ s.order := fun hid =>
          (List.nodup_append.mp hNodup).2.2 _ (hIds _ hid) _ (List.mem_singleton_self _) rfl
        obtain ⟨f, left, new, hServed⟩ := h.served hLaw hOp hFresh hPlaced
        exact hServed.depth_eq (Keeper.value_eq hPlaced.parsed)
      | _ => exact hOp.elim

/-- A run up to one of its steps. -/
theorem OrderRun.init {start : State} {ops : List Op} {op : Op} {rest : List Op}
    (h : OrderRun k start (ops ++ op :: rest)) : OrderRun k start ops ∧ RegularOp k op ∧
      (Run.trace k.step (k.accepted orderIds) start ops ++
        k.accepted orderIds (Run.exec k.step start ops) op).Nodup := by
  have hFresh := h.fresh
  rw [Run.trace_append, Run.trace_cons, ← List.append_assoc] at hFresh
  have hBefore := List.Nodup.of_append_left hFresh
  exact ⟨⟨h.opening, fun op' hop => h.op op' (List.mem_append_left _ hop),
    List.Nodup.of_append_left hBefore⟩, h.op op (by simp), hBefore⟩

/-- After every run of orders, the depth is that of their quotes one after the other. -/
theorem OrderRun.depth_eq (hLaw : k.sdk.Lawful) {start : State} {ops : List Op}
    (h : OrderRun k start ops) : depth k (Run.exec k.step start ops) =
      (k.quotes start ops).foldl Depth.place fun _ _ => 0 := by
  induction ops using List.reverseRecOn with
  | nil =>
    funext marketId side
    show ladder _ _ (sideOf start marketId side) = 0
    have hEmpty : sideOf start marketId side = [] := by
      rw [sideOf, h.opening.orderbook]
      rfl
    rw [hEmpty]
    rfl
  | append_singleton ops op ih =>
    obtain ⟨hRun, hOp, hFresh⟩ := h.init
    obtain ⟨hAgree, hIds⟩ := hRun.history hLaw
    rw [Run.exec_append, Run.exec_cons, Run.exec_nil, Keeper.quotes, Run.trace_append,
      Run.trace_cons, Run.trace_nil, List.append_nil, List.foldl_append,
      hAgree.depth_step hLaw hIds hOp hFresh, ih hRun]
    rfl

/-- What an accepted order of a run does, read off the depth. -/
theorem OrderRun.served (hLaw : k.sdk.Lawful) {start s s' : State} {ops : List Op}
    (hRun : OrderRun k start ops) (hReached : s = Run.exec k.step start ops) {ctx : Context}
    {msg : MsgPlaceOrder} {r : Response} (hMsg : Regular k msg)
    (hFresh : msg.orderId ctx.height ∉ s.order)
    (hOk : k.handle ctx s (.placeOrder msg) = .ok (s', r)) :
    ∃ new, s'.fills = s.fills ++ new ∧
      (∀ price, filledAt price new = (depth k s).taken (msg.quote k) price) ∧
      unfilled k s' (msg.orderId ctx.height) = (depth k s).left (msg.quote k) ∧
      depth k s' = (depth k s).place (msg.quote k) := by
  have hAgree : Agree k s := hReached ▸ (hRun.history hLaw).1
  obtain ⟨-, market, quantity, coins, bank, hPlaced⟩ := placeOrder_eq_ok hOk
  obtain ⟨f, left, new, hServed⟩ := hAgree.served hLaw hMsg hFresh hPlaced
  have hQuantity : k.value msg.quantity = quantity := Keeper.value_eq hPlaced.parsed
  exact ⟨new, hServed.fills, hServed.filledAt_eq hQuantity,
    hServed.unfilled.trans (hServed.left_quote hQuantity).symm, hServed.depth_eq hQuantity⟩

/-- **The engine refines the abstract book.** After a run of well-formed orders in fresh
slots, what rests at each price of each side of each market is what the abstract book makes
of the quotes that were accepted, and every accepted order of the run has filled at each
price, and was left with, what the abstract book said when it came. The ties of the sort,
ids, heights, accounts, purges and rejected messages do not show. -/
theorem depth_refines (hLaw : k.sdk.Lawful) {start : State} {ops : List Op}
    (h : OrderRun k start ops) :
    depth k (Run.exec k.step start ops) =
        ((k.quotes start ops).foldl Depth.place fun _ _ => 0) ∧
      ∀ before ctx msg after s' r, ops = before ++ .deliver ctx (.placeOrder msg) :: after →
        k.handle ctx (Run.exec k.step start before) (.placeOrder msg) = .ok (s', r) →
        ∃ new, s'.fills = (Run.exec k.step start before).fills ++ new ∧
          (∀ price, filledAt price new =
            ((k.quotes start before).foldl Depth.place fun _ _ => 0).taken (msg.quote k) price) ∧
          unfilled k s' (msg.orderId ctx.height) =
            ((k.quotes start before).foldl Depth.place fun _ _ => 0).left (msg.quote k) := by
  refine ⟨h.depth_eq hLaw, ?_⟩
  rintro before ctx msg after s' r rfl hOk
  obtain ⟨hRun, hMsg, hNodup⟩ := h.init
  have hFresh : msg.orderId ctx.height ∉ (Run.exec k.step start before).order := by
    intro hIn
    rw [accepted_of_ok hOk] at hNodup
    exact (List.nodup_append.mp hNodup).2.2 _ ((hRun.history hLaw).2 _ hIn) _
      (List.mem_singleton_self _) rfl
  obtain ⟨new, hFills, hAt, hLeft, -⟩ := hRun.served hLaw rfl hMsg hFresh hOk
  rw [hRun.depth_eq hLaw] at hAt hLeft
  exact ⟨new, hFills, hAt, hLeft⟩

-- ---------------------------------------------------------------------------
-- Orders compared
-- ---------------------------------------------------------------------------

section Compared

variable {ctx ctx₁ ctx₂ : Context} {s s' s₁ s₂ : State} {msg msg₁ msg₂ : MsgPlaceOrder}
variable {r r₁ r₂ : Response}

/-- **Runs that accepted the same quotes serve the next one alike**: it fills the same
quantity at every price, and so the same in total and for the same sum of the quote denom,
it has the same left, and it leaves the same depth. The runs may differ in everything else:
the ties of the sort, heights, ids, accounts, purges, rejected messages. -/
theorem served_alike (hLaw : k.sdk.Lawful) {start₁ start₂ : State} {ops₁ ops₂ : List Op}
    (hRun₁ : OrderRun k start₁ ops₁) (hRun₂ : OrderRun k start₂ ops₂)
    (hReached₁ : s₁ = Run.exec k.step start₁ ops₁) (hReached₂ : s₂ = Run.exec k.step start₂ ops₂)
    (hQuotes : k.quotes start₁ ops₁ = k.quotes start₂ ops₂) (hMsg₁ : Regular k msg₁)
    (hMsg₂ : Regular k msg₂) (hQuote : msg₁.quote k = msg₂.quote k)
    (hFresh₁ : msg₁.orderId ctx₁.height ∉ s₁.order)
    (hFresh₂ : msg₂.orderId ctx₂.height ∉ s₂.order) {s₁' s₂' : State}
    (hOk₁ : k.handle ctx₁ s₁ (.placeOrder msg₁) = .ok (s₁', r₁))
    (hOk₂ : k.handle ctx₂ s₂ (.placeOrder msg₂) = .ok (s₂', r₂)) :
    ∃ new₁ new₂, s₁'.fills = s₁.fills ++ new₁ ∧ s₂'.fills = s₂.fills ++ new₂ ∧
      (∀ price, filledAt price new₁ = filledAt price new₂) ∧
      (new₁.map Fill.qty).sum = (new₂.map Fill.qty).sum ∧
      (new₁.map fun g => g.qty * g.price).sum = (new₂.map fun g => g.qty * g.price).sum ∧
      unfilled k s₁' (msg₁.orderId ctx₁.height) = unfilled k s₂' (msg₂.orderId ctx₂.height) ∧
      depth k s₁' = depth k s₂' := by
  have hDepth : depth k s₁ = depth k s₂ := by
    rw [hReached₁, hReached₂, hRun₁.depth_eq hLaw, hRun₂.depth_eq hLaw, hQuotes]
  obtain ⟨new₁, hFills₁, hAt₁, hLeft₁, hAfter₁⟩ := hRun₁.served hLaw hReached₁ hMsg₁ hFresh₁ hOk₁
  obtain ⟨new₂, hFills₂, hAt₂, hLeft₂, hAfter₂⟩ := hRun₂.served hLaw hReached₂ hMsg₂ hFresh₂ hOk₂
  have hLevels : ∀ price, filledAt price new₁ = filledAt price new₂ := by
    intro price
    rw [hAt₁, hAt₂, hDepth, hQuote]
  obtain ⟨hQty, hSum⟩ := sums_of_levels hLevels
  refine ⟨new₁, new₂, hFills₁, hFills₂, hLevels, hQty, hSum, ?_, ?_⟩
  · rw [hLeft₁, hLeft₂, hDepth, hQuote]
  · rw [hAfter₁, hAfter₂, hDepth, hQuote]

/-- `o'` asks for as much as `o` or more, at the same prices or more. -/
structure Quote.LE (o o' : Quote) : Prop where
  marketId : o'.marketId = o.marketId
  side : o'.side = o.side
  accepts : ∀ price, o.Accepts price → o'.Accepts price
  quantity : o.quantity ≤ o'.quantity

/-- Of two prices the better one is within a limit if the other is. -/
theorem Quote.Accepts.better {o : Quote} {price price' : Int} (h : o.Accepts price)
    (hLess : level o.side price' ≤ level o.side price) : o.Accepts price' := by
  intro limit hLimit
  obtain ⟨hBuy, hSell⟩ := h limit hLimit
  refine ⟨?_, ?_⟩
  · intro hIsBuy
    have hPrice := hBuy hIsBuy
    simp only [level, hIsBuy, String.reduceEq, if_false] at hLess
    omega
  · intro hIsSell
    have hPrice := hSell hIsSell
    simp only [level, hIsSell, if_true] at hLess
    omega

section Generous

variable {d : Depth} {o o' : Quote}

/-- Up to a price that the smaller quote accepts, both are offered the same. -/
theorem Quote.LE.offer_eq (h : o.LE o') {price : Int} (hAccepts : o.Accepts price) (price' : Int)
    (hLess : level o.side price' ≤ level o.side price) :
    d.offer o' price' = d.offer o price' := by
  have hWithin := hAccepts.better hLess
  rw [Depth.offer, Depth.offer, Finsupp.filter_apply_pos _ _ hWithin,
    Finsupp.filter_apply_pos _ _ (h.accepts price' hWithin), h.marketId, h.side]

/-- The larger quote takes no less at any price. -/
theorem Quote.LE.taken_le (h : o.LE o')
    (hNonneg : ∀ marketId side price, 0 ≤ d marketId side price) (price : Int) :
    d.taken o price ≤ d.taken o' price := by
  rw [Depth.taken, Depth.taken, h.side]
  refine Greedy.sweep_mono (level_injective o.side) h.quantity ?_ ?_ price
  · intro price'
    rw [Depth.offer, Finsupp.filter_apply]
    split
    · exact hNonneg _ _ price'
    · exact le_refl 0
  · intro price' hOffered
    have hAccepts : o.Accepts price' := by
      by_contra hNot
      exact hOffered (Finsupp.filter_apply_neg _ _ hNot)
    exact h.offer_eq hAccepts

/-- A limit does not matter at the prices within it. -/
theorem Quote.LE.taken_eq (h : o.LE o') (hQuantity : o'.quantity = o.quantity) {price : Int}
    (hAccepts : o.Accepts price) :
    d.taken o' price = d.taken o price := by
  rw [Depth.taken, Depth.taken, h.side, hQuantity]
  exact Greedy.sweep_congr (level_injective o.side) o.quantity (h.offer_eq hAccepts)

end Generous

/-- **A more generous order takes no less at any price.** Of two orders that are accepted in
the same state of a run, in the same market and on the same side, the one with the larger
quantity and the wider limit takes at every price at least what the other one takes; and if
only the limit is wider, then exactly as much at every price within the other one's limit. -/
theorem generous_takes_more (hLaw : k.sdk.Lawful) {start : State} {ops : List Op}
    (hRun : OrderRun k start ops) (hReached : s = Run.exec k.step start ops)
    (hMsg₁ : Regular k msg₁) (hMsg₂ : Regular k msg₂)
    (hLE : (msg₁.quote k).LE (msg₂.quote k)) (hFresh₁ : msg₁.orderId ctx₁.height ∉ s.order)
    (hFresh₂ : msg₂.orderId ctx₂.height ∉ s.order)
    (hOk₁ : k.handle ctx₁ s (.placeOrder msg₁) = .ok (s₁, r₁))
    (hOk₂ : k.handle ctx₂ s (.placeOrder msg₂) = .ok (s₂, r₂)) :
    ∃ new₁ new₂, s₁.fills = s.fills ++ new₁ ∧ s₂.fills = s.fills ++ new₂ ∧
      (∀ price, filledAt price new₁ ≤ filledAt price new₂) ∧
      ((msg₂.quote k).quantity = (msg₁.quote k).quantity →
        ∀ price, (msg₁.quote k).Accepts price → filledAt price new₂ = filledAt price new₁) := by
  obtain ⟨new₁, hFills₁, hAt₁, -⟩ := hRun.served hLaw hReached hMsg₁ hFresh₁ hOk₁
  obtain ⟨new₂, hFills₂, hAt₂, -⟩ := hRun.served hLaw hReached hMsg₂ hFresh₂ hOk₂
  have hAgree : Agree k s := hReached ▸ (hRun.history hLaw).1
  refine ⟨new₁, new₂, hFills₁, hFills₂, ?_, ?_⟩
  · intro price
    rw [hAt₁, hAt₂]
    exact hLE.taken_le hAgree.depth_nonneg price
  · intro hQuantity price hAccepts
    rw [hAt₁, hAt₂]
    exact hLE.taken_eq hQuantity hAccepts

end Compared

section Sample

open Ganc.Dex.Sample Ganc.Sample

/-- Alice and Bob both ask 4, and Bob bids 6 for ten. -/
def askedAndBid : List Op :=
  aliceAsks ++ [place 3 bob "SELL" "4" "3", place 4 bob "BUY" "6" "10"]

theorem askedAndBid_run : OrderRun keeper (State.empty bank) askedAndBid :=
  ⟨opening_empty bank, by decide +kernel, by decide +kernel⟩

theorem depth_refines_sample :
    depth keeper (keeper.reach bank askedAndBid) =
        ([⟨"uatom-uusdt", "SELL", some 4, 9⟩, ⟨"uatom-uusdt", "SELL", some 4, 3⟩,
          ⟨"uatom-uusdt", "BUY", some 6, 10⟩] : List Quote).foldl Depth.place (fun _ _ => 0) ∧
      ∃ (s' : State) (new : List Fill), s'.fills =
        (keeper.reach bank (aliceAsks ++ [place 3 bob "SELL" "4" "3"])).fills ++ new ∧
        ∀ price, filledAt price new = Depth.taken
          (([⟨"uatom-uusdt", "SELL", some 4, 9⟩, ⟨"uatom-uusdt", "SELL", some 4, 3⟩] :
            List Quote).foldl Depth.place fun _ _ => 0)
          ⟨"uatom-uusdt", "BUY", some 6, 10⟩ price := by
  have hQuotes : keeper.quotes (State.empty bank) askedAndBid =
      [⟨"uatom-uusdt", "SELL", some 4, 9⟩, ⟨"uatom-uusdt", "SELL", some 4, 3⟩,
        ⟨"uatom-uusdt", "BUY", some 6, 10⟩] := by
    decide +kernel
  have hBefore : keeper.quotes (State.empty bank)
      (aliceAsks ++ [place 3 bob "SELL" "4" "3"]) =
      [⟨"uatom-uusdt", "SELL", some 4, 9⟩, ⟨"uatom-uusdt", "SELL", some 4, 3⟩] := by
    decide +kernel
  have hQuote : (order bob "BUY" "6" "10").quote keeper =
      ⟨"uatom-uusdt", "BUY", some 6, 10⟩ := by
    decide +kernel
  obtain ⟨⟨s', r⟩, hOk⟩ := Result.exists_of_isOk (x := keeper.handle (block 4)
    (keeper.reach bank (aliceAsks ++ [place 3 bob "SELL" "4" "3"]))
    (.placeOrder (order bob "BUY" "6" "10"))) (by decide +kernel)
  obtain ⟨hDepth, hServed⟩ := depth_refines Sdk.sample_lawful askedAndBid_run
  obtain ⟨new, hFills, hAt, -⟩ := hServed (aliceAsks ++ [place 3 bob "SELL" "4" "3"]) (block 4)
    (order bob "BUY" "6" "10") [] s' r rfl hOk
  rw [hQuotes] at hDepth
  rw [hBefore, hQuote] at hAt
  exact ⟨hDepth, s', new, hFills, hAt⟩

/-- A sort that turns equal prices around. -/
def blockReversed (height : Nat) : Context := ⟨height, List.reverse, fun l => l.reverse_perm⟩

/-- The same asks by other accounts, later, with blocks in between. -/
def askedLater : List Op :=
  [register alice "uatom" "uusdt", .endBlock, place 7 carol "SELL" "4" "9", .endBlock,
    place 8 alice "SELL" "4" "3"]

/-- Carol's bid takes the same, whoever asks and whatever the sort does. -/
theorem served_alike_sample : ∃ (s₁ s₂ : State) (new₁ new₂ : List Fill),
    s₁.fills = (keeper.reach bank (aliceAsks ++ [place 3 bob "SELL" "4" "3"])).fills ++ new₁ ∧
    s₂.fills = (keeper.reach bank askedLater).fills ++ new₂ ∧
    ∀ price, filledAt price new₁ = filledAt price new₂ := by
  have hRun₁ : OrderRun keeper (State.empty bank) (aliceAsks ++ [place 3 bob "SELL" "4" "3"]) :=
    ⟨opening_empty bank, by decide +kernel, by decide +kernel⟩
  have hRun₂ : OrderRun keeper (State.empty bank) askedLater :=
    ⟨opening_empty bank, by decide +kernel, by decide +kernel⟩
  obtain ⟨⟨s₁, r₁⟩, hOk₁⟩ := Result.exists_of_isOk (x := keeper.handle (block 4)
    (keeper.reach bank (aliceAsks ++ [place 3 bob "SELL" "4" "3"]))
    (.placeOrder (order carol "BUY" "6" "10"))) (by decide +kernel)
  obtain ⟨⟨s₂, r₂⟩, hOk₂⟩ := Result.exists_of_isOk (x := keeper.handle (blockReversed 9)
    (keeper.reach bank askedLater) (.placeOrder (order bob "BUY" "6" "10"))) (by decide +kernel)
  have hQuotes : keeper.quotes (State.empty bank) (aliceAsks ++ [place 3 bob "SELL" "4" "3"]) =
      keeper.quotes (State.empty bank) askedLater := by
    decide +kernel
  have hQuote : (order carol "BUY" "6" "10").quote keeper =
      (order bob "BUY" "6" "10").quote keeper := rfl
  obtain ⟨new₁, new₂, hFills₁, hFills₂, hLevels, -⟩ := served_alike Sdk.sample_lawful hRun₁ hRun₂
    rfl rfl hQuotes (by decide +kernel) (by decide +kernel) hQuote (by decide +kernel)
    (by decide +kernel) hOk₁ hOk₂
  exact ⟨s₁, s₂, new₁, new₂, hFills₁, hFills₂, hLevels⟩

/-- Carol bids 6 for ten, or 5 for seven. -/
theorem generous_takes_more_sample : ∃ (s₁ s₂ : State) (new₁ new₂ : List Fill),
    s₁.fills = (keeper.reach bank asksTwice).fills ++ new₁ ∧
    s₂.fills = (keeper.reach bank asksTwice).fills ++ new₂ ∧
    ∀ price, filledAt price new₁ ≤ filledAt price new₂ := by
  have hRun : OrderRun keeper (State.empty bank) asksTwice :=
    ⟨opening_empty bank, by decide +kernel, by decide +kernel⟩
  obtain ⟨⟨s₁, r₁⟩, hOk₁⟩ := Result.exists_of_isOk (x := keeper.handle (block 4)
    (keeper.reach bank asksTwice) (.placeOrder (order carol "BUY" "5" "7"))) (by decide +kernel)
  obtain ⟨⟨s₂, r₂⟩, hOk₂⟩ := Result.exists_of_isOk (x := keeper.handle (block 4)
    (keeper.reach bank asksTwice) (.placeOrder (order carol "BUY" "6" "10"))) (by decide +kernel)
  have hQuote₁ : (order carol "BUY" "5" "7").quote keeper = ⟨"uatom-uusdt", "BUY", some 5, 7⟩ := by
    decide +kernel
  have hQuote₂ : (order carol "BUY" "6" "10").quote keeper =
      ⟨"uatom-uusdt", "BUY", some 6, 10⟩ := by
    decide +kernel
  have hLE : ((order carol "BUY" "5" "7").quote keeper).LE
      ((order carol "BUY" "6" "10").quote keeper) := by
    rw [hQuote₁, hQuote₂]
    refine ⟨rfl, rfl, ?_, by decide⟩
    intro price hAccepts limit hLimit
    obtain rfl : 6 = limit := Option.some.inj hLimit
    have hWithin := (hAccepts 5 rfl).1 rfl
    exact ⟨fun _ => by omega, fun hSell => absurd hSell (by decide)⟩
  obtain ⟨new₁, new₂, hFills₁, hFills₂, hMore, -⟩ := generous_takes_more Sdk.sample_lawful hRun rfl
    (by decide +kernel) (by decide +kernel) hLE (by decide +kernel) (by decide +kernel) hOk₁ hOk₂
  exact ⟨s₁, s₂, new₁, new₂, hFills₁, hFills₂, hMore⟩

end Sample

end Ganc.Dex
