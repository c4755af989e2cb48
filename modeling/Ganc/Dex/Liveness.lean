import Ganc.Dex.MatchingSuccess
import Ganc.Dex.Solvency

/-!
# x/dex — orders that are always accepted

`PlaceOrder` parses eight strings and drops whether they parsed; most of them
come from records that other accounts left behind. An order that is well
formed and paid for is accepted all the same, in every state of a run whose
steps are `Harmless`: they are covered in the sense of `Solvent`, and an ask
for a positive quantity has a price that is not negative. The invariant is
`Ready`: each entry an order could meet has a record to trade with, at the
price the book shows.
-/

namespace Ganc.Dex

variable {k : Keeper}

-- ---------------------------------------------------------------------------
-- Entries that can be traded with
-- ---------------------------------------------------------------------------

/-- The record behind an entry of price `p`, with `r` remaining. -/
structure Backed (k : Keeper) (s : State) (e : Orderbook) (p r : Int) (o : Order) : Prop where
  stored : s.order[e.orderId]? = some o
  remaining : k.sdk.newIntFromString o.remaining = some r
  nonneg : 0 ≤ r
  price : o.price = e.price
  fits : e.side = "BUY" → MathInt.Fits (p * r)
  status : o.status ≠ "FILLED"

/-- The price of the entry parses, that of an ask is not negative, and an entry that a
positive limit price can meet is backed. -/
def Tradable (k : Keeper) (s : State) (e : Orderbook) : Prop :=
  ∃ p, k.sdk.newIntFromString e.price = some p ∧ (e.side = "SELL" → 0 ≤ p) ∧
    (e.side = "SELL" ∨ 0 < p → ∃ r o, Backed k s e p r o)

/-- Every bid and every ask of the book can be traded with. -/
def Ready (k : Keeper) (s : State) : Prop :=
  ∀ (kk : String) (e : Orderbook), s.orderbook[kk]? = some e →
    e.side = "SELL" ∨ e.side = "BUY" → Tradable k s e

section Step

variable {s s' : State}

theorem Backed.congr {e : Orderbook} {p r : Int} {o : Order} (h : Backed k s e p r o)
    (hOrder : s'.order[e.orderId]? = s.order[e.orderId]?) : Backed k s' e p r o :=
  ⟨hOrder.trans h.stored, h.remaining, h.nonneg, h.price, h.fits, h.status⟩

theorem Tradable.congr {e : Orderbook} (h : Tradable k s e)
    (hOrder : s'.order[e.orderId]? = s.order[e.orderId]?) : Tradable k s' e := by
  obtain ⟨p, hp, hAsk, hBacked⟩ := h
  refine ⟨p, hp, hAsk, ?_⟩
  intro hMeets
  obtain ⟨r, o, hBacked⟩ := hBacked hMeets
  exact ⟨r, o, hBacked.congr hOrder⟩

theorem Ready.congr (h : Ready k s) (hBook : s'.orderbook = s.orderbook)
    (hOrder : s'.order = s.order) : Ready k s' := by
  intro kk e he hSide
  rw [hBook] at he
  exact (h kk e he hSide).congr (by rw [hOrder])

/-- A purged order is filled, so no entry relies on it. -/
theorem Ready.purge (h : Ready k s) {id : String} {order : Order}
    (hStored : s.order[id]? = some order) (hFilled : order.status = "FILLED") :
    Ready k (purgeOrder s id order) := by
  intro kk e he hSide
  obtain ⟨p, hp, hAsk, hBacked⟩ := h kk e (Store.get?_of_erase he).2 hSide
  refine ⟨p, hp, hAsk, ?_⟩
  intro hMeets
  obtain ⟨r, o, hBacked⟩ := hBacked hMeets
  have hne : e.orderId ≠ id := by
    rintro rfl
    obtain rfl := Option.some.inj (hBacked.stored.symm.trans hStored)
    exact hBacked.status hFilled
  exact ⟨r, o, hBacked.congr (Store.get?_erase_ne hne)⟩

/-- A purge leaves the book ready to trade. -/
theorem Ready.purges (h : Ready k s) (limit : Nat) :
    Ready k (Keeper.batchCleanFilledOrders s limit).1 :=
  purge_induction (P := Ready k) (fun _ _ _ hStored hFilled h => h.purge hStored hFilled) limit h

/-- A fill leaves the record of its entry good for the rest of it. -/
theorem Backed.filled (hLaw : k.sdk.Lawful) {taker : Order} {takerId : String} {market : Market}
    {entry : Orderbook} {rem left r p q : Int} {maker : Order}
    (hFilled : Filled k taker takerId market entry rem s maker r p q left s')
    (hLeft : r - q ≠ 0) {price r₀ : Int} {o : Order} (hPrice : entry.side = "BUY" → 0 ≤ price)
    (h : Backed k s entry price r₀ o) :
    Backed k s' entry price (r - q) (makerAfter maker r q) := by
  obtain rfl := Option.some.inj (h.stored.symm.trans (hFilled.maker_stored hLaw))
  obtain rfl := Option.some.inj (h.remaining.symm.trans hFilled.remaining)
  have hq := hFilled.qty
  have hq0 := hFilled.qty_nonneg
  have hFits : MathInt.Fits (r₀ - q) :=
    (hLaw.newInt_fits hFilled.remaining).of_le (by omega) (by omega)
  refine ⟨?_, hLaw.newInt_toString hFits, by omega, h.price, ?_, ?_⟩
  · exact hFilled.stored_after
  · intro hBuy
    have hp0 := hPrice hBuy
    exact (h.fits hBuy).of_le (Int.mul_nonneg hp0 (by omega))
      (Int.mul_le_mul_of_nonneg_left (by omega) hp0)
  · show (if r₀ - q = 0 then "FILLED" else o.status) ≠ "FILLED"
    rw [if_neg hLeft]
    exact h.status

/-- A fill leaves the book ready to trade. -/
theorem Ready.filled (hLaw : k.sdk.Lawful) {taker : Order} {takerId : String} {market : Market}
    {entry : Orderbook} {rem left r p q : Int} {maker : Order}
    (hFilled : Filled k taker takerId market entry rem s maker r p q left s')
    (hDistinct : Distinct s) (hEntry : s.orderbook[entry.key]? = some entry) (h : Ready k s) :
    Ready k s' := by
  intro kk e he hSide
  have hOld := hFilled.book_subset he
  by_cases hId : e.orderId = entry.orderId
  · -- the entry that was filled, and is still there
    obtain rfl := hDistinct kk entry.key e entry hOld hEntry hId
    obtain rfl := Option.some.inj (hOld.symm.trans hEntry)
    have hLeft : r - q ≠ 0 := by
      intro hZero
      rw [hFilled.orderbook, if_pos hZero, Std.ExtTreeMap.getElem?_erase_self] at he
      cases he
    obtain ⟨price, hPrice, hAsk, hBacked⟩ := h _ e hEntry hSide
    refine ⟨price, hPrice, hAsk, ?_⟩
    intro hMeets
    obtain ⟨r₀, o, hBacked⟩ := hBacked hMeets
    refine ⟨_, _, hBacked.filled hLaw hFilled hLeft ?_⟩
    intro hBuy
    rcases hMeets with hSell | hPos
    · rw [hSell] at hBuy
      exact absurd hBuy (by decide)
    · omega
  · exact (h kk e hOld hSide).congr (hFilled.stored_other hId)

/-- A fill keeps both invariants of the match. -/
theorem Covering.next_ready (hLaw : k.sdk.Lawful) {msg : MsgPlaceOrder} {takerId : String}
    {market : Market} {quantity : Int} {s₀ : State} {entry : Orderbook} {rest : List Orderbook}
    {rem left r p q : Int} {maker : Order} (hRem : rem ≠ 0)
    (hFilled : Filled k msg.toOrder takerId market entry rem s maker r p q left s')
    (h : Covering k msg market quantity s₀ (entry :: rest) rem s ∧ Ready k s) :
    Covering k msg market quantity s₀ rest left s' ∧ Ready k s' :=
  ⟨h.1.next hLaw hRem hFilled, h.2.filled hLaw hFilled h.1.distinct h.1.pending.head⟩

/-- An order that comes to rest can be traded with. -/
theorem Ready.finalized {msg : MsgPlaceOrder} {takerId : String} {market : Market} {left : Int}
    (h : Ready k s) (hUnnamed : Unnamed s takerId)
    (hRest : left ≠ 0 → msg.toOrder.orderType ≠ "MARKET" →
      msg.side = "SELL" ∨ msg.side = "BUY" →
      ∃ p, k.sdk.newIntFromString msg.price = some p ∧ (msg.side = "SELL" → 0 ≤ p) ∧
        (msg.side = "SELL" ∨ 0 < p → 0 ≤ left ∧
          k.sdk.newIntFromString (toString left) = some left ∧
          (msg.side = "BUY" → MathInt.Fits (p * left))))
    (hEnd : Finalized k msg.toOrder takerId market left s s') : Ready k s' := by
  have hOther : ∀ (kk : String) (e : Orderbook) (o : Order), s.orderbook[kk]? = some e →
      (s.order.insert takerId o)[e.orderId]? = s.order[e.orderId]? :=
    fun kk e o he => Store.get?_insert_ne (hUnnamed kk e he)
  cases hEnd with
  | filled => exact fun kk e he hSide => (h kk e he hSide).congr (hOther kk e _ he)
  | cancelled => exact fun kk e he hSide => (h kk e he hSide).congr (hOther kk e _ he)
  | resting hLeft hLimit =>
    intro kk e he hSide
    rw [Store.get?_insert] at he
    split at he
    next =>
      obtain rfl := Option.some.inj he
      obtain ⟨p, hp, hAsk, hOwn⟩ := hRest hLeft hLimit hSide
      refine ⟨p, hp, hAsk, ?_⟩
      intro hMeets
      obtain ⟨h0, hParsed, hFits⟩ := hOwn hMeets
      exact ⟨left, takerAfter msg.toOrder left "PARTIAL",
        Std.ExtTreeMap.getElem?_insert_self, hParsed, h0, rfl, hFits,
        show "PARTIAL" ≠ "FILLED" by decide⟩
    next => exact (h kk e he hSide).congr (hOther kk e _ he)

end Step

-- ---------------------------------------------------------------------------
-- Harmless steps
-- ---------------------------------------------------------------------------

/-- An ask for a positive quantity names a price, and none below zero. -/
def FairAsk (k : Keeper) (msg : MsgPlaceOrder) : Prop :=
  msg.side = "SELL" → k.value msg.quantity ≠ 0 → ∃ p ∈ k.sdk.newIntFromString msg.price, 0 ≤ p

/-- The four operations of a market, each of them covered, with fair asks. -/
def Harmless (k : Keeper) (s : State) : Op → Prop
  | .deliver ctx (.placeOrder msg) =>
    FairAsk k msg ∧ Covered k s (.deliver ctx (.placeOrder msg))
  | .deliver ctx (.registerPairs msg) => Covered k s (.deliver ctx (.registerPairs msg))
  | .deliver _ (.cleanOrders _) => True
  | .endBlock => True
  | _ => False

instance (msg : MsgPlaceOrder) : Decidable (FairAsk k msg) := by
  unfold FairAsk
  infer_instance

instance (s : State) : DecidablePred (Harmless k s)
  | .deliver ctx (.placeOrder msg) => inferInstanceAs (Decidable
      (FairAsk k msg ∧ Covered k s (.deliver ctx (.placeOrder msg))))
  | .deliver ctx (.registerPairs msg) => inferInstanceAs (Decidable
      (Covered k s (.deliver ctx (.registerPairs msg))))
  | .deliver _ (.cleanOrders _) | .endBlock => isTrue trivial
  | .deliver _ (.updateParams _) | .deliver _ (.createMarket _) | .deliver _ (.updateMarket _)
  | .deliver _ (.deleteMarket _) | .deliver _ (.createOrder _) | .deliver _ (.updateOrder _)
  | .deliver _ (.deleteOrder _) => isFalse id

/-- A harmless step is covered. -/
theorem Harmless.covered {s : State} {op : Op} (h : Harmless k s op) : Covered k s op := by
  cases op with
  | endBlock => trivial
  | deliver ctx msg =>
    cases msg with
    | placeOrder msg => exact h.2
    | registerPairs msg => exact h
    | cleanOrders msg => trivial
    | _ => exact h.elim

/-- The cost of a bid has passed the overflow check of `Mul`. -/
theorem escrowCoins_fits {market : Market} {price : String} {quantity p : Int} {coins : Coins}
    (h : k.escrowCoins market "BUY" price quantity = .ok coins)
    (hLimit : orderTypeOf price ≠ "MARKET") (hp : k.sdk.newIntFromString price = some p) :
    MathInt.Fits (p * quantity) := by
  simp only [Keeper.escrowCoins, if_neg hLimit, hp, MathInt.mul, if_true, Result.bind_eq_ok,
    Result.pure_eq_ok, MathInt.deref_eq_ok, MathInt.checked_eq_ok, Option.some.injEq,
    exists_eq_left'] at h
  obtain ⟨-, ⟨hFits, -⟩, -⟩ := h
  exact hFits

section Runs

variable {s s' : State}

/-- A harmless order that is placed leaves the book ready to trade. -/
theorem Ready.placed (hLaw : k.sdk.Lawful) {ctx : Context} {msg : MsgPlaceOrder} {market : Market}
    {quantity : Int} {coins : Coins} {bank : Bank} (h : Ready k s) (hSolvent : Solvent k s)
    (hHarmless : Harmless k s (.deliver ctx (.placeOrder msg)))
    (hPlaced : Placed k ctx s msg market quantity coins bank s') : Ready k s' := by
  obtain ⟨hFair, hId, hAfford⟩ := hHarmless
  obtain ⟨cs, rem, left, s₁, hMem, hSub, hRem, hLoop, hEnd⟩ := matchOrders_eq_ok hPlaced.matched
  obtain rfl : quantity = rem := Option.some.inj (hPlaced.parsed.symm.trans hRem)
  have hStart := Covering.start hLaw hSolvent hPlaced.toAdmitted hAfford hMem hSub
  obtain ⟨rest, ⟨hDone, hReady⟩, -⟩ := executeLoop_induction
    (I := fun rest rem s₁ => Covering k msg market quantity s rest rem s₁ ∧ Ready k s₁)
    (fun hRem hFilled hI => Covering.next_ready hLaw hRem hFilled hI)
    hLoop ⟨hStart, h.congr rfl rfl⟩
  have hUnnamed : Unnamed s (msg.orderId ctx.height) :=
    fun kk e he => hId e (mem_entries.mpr ⟨kk, he⟩)
  refine hReady.finalized (hUnnamed.mono hDone.book) ?_ hEnd
  -- what the checks of the escrow say of an order that comes to rest
  intro hLeft hLimit hSide
  obtain ⟨-, hBid, hAsk⟩ := escrowCoins_eq_ok hPlaced.escrow
  have hle := hDone.le
  have hParsed : 0 ≤ quantity → k.sdk.newIntFromString (toString left) = some left := by
    intro h0
    refine hLaw.newInt_toString ((hLaw.newInt_fits hPlaced.parsed).of_le ?_ hle)
    rcases hDone.nonneg with hSame | hNonneg <;> omega
  rcases hSide with hSell | hBuy
  · have hNotBuy : msg.side ≠ "BUY" := by
      rw [hSell]
      decide
    have h0 := hAsk hNotBuy
    have hNonneg : 0 ≤ left := by
      rcases hDone.nonneg with hSame | hNonneg <;> omega
    obtain ⟨p, hp, hp0⟩ := hFair hSell (by rw [Keeper.value_eq hPlaced.parsed]; omega)
    exact ⟨p, hp, fun _ => hp0, fun _ => ⟨hNonneg, hParsed h0, fun hBuy => absurd hBuy hNotBuy⟩⟩
  · obtain ⟨p, hp, hCost⟩ := hBid hBuy
    have hNotSell : msg.side ≠ "SELL" := by
      rw [hBuy]
      decide
    refine ⟨p, hp, fun hSell => absurd hSell hNotSell, ?_⟩
    intro hMeets
    have hPos : 0 < p := hMeets.resolve_left hNotSell
    have h0 : 0 ≤ quantity := Int.nonneg_of_mul_nonneg_right (hCost hLimit) hPos
    have hNonneg : 0 ≤ left := by
      rcases hDone.nonneg with hSame | hNonneg <;> omega
    refine ⟨hNonneg, hParsed h0, fun _ => ?_⟩
    exact (escrowCoins_fits (hBuy ▸ hPlaced.escrow) hLimit hp).of_le
      (Int.mul_nonneg (by omega) hNonneg) (Int.mul_le_mul_of_nonneg_left hle (by omega))

/-- Every harmless step keeps the escrow solvent and the book ready. -/
theorem ready_step (hLaw : k.sdk.Lawful) (s : State) (op : Op) (hHarmless : Harmless k s op)
    (h : Solvent k s ∧ Ready k s) : Solvent k (k.step s op) ∧ Ready k (k.step s op) := by
  refine ⟨solvent_step hLaw s op hHarmless.covered h.1, ?_⟩
  have hEffect := step_effect k s op
  generalize k.step s op = s' at hEffect ⊢
  cases hEffect with
  | rejected => exact h.2
  | placeOrder hPlaced => exact h.2.placed hLaw h.1 hHarmless hPlaced
  | registerPairs => exact h.2.congr rfl rfl
  | cleanOrders limit => exact h.2.purges limit
  | endBlock => exact h.2.purges 5
  | _ => exact hHarmless.elim

/-- In every harmless run the escrow is solvent and the book ready. -/
theorem ready_reach (hLaw : k.sdk.Lawful) {bank : Bank} {ops : List Op}
    (hRun : Run.Steps k.step (k.Accepting (Harmless k)) (State.empty bank) ops) :
    Solvent k (k.reach bank ops) ∧ Ready k (k.reach bank ops) := by
  have hStart : Solvent k (State.empty bank) ∧ Ready k (State.empty bank) := by
    refine ⟨solvent_empty bank, ?_⟩
    intro kk e he
    simp [State.empty] at he
  let I : State → Prop := fun s => Solvent k s ∧ Ready k s
  have hStep : ∀ s op, k.Accepting (Harmless k) s op → I s → I (k.step s op) :=
    fun s op hAccepting h => hAccepting.step (P := I) h fun hC => ready_step hLaw s op hC h
  exact Run.exec_invariant_of_steps hStep hRun hStart

end Runs

-- ---------------------------------------------------------------------------
-- A well-formed order
-- ---------------------------------------------------------------------------

/-- A well-formed order of an account that holds what it has to escrow. -/
structure Placeable (k : Keeper) (s : State) (msg : MsgPlaceOrder) (market : Market)
    (price quantity : Int) : Prop where
  side : msg.side = "BUY" ∨ msg.side = "SELL"
  sender : ∃ addr, k.sdk.accAddressFromBech32 msg.creator = some addr
  listed : s.market[msg.marketId]? = some market
  base : k.sdk.validateDenom market.baseDenom
  quote : k.sdk.validateDenom market.quoteDenom
  price_parses : k.sdk.newIntFromString msg.price = some price
  price_pos : 0 < price
  quantity_parses : k.sdk.newIntFromString msg.quantity = some quantity
  quantity_pos : 0 < quantity
  bid : msg.side = "BUY" → MathInt.Fits (price * quantity) ∧
    price * quantity ≤ s.bank.balance (.user (k.addressOf msg.creator)) market.quoteDenom
  ask : msg.side = "SELL" →
    quantity ≤ s.bank.balance (.user (k.addressOf msg.creator)) market.baseDenom

section Placeable

variable {s : State} {msg : MsgPlaceOrder} {market : Market} {price quantity : Int}

/-- What can be placed is a `LIMIT` order. -/
theorem Placeable.limit (hLaw : k.sdk.Lawful) (h : Placeable k s msg market price quantity) :
    orderTypeOf msg.price = "LIMIT" :=
  orderTypeOf_of_pos hLaw h.price_parses h.price_pos

/-- The creator is an address, so `msg.Creator[:6]` does not panic. -/
theorem Placeable.creator (hLaw : k.sdk.Lawful) (h : Placeable k s msg market price quantity) :
    6 ≤ msg.creator.toList.length := by
  obtain ⟨addr, hAddr⟩ := h.sender
  exact hLaw.bech32_length hAddr

/-- Its escrow is taken. -/
theorem Placeable.admitted (hLaw : k.sdk.Lawful) (h : Placeable k s msg market price quantity) :
    ∃ coins bank, Admitted k s msg market quantity coins bank := by
  have hPay : ∀ (denom : String) (amount : Int), 0 ≤ amount →
      amount ≤ s.bank.balance (.user (k.addressOf msg.creator)) denom →
      k.escrowCoins market msg.side msg.price quantity =
        .ok (newCoins ⟨denom, amount.toNat⟩) →
      ∃ coins bank, Admitted k s msg market quantity coins bank := by
    intro denom amount h0 hHolds hEscrow
    have hCoin : amount.toNat ≤ s.bank.balance (.user (k.addressOf msg.creator)) denom := by
      omega
    obtain ⟨bank, hSend⟩ : ∃ bank, s.bank.sendCoinsFromAccountToModule
        (k.addressOf msg.creator) (newCoins ⟨denom, amount.toNat⟩) = .ok bank :=
      Bank.sendCoins_isOk_iff.mpr hCoin
    exact ⟨_, bank, h.listed, h.quantity_parses, hEscrow, hSend, h.creator hLaw⟩
  have hPrice := h.price_pos
  have hQuantity := h.quantity_pos
  rcases h.side with hBuy | hSell
  · obtain ⟨hFits, hHolds⟩ := h.bid hBuy
    have hCost : 0 ≤ price * quantity := Int.mul_nonneg (by omega) (by omega)
    refine hPay _ _ hCost hHolds ?_
    have hNotMarket : orderTypeOf msg.price ≠ "MARKET" := by
      rw [h.limit hLaw]
      decide
    simp only [Keeper.escrowCoins, if_pos hBuy, if_neg hNotMarket, Result.bind_eq_ok,
      Result.pure_eq_ok]
    refine ⟨price * quantity, ?_, _, newCoin_isOk h.quote hCost, rfl⟩
    rw [h.price_parses]
    exact MathInt.checked_eq_ok.mpr ⟨hFits, rfl⟩
  · refine hPay _ _ (by omega) (h.ask hSell) ?_
    have hNotBuy : msg.side ≠ "BUY" := by
      rw [hSell]
      decide
    simp only [Keeper.escrowCoins, if_neg hNotBuy, Result.bind_eq_ok, Result.pure_eq_ok]
    exact ⟨_, newCoin_isOk h.base (by omega), rfl⟩

/-- What it meets has a price that parses, on the right side of its limit and not
negative, and is backed. -/
theorem Placeable.meets (hLaw : k.sdk.Lawful) (h : Placeable k s msg market price quantity)
    {s₁ : State} (hReady : Ready k s₁) {kk : String} {e : Orderbook}
    (he : s₁.orderbook[kk]? = some e) (hComp : Compatible k msg.toOrder e) :
    ∃ p r o, k.sdk.newIntFromString e.price = some p ∧ WithinLimit msg.side price p ∧ 0 ≤ p ∧
      Backed k s₁ e p r o := by
  have hSide : e.side = Keeper.targetSide msg.side := hComp.side
  have hPrice := h.price_pos
  rcases h.side with hBuy | hSell
  · have hAskSide : e.side = "SELL" := by
      rw [hSide, hBuy]
      rfl
    obtain ⟨p, hp, hAsk, hBacked⟩ := hReady kk e he (.inl hAskSide)
    obtain ⟨r, o, hBacked⟩ := hBacked (.inl hAskSide)
    exact ⟨p, r, o, hp, hComp.within (h.limit hLaw) h.price_parses hp, hAsk hAskSide, hBacked⟩
  · have hBidSide : e.side = "BUY" := by
      rw [hSide, hSell]
      rfl
    obtain ⟨p, hp, -, hBacked⟩ := hReady kk e he (.inr hBidSide)
    have hWithin := hComp.within (h.limit hLaw) h.price_parses hp
    have hle : price ≤ p := hWithin.2 hSell
    obtain ⟨r, o, hBacked⟩ := hBacked (.inr (by omega))
    exact ⟨p, r, o, hp, hWithin, by omega, hBacked⟩

end Placeable

-- ---------------------------------------------------------------------------
-- Its fills
-- ---------------------------------------------------------------------------

/-- What a fill pays is held: its maker owes its part, and the taker has escrowed the
other. -/
theorem Covering.funded {msg : MsgPlaceOrder} {market : Market} {quantity : Int} {s₀ s : State}
    {entry : Orderbook} {rest : List Orderbook} {rem r p : Int} {o : Order}
    (h : Covering k msg market quantity s₀ (entry :: rest) rem s) (hRem : 0 < rem)
    (ho : s.order[entry.orderId]? = some o) (hr : k.sdk.newIntFromString o.remaining = some r)
    (hp : k.sdk.newIntFromString o.price = some p) (hr0 : 0 ≤ r) (hp0 : 0 ≤ p) (d : String) :
    paid market.baseDenom (min rem r) d + paid market.quoteDenom (min rem r * p) d ≤
      s.bank.held d := by
  have hComp := h.compatible entry (List.mem_cons_self ..)
  have hMarket : s.market[entry.marketId]? = some market := hComp.market ▸ h.listed
  have hn0 : 0 ≤ min rem r := by omega
  have hPrice : msg.side ≠ "SELL" → p ≤ allowance k msg := by
    intro hSide
    have hle := h.le
    have hBound := h.affordable hSide (by omega) entry (List.mem_cons_self ..) o ho
    rwa [Keeper.value_eq hp] at hBound
  have hTrade := delivery_trade market hComp hn0 (Int.mul_nonneg hn0 hp0) hPrice d
  -- the maker's part is owed by its entry
  have hMaker : paid (deliveryDenom entry.side market) (delivery entry.side p (min rem r)) d ≤
      owes k d s := by
    have hOne := Store.le_total (f := fun _ e => weigh (owed k d) s e)
      (fun _ e _ => weigh_nonneg (owed_nonneg d) e) h.pending.head
    rw [weigh_eq ho hMarket, owed, Keeper.value_eq hp, Keeper.value_eq hr] at hOne
    exact le_trans (paid_mono d (delivery_le_due (by omega) fun _ => hp0)) hOne
  have hTaker : paid (deliveryDenom msg.side market)
      (delivery msg.side (k.value msg.price) (min rem r)) d ≤
      paid (deliveryDenom msg.side market) (due msg.side (k.value msg.price) rem) d := by
    refine paid_mono d (delivery_le_due (by omega) ?_)
    intro hBuy
    have hLimit := hPrice (by rw [hBuy]; decide)
    rw [allowance, if_pos hBuy] at hLimit
    omega
  have hFunds := h.funds d
  omega

/-- Each fill of a well-formed order goes through. -/
theorem Placeable.fillable (hLaw : k.sdk.Lawful) {s₀ s : State} {msg : MsgPlaceOrder}
    {market : Market} {price quantity : Int} (h : Placeable k s₀ msg market price quantity)
    {entry : Orderbook} {rest : List Orderbook} {rem : Int} (hRem : rem ≠ 0)
    (hCovering : Covering k msg market quantity s₀ (entry :: rest) rem s) (hReady : Ready k s) :
    ∃ r p, Fillable k market entry rem r p s := by
  have hComp := hCovering.compatible entry (List.mem_cons_self ..)
  obtain ⟨p, r, o, hp, hWithin, hp0, hBacked⟩ :=
    h.meets hLaw hReady hCovering.pending.head hComp
  have hPrice : k.sdk.newIntFromString o.price = some p := hBacked.price ▸ hp
  have hr0 := hBacked.nonneg
  have hle := hCovering.le
  have hQuantity := h.quantity_pos
  have hPos : 0 < rem := by
    rcases hCovering.nonneg with hSame | hNonneg <;> omega
  have hn0 : 0 ≤ min rem r := by omega
  have hQuote0 : 0 ≤ min rem r * p := Int.mul_nonneg hn0 hp0
  have hFits : MathInt.Fits (min rem r * p) := by
    rcases h.side with hBuy | hSell
    · -- a bid trades at most at its own price
      have hLimit : p ≤ price := hWithin.1 hBuy
      refine (h.bid hBuy).1.of_le hQuote0 ?_
      rw [Int.mul_comm price]
      exact Int.mul_le_mul (by omega) hLimit hp0 (by omega)
    · -- an ask trades at most for what a bid has escrowed
      have hBidSide : entry.side = "BUY" := by
        rw [hComp.side, show msg.toOrder.side = msg.side from rfl, hSell]
        rfl
      refine (hBacked.fits hBidSide).of_le hQuote0 ?_
      rw [Int.mul_comm p]
      exact Int.mul_le_mul_of_nonneg_right (by omega) hp0
  exact ⟨r, p, ⟨o, hBacked.stored, hBacked.remaining, hPrice⟩, h.base, h.quote, hn0, hQuote0,
    hFits, (hLaw.newInt_fits hBacked.remaining).of_le (by omega) (by omega),
    (hLaw.newInt_fits h.quantity_parses).of_le (by omega) (by omega),
    hCovering.funded hPos hBacked.stored hBacked.remaining hPrice hr0 hp0⟩

/-- A well-formed order is accepted in a solvent state with a book to trade with. -/
theorem Placeable.isOk (hLaw : k.sdk.Lawful) {s : State} {ctx : Context} {msg : MsgPlaceOrder}
    {market : Market} {price quantity : Int} (h : Placeable k s msg market price quantity)
    (hSolvent : Solvent k s) (hReady : Ready k s) :
    ∃ s' r, k.placeOrder ctx s msg = .ok (s', r) := by
  obtain ⟨coins, bank, hAdmitted⟩ := h.admitted hLaw
  have hAfford : msg.side ≠ "SELL" → 0 < k.value msg.quantity → Affordable k s msg := by
    intro hSide _ e he hComp o ho
    obtain ⟨kk, he⟩ := mem_entries.mp he
    obtain ⟨p, r, o', hp, hWithin, -, hBacked⟩ := h.meets hLaw hReady he hComp
    have hBuy : msg.side = "BUY" := h.side.resolve_right hSide
    obtain rfl := Option.some.inj (hBacked.stored.symm.trans ho)
    rw [allowance, if_pos hBuy, Keeper.value_eq h.price_parses, hBacked.price, Keeper.value_eq hp]
    exact hWithin.1 hBuy
  have hNotMarket : msg.toOrder.orderType ≠ "MARKET" := by
    show orderTypeOf msg.price ≠ "MARKET"
    rw [h.limit hLaw]
    decide
  have hParsed : ∀ e ∈ s.entries, e.marketId = msg.marketId →
      e.side = Keeper.targetSide msg.side → ∃ p, k.sdk.newIntFromString e.price = some p := by
    intro e he _ hTarget
    obtain ⟨kk, he⟩ := mem_entries.mp he
    have hSide : e.side = "SELL" ∨ e.side = "BUY" := by
      rw [hTarget]
      rcases h.side with hBuy | hSell
      · exact .inl (by rw [hBuy]; rfl)
      · exact .inr (by rw [hSell]; rfl)
    obtain ⟨p, hp, -⟩ := hReady kk e he hSide
    exact ⟨p, hp⟩
  have hLoop : ∀ cs,
      (∀ e, e ∈ cs ↔ e ∈ s.orderbook.toList.map Prod.snd ∧ Compatible k msg.toOrder e) →
      (∃ fetched, cs.Perm fetched ∧ fetched.Sublist (s.orderbook.toList.map Prod.snd)) →
      ∃ res, k.executeLoop msg.toOrder (msg.orderId ctx.height) market cs quantity
        { s with bank := bank } = .ok res := by
    intro cs hMem hSub
    have hStart := Covering.start hLaw hSolvent hAdmitted hAfford hMem hSub
    refine executeLoop_isOk
      (I := fun rest rem s₁ => Covering k msg market quantity s rest rem s₁ ∧ Ready k s₁)
      (fun hRem hFilled hI => Covering.next_ready hLaw hRem hFilled hI) ?_
      ⟨hStart, hReady.congr rfl rfl⟩
    intro entry rest rem s₁ hRem hI
    obtain ⟨r, p, hFillable⟩ := h.fillable hLaw hRem hI.1 hI.2
    exact fillEntry_isOk hFillable
  obtain ⟨s', hMatch⟩ := matchOrders_isOk ctx (s := { s with bank := bank })
    (msg.orderId ctx.height) market hNotMarket h.price_parses h.quantity_parses hParsed hLoop
  exact ⟨s', _, Placed.accepted ⟨hAdmitted, hMatch⟩⟩

/-- **No order poisons a market.** In every state of a run whose accepted steps are
harmless, a well-formed order is accepted. -/
theorem market_not_poisoned (hLaw : k.sdk.Lawful) {bank : Bank} {ops : List Op}
    (hRun : Run.Steps k.step (k.Accepting (Harmless k)) (State.empty bank) ops) {ctx : Context}
    {msg : MsgPlaceOrder} {market : Market} {price quantity : Int}
    (h : Placeable k (k.reach bank ops) msg market price quantity) :
    ∃ s' r, k.handle ctx (k.reach bank ops) (.placeOrder msg) = .ok (s', r) := by
  obtain ⟨hSolvent, hReady⟩ := ready_reach hLaw hRun
  exact h.isOk hLaw hSolvent hReady

namespace Sample

open Ganc.Sample

/-- Alice asks for a price that is no number. -/
def poison : List Op :=
  [register carol "uatom" "uusdt", place 2 alice "SELL" "abc" "5"]

/-- Bob's bid of fifty can be placed wherever he holds them. -/
theorem placeable_bob {s : State} (hListed : s.market["uatom-uusdt"]? = some listed)
    (hHolds : 50 ≤ s.bank.balance (.user (keeper.addressOf bob)) "uusdt") :
    Placeable keeper s (order bob "BUY" "10" "5") listed 10 5 where
  side := .inl rfl
  sender := ⟨List.replicate 20 2, by decide +kernel⟩
  listed := hListed
  base := by decide +kernel
  quote := by decide +kernel
  price_parses := by decide +kernel
  price_pos := by decide
  quantity_parses := by decide +kernel
  quantity_pos := by decide
  bid _ := ⟨by decide, Int.ofNat_le.mpr hHolds⟩
  ask hSell := absurd hSell (by decide)

end Sample

section Sample

open Ganc.Dex.Sample Ganc.Sample

theorem market_not_poisoned_sample : ∃ s' r,
    keeper.handle (block 4) (keeper.reach bank trade) (.placeOrder (order bob "BUY" "10" "5")) =
      .ok (s', r) :=
  market_not_poisoned Sdk.sample_lawful (by decide +kernel)
    (placeable_bob (by decide +kernel) (by decide +kernel))

/-- **The market is poisoned.** Alice's order is accepted and comes to rest, and Bob's
well-formed bid panics on its price. -/
theorem market_poisoned :
    Placeable keeper (keeper.reach bank poison) (order bob "BUY" "10" "5") listed 10 5 ∧
    response (keeper.handle (block 3) (keeper.reach bank poison)
      (.placeOrder (order bob "BUY" "10" "5"))) = .error (.panic .nilPointer) :=
  ⟨placeable_bob (by decide +kernel) (by decide +kernel), by decide +kernel⟩

end Sample

end Ganc.Dex
