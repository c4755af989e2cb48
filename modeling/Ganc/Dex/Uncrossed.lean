import Ganc.Dex.Book

/-!
# x/dex — the book is never crossed

A bid and an ask of one market whose prices meet never rest in the book
together, whatever messages any accounts send. The argument is about the
taker that comes to rest:

* a fill either takes its entry off the book or uses the taker up
  (`Filled.maker_or_taker`), so a taker that comes to rest has taken every
  candidate off the book;
* entries are stored under the key of their own fields (`Keyed`), so the
  removal by key hits the entry that was filled;
* the entries the filter passed over are the ones the new order does not
  reach.

Order records play no part: an edited, missing or shared record can make a
fill panic, which discards the whole message, but cannot leave a candidate on
the book next to a resting taker.
-/

namespace Ganc.Dex

variable {k : Keeper}

-- ---------------------------------------------------------------------------
-- The invariant
-- ---------------------------------------------------------------------------

/-- Every bid of a market is below every ask of it, as far as prices parse. -/
def Uncrossed (k : Keeper) (s : State) : Prop :=
  ∀ (kb ka : String) (b a : Orderbook) (pb pa : Int),
    s.orderbook[kb]? = some b → s.orderbook[ka]? = some a →
    b.side = "BUY" → a.side = "SELL" → a.marketId = b.marketId →
    k.sdk.newIntFromString b.price = some pb → k.sdk.newIntFromString a.price = some pa →
    pb < pa

theorem Uncrossed.mono {s s' : State} (h : Uncrossed k s) (hle : BookLE s' s) :
    Uncrossed k s' :=
  fun kb ka b a pb pa hb ha => h kb ka b a pb pa (hle kb b hb) (hle ka a ha)

-- ---------------------------------------------------------------------------
-- What a match leaves on the book
-- ---------------------------------------------------------------------------

/-- The book after a match: part of the old book, and possibly the taker, in
which case no old entry that the taker can trade with is left. -/
theorem matchOrders_book {ctx : Context} {s s' : State} {taker : Order} {takerId : String}
    {market : Market} (hKeyed : Keyed s)
    (h : k.matchOrders ctx s taker takerId market = .ok s') :
    BookLE s' s ∨ ∃ s₁, BookLE s₁ s ∧ taker.orderType ≠ "MARKET" ∧
      s'.orderbook = s₁.orderbook.insert (restingEntry taker takerId).key
        (restingEntry taker takerId) ∧
      ∀ (kk : String) (e : Orderbook), s₁.orderbook[kk]? = some e → ¬ Compatible k taker e := by
  obtain ⟨cs, rem, left, s₁, hMem, -, -, hLoop, hEnd⟩ := matchOrders_eq_ok h
  -- until the taker is used up, the compatible entries left are candidates to come
  let I : List Orderbook → Int → State → Prop := fun rest rem s₁ => BookLE s₁ s ∧
    (rem = 0 ∨ ∀ (kk : String) (e : Orderbook),
      s₁.orderbook[kk]? = some e → Compatible k taker e → e ∈ rest)
  have hInit : I cs rem s := by
    refine ⟨.refl s, .inr fun kk e he hComp => (hMem e).mpr ⟨?_, hComp⟩⟩
    exact List.mem_map.mpr ⟨(kk, e), Store.mem_toList.mpr he, rfl⟩
  have hFill : ∀ {entry rest rem s₁ maker r p q left s₂}, rem ≠ 0 →
      Filled k taker takerId market entry rem s₁ maker r p q left s₂ →
      I (entry :: rest) rem s₁ → I rest left s₂ := by
    intro entry rest rem s₁ maker r p q left s₂ hRem hFilled ⟨hLE, hCand⟩
    refine ⟨hFilled.bookLE.trans hLE, ?_⟩
    by_cases hLeft : left = 0
    · exact .inl hLeft
    · refine .inr ?_
      intro kk e he hComp
      have he₁ := hFilled.book_subset he
      rcases List.mem_cons.mp (hCand.resolve_left hRem kk e he₁ hComp) with rfl | hRest
      · have hGone := hFilled.entry_removed hLeft
        rw [← hKeyed kk e (hLE kk e he₁), he] at hGone
        cases hGone
      · exact hRest
  obtain ⟨rest, ⟨hLE, hCand⟩, hDone⟩ := executeLoop_induction hFill hLoop hInit
  cases hEnd with
  | filled => exact .inl hLE
  | cancelled => exact .inl hLE
  | resting hLeft hLimit =>
    refine .inr ⟨s₁, hLE, hLimit, rfl, ?_⟩
    intro kk e he hComp
    have hIn := hCand.resolve_left hLeft kk e he hComp
    rw [hDone.resolve_left hLeft] at hIn
    cases hIn

/-- An ask that a limit bid passed over is above it. -/
theorem lt_of_not_compatible_buy {taker : Order} {e : Orderbook} {tp mp : Int}
    (hType : taker.orderType = "LIMIT") (hSide : taker.side = "BUY")
    (hMarket : e.marketId = taker.marketId) (hAsk : e.side = "SELL")
    (hTaker : k.sdk.newIntFromString taker.price = some tp)
    (hMaker : k.sdk.newIntFromString e.price = some mp)
    (h : ¬ Compatible k taker e) : tp < mp := by
  by_contra hle
  refine h ⟨hMarket, ?_, ?_⟩
  · rw [hAsk, hSide]; rfl
  · simp [Keeper.priceCompatible, hType, hSide, hTaker, hMaker, MathInt.gt, hle]

/-- A bid that a limit ask passed over is below it. -/
theorem lt_of_not_compatible_sell {taker : Order} {e : Orderbook} {tp mp : Int}
    (hType : taker.orderType = "LIMIT") (hSide : taker.side = "SELL")
    (hMarket : e.marketId = taker.marketId) (hBid : e.side = "BUY")
    (hTaker : k.sdk.newIntFromString taker.price = some tp)
    (hMaker : k.sdk.newIntFromString e.price = some mp)
    (h : ¬ Compatible k taker e) : mp < tp := by
  by_contra hle
  refine h ⟨hMarket, ?_, ?_⟩
  · rw [hBid, hSide]; rfl
  · simp [Keeper.priceCompatible, hType, hSide, hTaker, hMaker, MathInt.lt, MathInt.gt, hle]

/-- A matching leaves the book uncrossed. -/
theorem matchOrders_uncrossed {ctx : Context} {s s' : State} {msg : MsgPlaceOrder}
    {takerId : String} {market : Market} (hKeyed : Keyed s) (hUncrossed : Uncrossed k s)
    (h : k.matchOrders ctx s msg.toOrder takerId market = .ok s') :
    Keyed s' ∧ Uncrossed k s' := by
  rcases matchOrders_book hKeyed h with hLE | ⟨s₁, hLE, hLimit, hBook, hNone⟩
  · exact ⟨hKeyed.mono hLE, hUncrossed.mono hLE⟩
  have hType : msg.toOrder.orderType = "LIMIT" := orderTypeOf_eq_limit.mpr hLimit
  have hOld := hUncrossed.mono hLE
  -- an entry of the new book is the taker or an entry that was left
  have hCases : ∀ (kk : String) (e : Orderbook), s'.orderbook[kk]? = some e →
      (e = restingEntry msg.toOrder takerId ∧ kk = e.key) ∨ s₁.orderbook[kk]? = some e := by
    intro kk e he
    rw [hBook, Store.get?_insert] at he
    split at he
    next hkk => exact .inl ⟨(Option.some.inj he).symm, by rw [hkk, Option.some.inj he]⟩
    next => exact .inr he
  constructor
  · intro kk e he
    rcases hCases kk e he with ⟨-, hkk⟩ | hIn
    · exact hkk
    · exact hKeyed.mono hLE kk e hIn
  · intro kb ka b a pb pa hb ha hBuy hSell hMarket hpb hpa
    rcases hCases kb b hb with ⟨rfl, -⟩ | hInB <;> rcases hCases ka a ha with ⟨rfl, -⟩ | hInA
    · -- one order is not on both sides
      rw [hBuy] at hSell
      exact absurd hSell (by decide)
    · exact lt_of_not_compatible_buy hType hBuy hMarket hSell hpb hpa (hNone ka a hInA)
    · exact lt_of_not_compatible_sell hType hSell hMarket.symm hBuy hpa hpb (hNone kb b hInB)
    · exact hOld kb ka b a pb pa hInB hInA hBuy hSell hMarket hpb hpa

-- ---------------------------------------------------------------------------
-- Every step and every run
-- ---------------------------------------------------------------------------

/-- Every step leaves the book uncrossed. -/
theorem step_uncrossed (s : State) (op : Op) (h : Keyed s ∧ Uncrossed k s) :
    Keyed (k.step s op) ∧ Uncrossed k (k.step s op) := by
  have hEffect := step_effect k s op
  generalize k.step s op = s' at hEffect ⊢
  cases hEffect with
  | @placeOrder _ _ _ _ _ bank _ hPlaced =>
    -- the escrow moves coins only
    exact matchOrders_uncrossed (s := { s with bank := bank }) h.1 h.2 hPlaced.matched
  | cleanOrders limit => exact ⟨h.1.mono (purge_bookLE s limit), h.2.mono (purge_bookLE s limit)⟩
  | endBlock => exact ⟨h.1.mono (purge_bookLE s 5), h.2.mono (purge_bookLE s 5)⟩
  | _ => exact h

/-- **The book is never crossed.** In every state a run of messages and block
ends reaches from empty stores, every bid of a market is strictly below every
ask of it. -/
theorem book_never_crossed (k : Keeper) (bank : Bank) (ops : List Op) :
    Uncrossed k (k.reach bank ops) := by
  have hInit : Keyed (State.empty bank) ∧ Uncrossed k (State.empty bank) := by
    constructor
    · intro kk e he
      simp [State.empty] at he
    · intro kb ka b a pb pa hb
      simp [State.empty] at hb
  exact (Run.exec_invariant step_uncrossed ops hInit).2

end Ganc.Dex
