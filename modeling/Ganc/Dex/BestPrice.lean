import Ganc.Dex.Book
import Ganc.Dex.Sample
import Ganc.Lib.Greedy

/-!
# x/dex — matching is greedy by best price

What `MatchOrders` fills, against the abstract allocation of `Greedy`: the
execution loop hands the taker's quantity out along the sorted candidates
(`executeLoop_swept`), so a match is a best-first allocation of it to the
makers the taker can trade with (`matchOrders_greedy`), whatever order the sort
gives to equal prices.
-/

namespace Ganc.Dex

variable {k : Keeper}

-- ---------------------------------------------------------------------------
-- The makers
-- ---------------------------------------------------------------------------

/-- The order record an entry names. -/
def makerOf (s : State) (e : Orderbook) : Order := s.order[e.orderId]?.getD default

instance (side : String) (limit price : Int) : Decidable (WithinLimit side limit price) := by
  unfold WithinLimit
  infer_instance

namespace Keeper

variable (k : Keeper)

/-- What is left of the order an entry names. -/
def openQty (s : State) (e : Orderbook) : Int := k.value (makerOf s e).remaining

/-- The price of the order an entry names. -/
def priceOf (s : State) (e : Orderbook) : Int := k.value (makerOf s e).price

/-- The entries of the other side of the taker's market at a price within its
limit, if it has one. -/
def makers (s : State) (taker : Order) : List Orderbook :=
  (s.orderbook.toList.map Prod.snd).filter fun e =>
    e.marketId = taker.marketId ∧ e.side = targetSide taker.side ∧
      (taker.orderType = "LIMIT" →
        WithinLimit taker.side (k.value taker.price) (k.priceOf s e))

end Keeper

/-- The makers of an order are the entries of the other side that its price accepts. -/
theorem Keyed.mem_makers {s : State} {taker : Order} (h : Keyed s) {e : Orderbook} :
    e ∈ k.makers s taker ↔ s.orderbook[e.key]? = some e ∧ e.marketId = taker.marketId ∧
      e.side = Keeper.targetSide taker.side ∧ (taker.orderType = "LIMIT" →
        WithinLimit taker.side (k.value taker.price) (k.priceOf s e)) := by
  rw [Keeper.makers, List.mem_filter, h.mem_entries, decide_eq_true_eq]

theorem Keyed.nodup_makers {s : State} (h : Keyed s) (taker : Order) :
    (k.makers s taker).Nodup :=
  h.nodup_entries.filter _

/-- For a taker of the given side, `p` is a strictly better price than `p'`. -/
def BetterPrice (side : String) (p p' : Int) : Prop :=
  if side = "SELL" then p' < p else p < p'

/-- A candidate whose order is stored, open and priced. -/
structure Offered (k : Keeper) (s₀ s : State) (e : Orderbook) : Prop where
  stored : s.order[e.orderId]? = some (makerOf s₀ e)
  remaining : k.sdk.newIntFromString (makerOf s₀ e).remaining = some (k.openQty s₀ e)
  price : k.sdk.newIntFromString (makerOf s₀ e).price = some (k.priceOf s₀ e)
  positive : 0 < k.openQty s₀ e

-- ---------------------------------------------------------------------------
-- The loop
-- ---------------------------------------------------------------------------

section Sweep

variable {taker : Order} {takerId : String} {market : Market} {s₀ : State}

/-- The fill of a maker by `q`. -/
def fillOf (k : Keeper) (taker : Order) (takerId : String) (market : Market) (s₀ : State)
    (f : Orderbook → Int) (e : Orderbook) : Fill :=
  ⟨takerId, e.orderId, taker, makerOf s₀ e, market, f e, k.priceOf s₀ e⟩

/-- The fills of the candidates that get something. -/
def fillsOf (k : Keeper) (taker : Order) (takerId : String) (market : Market) (s₀ : State)
    (f : Orderbook → Int) (cs : List Orderbook) : List Fill :=
  (cs.filter fun e => f e ≠ 0).map (fillOf k taker takerId market s₀ f)

/-- The loop over `cs` in `s`, with the records as they are in `s₀`, filled every
candidate by `f`. -/
structure Swept (k : Keeper) (taker : Order) (takerId : String) (market : Market) (s₀ : State)
    (cs : List Orderbook) (f : Orderbook → Int) (rem : Int) (s : State) (left : Int)
    (s' : State) : Prop where
  left_eq : left = rem - (cs.map f).sum
  others : ∀ id, id ∉ cs.map Orderbook.orderId → s'.order[id]? = s.order[id]?
  makers : ∀ e ∈ cs, s'.order[e.orderId]? = some
    (if f e = 0 then makerOf s₀ e else makerAfter (makerOf s₀ e) (k.openQty s₀ e) (f e))
  book : ∀ key, s'.orderbook[key]? =
    if ∃ e ∈ cs, e.key = key ∧ f e = k.openQty s₀ e then none else s.orderbook[key]?
  fills : s'.fills = s.fills ++ fillsOf k taker takerId market s₀ f cs
  sent : s.bank.sendAll ((fillsOf k taker takerId market s₀ f cs).flatMap (Fill.transfers k)) =
    .ok s'.bank
  quotes : ∀ e ∈ cs, 0 ≤ f e * k.priceOf s₀ e

variable {cs : List Orderbook} {f : Orderbook → Int} {rem left : Int} {s s' : State}

/-- A loop that fills nothing. -/
theorem swept_idle (hOffered : ∀ e ∈ cs, Offered k s₀ s e) (hNone : ∀ e ∈ cs, f e = 0) :
    Swept k taker takerId market s₀ cs f rem s rem s := by
  have hEmpty : fillsOf k taker takerId market s₀ f cs = [] := by simpa [fillsOf] using hNone
  constructor
  case left_eq =>
    have hSum : (cs.map f).sum = 0 := List.sum_eq_zero (by simpa using hNone)
    omega
  case others => exact fun _ _ => rfl
  case makers =>
    intro e he
    rw [if_pos (hNone e he), (hOffered e he).stored]
  case book =>
    intro key
    rw [if_neg]
    rintro ⟨e, he, -, hFull⟩
    have hOpen := (hOffered e he).positive
    rw [hNone e he] at hFull
    omega
  case fills => rw [hEmpty, List.append_nil]
  case sent =>
    rw [hEmpty]
    rfl
  case quotes =>
    intro e he
    rw [hNone e he, zero_mul]

/-- A fill, and the loop over the candidates after it. -/
theorem Swept.cons {entry : Orderbook} {rest : List Orderbook} {g : Orderbook → Int}
    {q left₁ : Int} {s₁ : State}
    (hFilled : Filled k taker takerId market entry rem s (makerOf s₀ entry) (k.openQty s₀ entry)
      (k.priceOf s₀ entry) q left₁ s₁)
    (hRest : Swept k taker takerId market s₀ rest g left₁ s₁ left s')
    (hId : entry.orderId ∉ rest.map Orderbook.orderId) (hq : q ≠ 0) (hHead : f entry = q)
    (hTail : ∀ e ∈ rest, f e = g e) :
    Swept k taker takerId market s₀ (entry :: rest) f rem s left s' := by
  have hFills : fillsOf k taker takerId market s₀ f (entry :: rest) =
      ⟨takerId, entry.orderId, taker, makerOf s₀ entry, market, q, k.priceOf s₀ entry⟩ ::
        fillsOf k taker takerId market s₀ g rest := by
    have hFilter : (rest.filter fun e => f e ≠ 0) = rest.filter fun e => g e ≠ 0 := by
      refine List.filter_congr ?_
      intro e he
      rw [hTail e he]
    rw [fillsOf, List.filter_cons_of_pos (by simpa [hHead] using hq), List.map_cons, fillOf, hHead,
      hFilter]
    refine congrArg _ (List.map_congr_left ?_)
    intro e he
    rw [fillOf, fillOf, hTail e (List.mem_filter.mp he).1]
  constructor
  case left_eq =>
    have hLeft := hFilled.left_eq
    have hLeft' := hRest.left_eq
    rw [List.map_cons, List.sum_cons, List.map_congr_left hTail, hHead]
    omega
  case others =>
    intro id hNot
    rw [List.map_cons, List.mem_cons, not_or] at hNot
    rw [hRest.others id hNot.2, hFilled.stored_other hNot.1]
  case makers =>
    intro e he
    rcases List.mem_cons.mp he with rfl | hIn
    · rw [hRest.others _ hId, hFilled.stored_after, hHead, if_neg hq]
    · rw [hRest.makers e hIn, hTail e hIn]
  case book =>
    intro key
    have hSame : (∃ e ∈ rest, e.key = key ∧ g e = k.openQty s₀ e) ↔
        ∃ e ∈ rest, e.key = key ∧ f e = k.openQty s₀ e := by
      refine exists_congr fun e => and_congr_right fun he => ?_
      rw [hTail e he]
    rw [hRest.book, hFilled.orderbook]
    simp only [hSame, List.exists_mem_cons_iff, hHead]
    by_cases hLater : ∃ e ∈ rest, e.key = key ∧ f e = k.openQty s₀ e
    · rw [if_pos hLater, if_pos (.inr hLater)]
    · rw [if_neg hLater]
      simp only [hLater, or_false]
      by_cases hFull : k.openQty s₀ entry - q = 0
      · rw [if_pos hFull, Store.get?_erase]
        have hEq : q = k.openQty s₀ entry := by omega
        simp only [hEq, and_true, eq_comm]
      · rw [if_neg hFull, if_neg]
        rintro ⟨-, hEq⟩
        omega
  case fills => rw [hRest.fills, hFilled.fills, hFills, List.append_assoc, List.singleton_append]
  case sent =>
    rw [hFills, List.flatMap_cons, Bank.sendAll_append_eq_ok]
    exact ⟨s₁.bank, hFilled.sent, hRest.sent⟩
  case quotes =>
    intro e he
    rcases List.mem_cons.mp he with rfl | hIn
    · rw [hHead]
      exact hFilled.quote_nonneg
    · rw [hTail e hIn]
      exact hRest.quotes e hIn

/-- **The execution loop serves the candidates in order.** -/
theorem executeLoop_swept
    (h : k.executeLoop taker takerId market cs rem s = .ok (left, s')) (hRem : 0 ≤ rem)
    (hOffered : ∀ e ∈ cs, Offered k s₀ s e) (hIds : (cs.map Orderbook.orderId).Nodup) :
    Swept k taker takerId market s₀ cs (Greedy.serve (k.openQty s₀) rem cs) rem s left s' := by
  induction cs generalizing rem s with
  | nil =>
    obtain ⟨rfl, rfl⟩ := Prod.mk.inj (Result.pure_eq_ok.mp h)
    exact swept_idle hOffered fun _ _ => rfl
  | cons entry rest ih =>
    have hCap : ∀ e ∈ entry :: rest, 0 ≤ k.openQty s₀ e :=
      fun e he => (hOffered e he).positive.le
    rw [Keeper.executeLoop] at h
    split at h
    next hZero =>
      obtain ⟨rfl, rfl⟩ := Prod.mk.inj (Result.pure_eq_ok.mp h)
      subst hZero
      exact swept_idle hOffered (Greedy.serve_zero hCap)
    next hne =>
      obtain ⟨⟨left₁, s₁⟩, hEntry, hLoop⟩ := Result.bind_eq_ok.mp h
      obtain ⟨maker, r, p, q, hFilled⟩ := fillEntry_eq_ok hEntry
      have hOffer := hOffered entry (List.mem_cons_self ..)
      -- the loop reads the record of the maker as it was at the start
      have hMaker : maker = makerOf s₀ entry := by
        rw [hFilled.maker_eq, hOffer.stored, Option.getD_some]
      subst hMaker
      obtain rfl : k.openQty s₀ entry = r :=
        Option.some.inj (hOffer.remaining.symm.trans hFilled.remaining)
      obtain rfl : k.priceOf s₀ entry = p :=
        Option.some.inj (hOffer.price.symm.trans hFilled.price)
      have hQty := hFilled.qty
      have hLeft := hFilled.left_eq
      have hOpen := hOffer.positive
      obtain ⟨hId, hIds⟩ := List.nodup_cons.mp hIds
      have hApart : ∀ e ∈ rest, e.orderId ≠ entry.orderId := by
        intro e he hEq
        exact hId (hEq ▸ List.mem_map_of_mem he)
      have hLater : ∀ e ∈ rest, Offered k s₀ s₁ e := by
        intro e he
        obtain ⟨hStored, hRemaining, hPrice, hPositive⟩ := hOffered e (List.mem_cons_of_mem _ he)
        refine ⟨?_, hRemaining, hPrice, hPositive⟩
        rw [hFilled.stored_other (hApart e he), hStored]
      refine Swept.cons hFilled (ih hLoop (by omega) hLater hIds) hId (by omega) ?_ ?_
      · rw [Greedy.serve_head, hQty]
      · intro e he
        have hne : e ≠ entry := fun hEq => hApart e he (congrArg Orderbook.orderId hEq)
        rw [Greedy.serve_tail _ _ hne, hLeft, hQty]

end Sweep

-- ---------------------------------------------------------------------------
-- A match
-- ---------------------------------------------------------------------------

section Match

variable {ctx : Context} {s s' : State} {taker : Order} {takerId : String} {market : Market}
variable {quantity : Int}

/-- What the match of a taker for `quantity` is about: the book names its makers
properly, and the taker is new. -/
structure Matchable (k : Keeper) (s : State) (taker : Order) (takerId : String)
    (quantity : Int) : Prop where
  keyed : Keyed s
  maker : ∀ (kk : String) (e : Orderbook), s.orderbook[kk]? = some e →
    e.marketId = taker.marketId → e.side = Keeper.targetSide taker.side →
    ∃ o price unfilled, s.order[e.orderId]? = some o ∧ o.marketId = e.marketId ∧ o.side = e.side ∧
      k.sdk.newIntFromString e.price = some price ∧ k.sdk.newIntFromString o.price = some price ∧
      k.sdk.newIntFromString o.remaining = some unfilled ∧ 0 < unfilled
  distinct : ∀ (k₁ k₂ : String) (e₁ e₂ : Orderbook), s.orderbook[k₁]? = some e₁ →
    s.orderbook[k₂]? = some e₂ → e₁.marketId = taker.marketId → e₂.marketId = taker.marketId →
    e₁.side = Keeper.targetSide taker.side → e₂.side = Keeper.targetSide taker.side →
    e₁.orderId = e₂.orderId → k₁ = k₂
  side : taker.side = "BUY" ∨ taker.side = "SELL"
  orderType : taker.orderType = "MARKET" ∨
    taker.orderType = "LIMIT" ∧ ∃ limit, k.sdk.newIntFromString taker.price = some limit
  remaining : k.sdk.newIntFromString taker.remaining = some quantity
  nonneg : 0 ≤ quantity
  newId : takerId ∉ s.order
  newKey : (restingEntry taker takerId).key ∉ s.orderbook

/-- The coins of a denom that the sends move. -/
def moved (ts : List Transfer) (d : String) : Int :=
  (ts.map fun t => (Bank.amountOf t.coins d : Int)).sum

/-- What two lists of transfers move adds up. -/
theorem moved_append (ts ts' : List Transfer) (d : String) :
    moved (ts ++ ts') d = moved ts d + moved ts' d := by
  rw [moved, List.map_append, List.sum_append]
  rfl

/-- A match that hands `quantity` out to the makers as `f` says. -/
structure BestPriceMatch (k : Keeper) (s : State) (taker : Order) (takerId : String)
    (market : Market) (quantity : Int) (f : Orderbook → Int) (s' : State) : Prop where
  greedy : Greedy.BestFirst (k.openQty s)
    (fun e e' => BetterPrice taker.side (k.priceOf s e) (k.priceOf s e')) (k.makers s taker)
    quantity f
  filled : ∀ e ∈ k.makers s taker, f e = k.openQty s e → s'.orderbook[e.key]? = none ∧
    s'.order[e.orderId]? = some { makerOf s e with remaining := "0", status := "FILLED" }
  cut : ∀ e ∈ k.makers s taker, 0 < f e → f e < k.openQty s e →
    s'.order[e.orderId]? = some { makerOf s e with remaining := toString (k.openQty s e - f e) }
  skipped : ∀ e ∈ k.makers s taker, f e = 0 → s'.order[e.orderId]? = s.order[e.orderId]?
  kept : ∀ (kk : String) (e : Orderbook), s.orderbook[kk]? = some e →
    ¬ (e ∈ k.makers s taker ∧ f e = k.openQty s e) → s'.orderbook[kk]? = some e
  others : ∀ id, id ≠ takerId → id ∉ (k.makers s taker).map Orderbook.orderId →
    s'.order[id]? = s.order[id]?
  left : ∃ status, s'.order[takerId]? =
    some (takerAfter taker (quantity - ((k.makers s taker).map f).sum) status)
  settled : ∃ new refund, s'.fills = s.fills ++ new ∧
    new.Perm (fillsOf k taker takerId market s f (k.makers s taker)) ∧
    RefundOf k taker market refund ∧
    s.bank.sendAll (new.flatMap (Fill.transfers k) ++ refund) = .ok s'.bank ∧
    ∀ d, moved (new.flatMap (Fill.transfers k)) d =
      paid market.baseDenom ((k.makers s taker).map f).sum d +
      paid market.quoteDenom ((k.makers s taker).map fun e => f e * k.priceOf s e).sum d

namespace Matchable

variable (h : Matchable k s taker takerId quantity)
include h

/-- An entry the taker can look at, with its order. -/
theorem offered {e : Orderbook} (he : s.orderbook[e.key]? = some e)
    (hMarket : e.marketId = taker.marketId) (hSide : e.side = Keeper.targetSide taker.side) :
    Offered k s s e ∧ k.sdk.newIntFromString e.price = some (k.priceOf s e) := by
  obtain ⟨o, price, unfilled, ho, -, -, hEntry, hPrice, hOpen, hPos⟩ := h.maker _ e he hMarket hSide
  have hMaker : makerOf s e = o := by rw [makerOf, ho, Option.getD_some]
  have hPriceOf : k.priceOf s e = price := by rw [Keeper.priceOf, hMaker, Keeper.value_eq hPrice]
  have hOpenQty : k.openQty s e = unfilled := by rw [Keeper.openQty, hMaker, Keeper.value_eq hOpen]
  refine ⟨⟨?_, ?_, ?_, ?_⟩, ?_⟩
  · rw [hMaker, ho]
  · rw [hMaker, hOpenQty, hOpen]
  · rw [hMaker, hPriceOf, hPrice]
  · rwa [hOpenQty]
  · rw [hPriceOf, hEntry]

/-- The makers of a matchable order are the entries that it may take from. -/
theorem mem_makers {e : Orderbook} : e ∈ k.makers s taker ↔ s.orderbook[e.key]? = some e ∧
    e.marketId = taker.marketId ∧ e.side = Keeper.targetSide taker.side ∧
    (taker.orderType = "LIMIT" →
      WithinLimit taker.side (k.value taker.price) (k.priceOf s e)) :=
  h.keyed.mem_makers

/-- The makers are what passes the filter. -/
theorem compatible_iff {e : Orderbook} :
    e ∈ s.orderbook.toList.map Prod.snd ∧ Compatible k taker e ↔ e ∈ k.makers s taker := by
  rw [h.mem_makers, h.keyed.mem_entries]
  refine and_congr_right ?_
  intro he
  constructor
  · intro hComp
    refine ⟨hComp.market, hComp.side, ?_⟩
    intro hLimit
    rcases h.orderType with hMarket | ⟨-, limit, hTaker⟩
    · rw [hMarket] at hLimit
      exact absurd hLimit (by decide)
    · rw [Keeper.value_eq hTaker]
      exact hComp.within hLimit hTaker (h.offered he hComp.market hComp.side).2
  · rintro ⟨hMarket, hSide, hWithin⟩
    refine Compatible.of_within hMarket hSide (h.offered he hMarket hSide).2 ?_
    rcases h.orderType with hType | ⟨hType, limit, hTaker⟩
    · exact .inl (by rw [hType]; decide)
    · rw [Keeper.value_eq hTaker] at hWithin
      exact .inr ⟨limit, hTaker, hWithin hType⟩

/-- The sorted candidates are the makers in another order. -/
theorem perm_makers {fetched cs : List Orderbook}
    (hFetch : k.fetchCandidates taker s.orderbook.toList = .ok fetched)
    (hSort : k.sortCandidates ctx.ties (Keeper.targetSide taker.side) fetched = .ok cs) :
    cs.Perm (k.makers s taker) := by
  obtain ⟨hMem, fetched, hPerm, hSub⟩ := sorted_candidates hFetch hSort
  rw [List.perm_ext_iff_of_nodup (h.keyed.pending hPerm hSub).nodup (h.keyed.nodup_makers taker)]
  intro e
  rw [hMem, h.compatible_iff]

/-- No two makers are entries of one order. -/
theorem nodup_orderIds {cs : List Orderbook} (hPerm : cs.Perm (k.makers s taker)) :
    (cs.map Orderbook.orderId).Nodup := by
  have hNodup : cs.Nodup := hPerm.nodup_iff.mpr (h.keyed.nodup_makers taker)
  refine List.Nodup.map_on ?_ hNodup
  intro e he e' he' hId
  obtain ⟨hStored, hMarket, hSide, -⟩ := h.mem_makers.mp (hPerm.mem_iff.mp he)
  obtain ⟨hStored', hMarket', hSide', -⟩ := h.mem_makers.mp (hPerm.mem_iff.mp he')
  have hKeys := h.distinct _ _ e e' hStored hStored' hMarket hMarket' hSide hSide' hId
  rw [hKeys, hStored'] at hStored
  exact (Option.some.inj hStored).symm

/-- No maker comes after one with a worse price. -/
theorem sorted {cs fetched : List Orderbook}
    (hSort : k.sortCandidates ctx.ties (Keeper.targetSide taker.side) fetched = .ok cs)
    (hPerm : cs.Perm (k.makers s taker)) :
    cs.Pairwise fun e e' => ¬ BetterPrice taker.side (k.priceOf s e') (k.priceOf s e) := by
  have hRank : ∀ e ∈ cs, k.rank e = k.priceOf s e := by
    intro e he
    obtain ⟨hStored, hMarket, hSide, -⟩ := h.mem_makers.mp (hPerm.mem_iff.mp he)
    rw [Keeper.rank, (h.offered hStored hMarket hSide).2, Option.getD_some]
  refine List.Pairwise.imp_of_mem ?_ (sortCandidates_pairwise hSort)
  intro e e' he he' hRanked
  rw [Keeper.Ranked, hRank e he, hRank e' he'] at hRanked
  unfold BetterPrice
  rcases h.side with hBuy | hSell
  · rw [hBuy, if_neg (by decide)] at hRanked ⊢
    omega
  · rw [hSell, Keeper.targetSide, if_pos rfl, if_pos rfl] at hRanked
    rw [hSell, if_pos rfl]
    omega

/-- Every maker offers its order's remaining quantity. -/
theorem maker_offered {e : Orderbook} (he : e ∈ k.makers s taker) :
    s.orderbook[e.key]? = some e ∧ Offered k s s e := by
  obtain ⟨hStored, hMarket, hSide, -⟩ := h.mem_makers.mp he
  exact ⟨hStored, (h.offered hStored hMarket hSide).1⟩

/-- A match serves the makers, best prices first, and then deals with the taker. -/
theorem swept (hOk : k.matchOrders ctx s taker takerId market = .ok s') :
    ∃ cs f left s₁, cs.Perm (k.makers s taker) ∧
      Greedy.BestFirst (k.openQty s)
        (fun e e' => BetterPrice taker.side (k.priceOf s e) (k.priceOf s e')) cs quantity f ∧
      Swept k taker takerId market s cs f quantity s left s₁ ∧
      Finalized k taker takerId market left s₁ s' := by
  obtain ⟨fetched, cs, rem, left, s₁, hFetch, hSort, hRem, hLoop, hEnd⟩ := matchOrders_stages hOk
  obtain rfl : quantity = rem := Option.some.inj (h.remaining.symm.trans hRem)
  have hPerm := h.perm_makers hFetch hSort
  have hOffered : ∀ e ∈ cs, Offered k s s e :=
    fun e he => (h.maker_offered (hPerm.mem_iff.mp he)).2
  have hIrrefl : ∀ e, ¬ BetterPrice taker.side (k.priceOf s e) (k.priceOf s e) := by
    intro e
    unfold BetterPrice
    split <;> exact lt_irrefl _
  refine ⟨cs, Greedy.serve (k.openQty s) quantity cs, left, s₁, hPerm, ?_, ?_, hEnd⟩
  · exact Greedy.bestFirst_serve hIrrefl
      (hPerm.nodup_iff.mpr (h.keyed.nodup_makers taker)) (h.sorted hSort hPerm) h.nonneg
      fun e he => (hOffered e he).positive.le
  · exact executeLoop_swept hLoop h.nonneg hOffered (h.nodup_orderIds hPerm)

end Matchable

variable (taker takerId market) in
/-- The coins of the fills: base by the quantity, quote by the quantity times the
price. -/
theorem moved_fills {f : Orderbook → Int} {cs : List Orderbook} (hQty : ∀ e ∈ cs, 0 ≤ f e)
    (hQuote : ∀ e ∈ cs, 0 ≤ f e * k.priceOf s e) (d : String) :
    moved ((fillsOf k taker takerId market s f cs).flatMap (Fill.transfers k)) d =
      paid market.baseDenom (cs.map f).sum d +
      paid market.quoteDenom (cs.map fun e => f e * k.priceOf s e).sum d := by
  have hFill : ∀ e, 0 ≤ f e → 0 ≤ f e * k.priceOf s e →
      moved (Fill.transfers k (fillOf k taker takerId market s f e)) d =
        paid market.baseDenom (f e) d + paid market.quoteDenom (f e * k.priceOf s e) d := by
    intro e h0 h0'
    unfold moved Fill.transfers Fill.transfersIn fillOf
    dsimp only
    split
    · simp [amountOf_release _ _ d h0, amountOf_release _ _ d h0']
    · simp [amountOf_release _ _ d h0, amountOf_release _ _ d h0', add_comm]
  induction cs with
  | nil => simp [fillsOf, moved]
  | cons e cs ih =>
    have hRest := ih (fun e' he' => hQty e' (List.mem_cons_of_mem _ he'))
      (fun e' he' => hQuote e' (List.mem_cons_of_mem _ he'))
    have hOwn := hFill e (hQty e (List.mem_cons_self ..)) (hQuote e (List.mem_cons_self ..))
    simp only [List.map_cons, List.sum_cons, paid_add]
    by_cases hZero : f e = 0
    · rw [fillsOf, List.filter_cons_of_neg (by simpa using hZero), ← fillsOf, hRest, hZero,
        zero_mul, paid_zero, paid_zero]
      omega
    · rw [fillsOf, List.filter_cons_of_pos (by simpa using hZero), List.map_cons,
        List.flatMap_cons, ← fillsOf]
      rw [moved_append, hOwn, hRest]
      omega

/-- **Matching is greedy by best price.** Whatever order the sort gives to equal
prices, a match that succeeds hands the quantity of the taker out to the makers it
can trade with, each at its own price and best prices first, until one side is used
up; full makers leave the book, and the settlement moves the coins of the fills. -/
theorem matchOrders_greedy (hMatchable : Matchable k s taker takerId quantity)
    (hOk : k.matchOrders ctx s taker takerId market = .ok s') :
    ∃ f, BestPriceMatch k s taker takerId market quantity f s' := by
  obtain ⟨cs, f, left, s₁, hPerm, hServed, hSwept, hEnd⟩ := hMatchable.swept hOk
  have hMakers : ∀ e ∈ k.makers s taker, s.orderbook[e.key]? = some e ∧ Offered k s s e :=
    fun e he => hMatchable.maker_offered he
  obtain ⟨status, hOrder⟩ := hEnd.order_eq
  -- neither the taker's id nor its key is one of a maker
  have hOld : ∀ id, id ≠ takerId → s'.order[id]? = s₁.order[id]? := by
    intro id hne
    rw [hOrder, Store.get?_insert_ne hne]
  have hNotTaker : ∀ e ∈ k.makers s taker, e.orderId ≠ takerId := by
    rintro e he rfl
    exact hMatchable.newId (Store.mem_iff.mpr ⟨_, (hMakers e he).2.stored⟩)
  have hBook : ∀ (kk : String) (e : Orderbook), s.orderbook[kk]? = some e →
      s'.orderbook[kk]? = s₁.orderbook[kk]? := by
    intro kk e he
    refine hEnd.get?_book ?_
    rintro rfl
    exact hMatchable.newKey (Store.mem_iff.mpr ⟨e, he⟩)
  have hRecord : ∀ e ∈ k.makers s taker, s'.order[e.orderId]? = some
      (if f e = 0 then makerOf s e else makerAfter (makerOf s e) (k.openQty s e) (f e)) := by
    intro e he
    rw [hOld _ (hNotTaker e he), hSwept.makers e (hPerm.mem_iff.mpr he)]
  refine ⟨f, ?_⟩
  constructor
  case greedy => exact hServed.perm hPerm
  case filled =>
    intro e he hFull
    have hPos := (hMakers e he).2.positive
    refine ⟨?_, ?_⟩
    · rw [hBook _ e (hMakers e he).1, hSwept.book, if_pos ⟨e, hPerm.mem_iff.mpr he, rfl, hFull⟩]
    · rw [hRecord e he, if_neg (by omega), makerAfter, hFull, sub_self, if_pos rfl]
      rfl
  case cut =>
    intro e he hServed hShort
    rw [hRecord e he, if_neg (by omega), makerAfter, if_neg (by omega)]
  case skipped =>
    intro e he hNone
    rw [hRecord e he, if_pos hNone, (hMakers e he).2.stored]
  case kept =>
    intro kk e he hNot
    have hkk := hMatchable.keyed kk e he
    rw [hBook kk e he, hSwept.book, if_neg, he]
    rintro ⟨e', he', hKey, hFull⟩
    have hMaker := hPerm.mem_iff.mp he'
    have hStored := (hMakers e' hMaker).1
    rw [hKey, he] at hStored
    obtain rfl := Option.some.inj hStored
    exact hNot ⟨hMaker, hFull⟩
  case others =>
    intro id hne hNot
    rw [hOld id hne, hSwept.others]
    rwa [(hPerm.map Orderbook.orderId).mem_iff]
  case left =>
    refine ⟨status, ?_⟩
    rw [hOrder, Std.ExtTreeMap.getElem?_insert_self, hSwept.left_eq, (hPerm.map f).sum_eq]
  case settled =>
    have hFills : s'.fills = s.fills ++ fillsOf k taker takerId market s f cs := by
      rw [hEnd.frame.2, hSwept.fills]
    have hNew : (fillsOf k taker takerId market s f cs).Perm
        (fillsOf k taker takerId market s f (k.makers s taker)) := (hPerm.filter _).map _
    have hCoins : ∀ d, moved ((fillsOf k taker takerId market s f cs).flatMap
        (Fill.transfers k)) d = paid market.baseDenom ((k.makers s taker).map f).sum d +
        paid market.quoteDenom ((k.makers s taker).map fun e => f e * k.priceOf s e).sum d := by
      intro d
      rw [moved_fills taker takerId market (fun e he => (hServed.bounds e he).1) hSwept.quotes,
        (hPerm.map f).sum_eq, (hPerm.map fun e => f e * k.priceOf s e).sum_eq]
    obtain ⟨refund, hRefund, hSent⟩ := hEnd.sent hSwept.sent
    exact ⟨_, refund, hFills, hNew, hRefund, hSent, hCoins⟩

end Match

namespace Sample

open Ganc.Sample

def aliceAsk : Orderbook := ⟨"", "uatom-uusdt", "SELL", "5", "uatom-uusdt-2-cosmos"⟩

def bobAsk : Orderbook := ⟨"", "uatom-uusdt", "SELL", "4", "uatom-uusdt-3-cosmos"⟩

/-- Alice asks 5 for three and Bob 4 for nine, in a module that can pay. -/
def quoted : State :=
  { State.empty ⟨fun _ _ => 1000, []⟩ with
    order := ((∅ : Store String Order).insert "uatom-uusdt-2-cosmos"
      (takerAfter (order alice "SELL" "5" "3").toOrder 3 "PARTIAL")).insert
      "uatom-uusdt-3-cosmos" (takerAfter (order bob "SELL" "4" "9").toOrder 9 "PARTIAL")
    orderbook := ((∅ : Store String Orderbook).insert aliceAsk.key aliceAsk).insert
      bobAsk.key bobAsk }

/-- Carol bids 6 for ten: nine from Bob, and one from Alice. -/
def carolBid : Order := (order carol "BUY" "6" "10").toOrder

theorem quoted_entries {kk : String} {e : Orderbook} (he : quoted.orderbook[kk]? = some e) :
    kk = e.key ∧ (e = aliceAsk ∨ e = bobAsk) := by
  have hList : quoted.orderbook.toList = [(bobAsk.key, bobAsk), (aliceAsk.key, aliceAsk)] := by
    decide +kernel
  have hMem : (kk, e) ∈ quoted.orderbook.toList := Store.mem_toList.mpr he
  rw [hList, List.mem_cons, List.mem_singleton] at hMem
  rcases hMem with hEq | hEq <;> cases hEq
  · exact ⟨rfl, .inr rfl⟩
  · exact ⟨rfl, .inl rfl⟩

theorem quoted_matchable : Matchable keeper quoted carolBid "uatom-uusdt-4-cosmos" 10 where
  keyed _ _ he := (quoted_entries he).1
  maker := by
    intro kk e he _ _
    rcases (quoted_entries he).2 with rfl | rfl
    · exact ⟨(quoted.order["uatom-uusdt-2-cosmos"]?).getD default, 5, 3, by decide +kernel,
        by decide +kernel, by decide +kernel, by decide +kernel, by decide +kernel,
        by decide +kernel, by decide⟩
    · exact ⟨(quoted.order["uatom-uusdt-3-cosmos"]?).getD default, 4, 9, by decide +kernel,
        by decide +kernel, by decide +kernel, by decide +kernel, by decide +kernel,
        by decide +kernel, by decide⟩
  distinct := by
    intro k₁ k₂ e₁ e₂ h₁ h₂ _ _ _ _ hEq
    rw [(quoted_entries h₁).1, (quoted_entries h₂).1]
    rcases (quoted_entries h₁).2 with rfl | rfl <;> rcases (quoted_entries h₂).2 with rfl | rfl
    · rfl
    · exact absurd hEq (by decide)
    · exact absurd hEq (by decide)
    · rfl
  side := .inl rfl
  orderType := .inr ⟨rfl, 6, by decide +kernel⟩
  remaining := by decide +kernel
  nonneg := by decide
  newId := by decide +kernel
  newKey := by decide +kernel

end Sample

open Ganc.Dex.Sample Ganc.Sample in
/-- Carol's bid for ten meets an ask of nine at 4 and one of three at 5. -/
theorem matchOrders_greedy_sample : ∃ s' f, keeper.matchOrders (block 4) quoted carolBid
    "uatom-uusdt-4-cosmos" listed = .ok s' ∧
    BestPriceMatch keeper quoted carolBid "uatom-uusdt-4-cosmos" listed 10 f s' := by
  obtain ⟨s', hOk⟩ := Result.exists_of_isOk (x := keeper.matchOrders (block 4) quoted carolBid
    "uatom-uusdt-4-cosmos" listed) (by decide +kernel)
  obtain ⟨f, hMatch⟩ := matchOrders_greedy quoted_matchable hOk
  exact ⟨s', f, hOk, hMatch⟩

end Ganc.Dex
