import Ganc.Dex.Matching

/-!
# x/dex — what the matching engine does

One lemma for each function of `matching.go`, read off a successful call:

* `mem_fetchCandidates`, `sortCandidates_perm` — the candidates are the
  compatible entries of the other side, each as often as the book holds it;
* `fillEntry_eq_ok` — one fill, as the record `Filled`;
* `executeLoop_induction` — an invariant of single fills holds when the loop
  is left, which is when the taker is filled or no candidate remains;
* `finalizeTaker_eq_ok` — the three ways a taker ends, as `Finalized`.

No later proof unfolds the engine.
-/

namespace Ganc.Dex

variable {k : Keeper}

-- ---------------------------------------------------------------------------
-- Amounts and coin movements
-- ---------------------------------------------------------------------------

/-- What the module account of `bank` pays when it moves `amount` of `denom`. -/
def paid (denom : String) (amount : Int) (d : String) : Int :=
  if denom = d then amount else 0

theorem paid_nonneg {denom : String} {amount : Int} (d : String) (h : 0 ≤ amount) :
    0 ≤ paid denom amount d := by
  unfold paid
  split <;> omega

@[simp] theorem paid_zero (denom d : String) : paid denom 0 d = 0 := by
  unfold paid
  split <;> rfl

/-- Payments of one coin add up. -/
theorem paid_add (denom : String) (a b : Int) (d : String) :
    paid denom (a + b) d = paid denom a d + paid denom b d := by
  unfold paid
  split <;> omega

theorem paid_sub (denom : String) (a b : Int) (d : String) :
    paid denom (a - b) d = paid denom a d - paid denom b d := by
  unfold paid
  split <;> omega

/-- The value of an amount string. -/
def Keeper.value (k : Keeper) (t : String) : Int := (k.sdk.newIntFromString t).getD 0

/-- The value of a numeral is the number. -/
theorem Keeper.value_eq {t : String} {i : Int} (h : k.sdk.newIntFromString t = some i) :
    k.value t = i := by
  rw [Keeper.value, h, Option.getD_some]

/-- A payment takes its amount from the escrow. -/
theorem payOut_eq_ok {bank bank' : Bank} {addr : AccAddress} {denom : String} {amount : Int}
    (h : k.payOut bank addr denom amount = .ok bank') :
    0 ≤ amount ∧ ∀ d, bank'.held d = bank.held d - paid denom amount d := by
  simp only [Keeper.payOut, Result.bind_eq_ok, Sdk.newCoin_eq_ok] at h
  obtain ⟨coin, ⟨-, n, hAmount, rfl⟩, hSend⟩ := h
  obtain rfl := Option.some.inj hAmount
  refine ⟨Int.natCast_nonneg n, ?_⟩
  intro d
  rw [Bank.held_of_sendFromModule hSend, Bank.amountOf_newCoins, paid]
  split <;> simp

/-- The send of `amount` of `denom` from the module to `addr`. -/
def release (addr : AccAddress) (denom : String) (amount : Int) : Transfer :=
  ⟨.module, .user addr, newCoins ⟨denom, amount.toNat⟩⟩

/-- A release moves the amount of its coin and of no other. -/
theorem amountOf_release (addr : AccAddress) (denom : String) {amount : Int} (d : String)
    (h : 0 ≤ amount) :
    (Bank.amountOf (release addr denom amount).coins d : Int) = paid denom amount d := by
  rw [release, Bank.amountOf_newCoins, paid]
  split
  · exact Int.toNat_of_nonneg h
  · rfl

/-- The account behind a creator string; the decoding error is dropped. -/
def Keeper.addressOf (k : Keeper) (creator : String) : AccAddress :=
  (k.sdk.accAddressFromBech32 creator).getD []

/-- The sends of a fill in a given pair of denoms: base to the one who buys, quote to
the one who sells. -/
def Fill.transfersIn (k : Keeper) (baseDenom quoteDenom : String) (f : Fill) : List Transfer :=
  let taker := k.addressOf f.taker.creator
  let maker := k.addressOf f.maker.creator
  if f.taker.side = "BUY" then
    [release taker baseDenom f.qty, release maker quoteDenom (f.qty * f.price)]
  else
    [release taker quoteDenom (f.qty * f.price), release maker baseDenom f.qty]

/-- The sends of a fill. -/
def Fill.transfers (k : Keeper) (f : Fill) : List Transfer :=
  f.transfersIn k f.market.baseDenom f.market.quoteDenom

/-- A payment is a release that the bank sends. -/
theorem payOut_sent {bank bank' : Bank} {addr : AccAddress} {denom : String} {amount : Int}
    (h : k.payOut bank addr denom amount = .ok bank') :
    bank.sendCoins .module (.user addr) (release addr denom amount).coins = .ok bank' := by
  simp only [Keeper.payOut, Result.bind_eq_ok, Sdk.newCoin_eq_ok] at h
  obtain ⟨coin, ⟨-, n, hAmount, rfl⟩, hSend⟩ := h
  obtain rfl := Option.some.inj hAmount
  exact hSend

theorem sendAll_release {bank bank' : Bank} {addr : AccAddress} {denom : String} {amount : Int}
    (h : k.payOut bank addr denom amount = .ok bank') :
    bank.sendAll [release addr denom amount] = .ok bank' :=
  Bank.sendAll_cons_eq_ok.mpr ⟨bank', payOut_sent h, rfl⟩

/-- A settlement sends the two transfers of its fill. -/
theorem settleAssets_sent {bank bank' : Bank} {takerId makerId : String} {taker maker : Order}
    {qty price : Int} {m : Market}
    (h : k.settleAssets bank (k.addressOf taker.creator) (k.addressOf maker.creator) taker.side
      qty (qty * price) m = .ok bank') :
    bank.sendAll (Fill.transfers k ⟨takerId, makerId, taker, maker, m, qty, price⟩) =
      .ok bank' := by
  unfold Keeper.settleAssets at h
  unfold Fill.transfers Fill.transfersIn
  split at h <;> obtain ⟨bank₁, hFirst, hSecond⟩ := Result.bind_eq_ok.mp h
  next hBuy =>
    rw [if_pos hBuy, Bank.sendAll_cons_eq_ok]
    exact ⟨bank₁, payOut_sent hFirst, sendAll_release hSecond⟩
  next hSell =>
    rw [if_neg hSell, Bank.sendAll_cons_eq_ok]
    exact ⟨bank₁, payOut_sent hFirst, sendAll_release hSecond⟩

/-- A settlement takes both coins of its fill from the escrow. -/
theorem settleAssets_eq_ok {bank bank' : Bank} {taker maker : AccAddress} {takerSide : String}
    {qty quote : Int} {m : Market}
    (h : k.settleAssets bank taker maker takerSide qty quote m = .ok bank') :
    0 ≤ qty ∧ 0 ≤ quote ∧ ∀ d, bank'.held d =
      bank.held d - paid m.baseDenom qty d - paid m.quoteDenom quote d := by
  unfold Keeper.settleAssets at h
  split at h
  · obtain ⟨bank₁, hBase, hQuote⟩ := Result.bind_eq_ok.mp h
    obtain ⟨h0, hHeld₁⟩ := payOut_eq_ok hBase
    obtain ⟨h0', hHeld₂⟩ := payOut_eq_ok hQuote
    exact ⟨h0, h0', fun d => by rw [hHeld₂, hHeld₁]⟩
  · obtain ⟨bank₁, hQuote, hBase⟩ := Result.bind_eq_ok.mp h
    obtain ⟨h0', hHeld₁⟩ := payOut_eq_ok hQuote
    obtain ⟨h0, hHeld₂⟩ := payOut_eq_ok hBase
    exact ⟨h0, h0', fun d => by rw [hHeld₂, hHeld₁]; omega⟩

/-- A refund either pays the remaining base out or leaves the bank alone. -/
theorem handleRefund_cases {bank bank' : Bank} {addr : AccAddress} {remaining : Int}
    {side : String} {m : Market} (h : k.handleRefund bank addr remaining side m = .ok bank') :
    bank' = bank ∨
      (side = "SELL" ∧ k.payOut bank addr m.baseDenom remaining = .ok bank') := by
  unfold Keeper.handleRefund at h
  split at h
  · exact .inl (Result.pure_eq_ok.mp h).symm
  split at h
  next hSide =>
    obtain ⟨coin, hCoin, hSend⟩ := Result.bind_eq_ok.mp h
    split at hSend
    next bank₁ hOk =>
      obtain rfl := Result.pure_eq_ok.mp hSend
      exact .inr ⟨hSide, Result.bind_eq_ok.mpr ⟨coin, hCoin, hOk⟩⟩
    next => exact .inl (Result.pure_eq_ok.mp hSend).symm
  · exact .inl (Result.pure_eq_ok.mp h).symm

/-- A refund gives a seller the unsold coins, or changes nothing. -/
theorem handleRefund_eq_ok {bank bank' : Bank} {addr : AccAddress} {remaining : Int}
    {side : String} {m : Market}
    (h : k.handleRefund bank addr remaining side m = .ok bank') :
    bank' = bank ∨
      (side = "SELL" ∧ 0 ≤ remaining ∧
        ∀ d, bank'.held d = bank.held d - paid m.baseDenom remaining d) := by
  rcases handleRefund_cases h with hSame | ⟨hSide, hPay⟩
  · exact .inl hSame
  · exact .inr ⟨hSide, payOut_eq_ok hPay⟩

/-- What a refund sends. -/
theorem handleRefund_sent {bank bank' : Bank} {addr : AccAddress} {remaining : Int}
    {side : String} {m : Market}
    (h : k.handleRefund bank addr remaining side m = .ok bank') :
    bank' = bank ∨ bank.sendAll [release addr m.baseDenom remaining] = .ok bank' := by
  rcases handleRefund_cases h with hSame | ⟨-, hPay⟩
  · exact .inl hSame
  · exact .inr (sendAll_release hPay)

/-- A refund that the module account can pay is paid. -/
theorem handleRefund_pays {bank bank' : Bank} {addr : AccAddress} {remaining : Int}
    {side : String} {m : Market} (h : k.handleRefund bank addr remaining side m = .ok bank')
    (hne : remaining ≠ 0) (hSide : side = "SELL") (hHeld : remaining ≤ bank.held m.baseDenom) :
    k.payOut bank addr m.baseDenom remaining = .ok bank' := by
  unfold Keeper.handleRefund at h
  rw [if_neg hne, if_pos hSide] at h
  obtain ⟨coin, hCoin, hSend⟩ := Result.bind_eq_ok.mp h
  obtain ⟨-, n, hAmount, rfl⟩ := Sdk.newCoin_eq_ok.mp hCoin
  obtain rfl := Option.some.inj hAmount
  obtain ⟨bank₁, hOk⟩ := Bank.sendFromModule_isOk (a := addr) (c := ⟨m.baseDenom, n⟩) hHeld
  rw [hOk] at hSend
  obtain rfl := Result.pure_eq_ok.mp hSend
  exact Result.bind_eq_ok.mpr ⟨_, hCoin, hOk⟩

/-- With the coins in escrow, a seller gets all that is unsold. -/
theorem handleRefund_funded {bank bank' : Bank} {addr : AccAddress} {remaining : Int}
    {side : String} {m : Market} (h : k.handleRefund bank addr remaining side m = .ok bank')
    (hne : remaining ≠ 0) (hSide : side = "SELL") (hHeld : remaining ≤ bank.held m.baseDenom) :
    (∀ d, bank'.held d = bank.held d - paid m.baseDenom remaining d) ∧
      bank'.log = bank.log ++ [release addr m.baseDenom remaining] := by
  have hPay := handleRefund_pays h hne hSide hHeld
  exact ⟨(payOut_eq_ok hPay).2, (Bank.sendAll_eq_ok (sendAll_release hPay)).1⟩

/-- A refund that is funded is one release. -/
theorem handleRefund_paid {bank bank' : Bank} {addr : AccAddress} {remaining : Int}
    {side : String} {m : Market} (h : k.handleRefund bank addr remaining side m = .ok bank')
    (hne : remaining ≠ 0) (hSide : side = "SELL") (hHeld : remaining ≤ bank.held m.baseDenom) :
    bank.sendAll [release addr m.baseDenom remaining] = .ok bank' :=
  sendAll_release (handleRefund_pays h hne hSide hHeld)

-- ---------------------------------------------------------------------------
-- Candidates
-- ---------------------------------------------------------------------------

/-- The filter of `MatchOrders` keeps the entry. -/
structure Compatible (k : Keeper) (taker : Order) (e : Orderbook) : Prop where
  market : e.marketId = taker.marketId
  side : e.side = Keeper.targetSide taker.side
  price : k.priceCompatible taker e = .ok true

/-- A trade at `price` is no worse than the limit of an order of the given side. -/
def WithinLimit (side : String) (limit price : Int) : Prop :=
  (side = "BUY" → price ≤ limit) ∧ (side = "SELL" → limit ≤ price)

/-- What the filter of `MatchOrders` checks of two prices that parse. -/
theorem Compatible.within {taker : Order} {e : Orderbook} {limit price : Int}
    (h : Compatible k taker e) (hType : taker.orderType = "LIMIT")
    (hTaker : k.sdk.newIntFromString taker.price = some limit)
    (hMaker : k.sdk.newIntFromString e.price = some price) :
    WithinLimit taker.side limit price := by
  have hOk := h.price
  refine ⟨?_, ?_⟩
  · intro hBuy
    simp only [Keeper.priceCompatible, if_pos hType, if_pos hBuy, hTaker, hMaker, MathInt.gt,
      Result.bind_eq_ok, Except.ok.injEq, exists_eq_left', Result.pure_eq_ok] at hOk
    simpa using hOk
  · intro hSell
    have hNotBuy : taker.side ≠ "BUY" := by
      rw [hSell]
      decide
    simp only [Keeper.priceCompatible, if_pos hType, if_neg hNotBuy, if_pos hSell, hTaker, hMaker,
      MathInt.lt, MathInt.gt, Result.bind_eq_ok, Except.ok.injEq, exists_eq_left',
      Result.pure_eq_ok] at hOk
    simpa using hOk

/-- A price within the limit passes the filter, and a market order takes every price. -/
theorem Compatible.of_within {taker : Order} {e : Orderbook} {price : Int}
    (hMarket : e.marketId = taker.marketId) (hSide : e.side = Keeper.targetSide taker.side)
    (hMaker : k.sdk.newIntFromString e.price = some price)
    (hType : taker.orderType ≠ "LIMIT" ∨ ∃ limit,
      k.sdk.newIntFromString taker.price = some limit ∧ WithinLimit taker.side limit price) :
    Compatible k taker e := by
  refine ⟨hMarket, hSide, ?_⟩
  unfold Keeper.priceCompatible
  rcases hType with hType | ⟨limit, hTaker, hBuy, hSell⟩
  · rw [if_neg hType]
    rfl
  simp only [hTaker, hMaker, MathInt.lt, MathInt.gt]
  split
  · split
    next hIs => simpa using hBuy hIs
    next =>
      split
      next hIs => simpa using hSell hIs
      next => rfl
  · rfl

/-- The candidates are the compatible entries. -/
theorem mem_fetchCandidates {taker : Order} {kvs : List (String × Orderbook)}
    {cs : List Orderbook} (h : k.fetchCandidates taker kvs = .ok cs) {e : Orderbook} :
    e ∈ cs ↔ e ∈ kvs.map Prod.snd ∧ Compatible k taker e := by
  induction kvs generalizing cs with
  | nil =>
    obtain rfl := Result.pure_eq_ok.mp h
    simp
  | cons kv rest ih =>
    obtain ⟨kk, val⟩ := kv
    rw [Keeper.fetchCandidates] at h
    rw [List.map_cons, List.mem_cons]
    split at h
    next hTarget =>
      simp only [Result.bind_eq_ok, Result.pure_eq_ok] at h
      obtain ⟨fits, hFits, cs', hRest, rfl⟩ := h
      cases fits with
      | true =>
        have hVal : Compatible k taker val := ⟨hTarget.1, hTarget.2, hFits⟩
        rw [if_pos rfl, List.mem_cons, ih hRest]
        constructor
        · rintro (rfl | ⟨hMem, hComp⟩)
          · exact ⟨.inl rfl, hVal⟩
          · exact ⟨.inr hMem, hComp⟩
        · rintro ⟨rfl | hMem, hComp⟩
          · exact .inl rfl
          · exact .inr ⟨hMem, hComp⟩
      | false =>
        rw [if_neg Bool.false_ne_true, ih hRest]
        constructor
        · intro h
          exact ⟨.inr h.1, h.2⟩
        · rintro ⟨rfl | hMem, hComp⟩
          · have hPrice := hComp.price
            rw [hFits] at hPrice
            cases hPrice
          · exact ⟨hMem, hComp⟩
    next hTarget =>
      rw [ih h]
      constructor
      · intro h
        exact ⟨.inr h.1, h.2⟩
      · rintro ⟨rfl | hMem, hComp⟩
        · exact absurd ⟨hComp.market, hComp.side⟩ hTarget
        · exact ⟨hMem, hComp⟩

/-- The candidates are listed as the store lists them. -/
theorem fetchCandidates_sublist {taker : Order} {kvs : List (String × Orderbook)}
    {cs : List Orderbook} (h : k.fetchCandidates taker kvs = .ok cs) :
    cs.Sublist (kvs.map Prod.snd) := by
  induction kvs generalizing cs with
  | nil =>
    obtain rfl := Result.pure_eq_ok.mp h
    exact .slnil
  | cons kv rest ih =>
    rw [Keeper.fetchCandidates] at h
    split at h
    next =>
      simp only [Result.bind_eq_ok, Result.pure_eq_ok] at h
      obtain ⟨fits, -, cs', hRest, rfl⟩ := h
      cases fits with
      | true => exact (ih hRest).cons_cons _
      | false => exact (ih hRest).cons _
    next => exact (ih h).cons _

/-- The filter looks at the entries of the taker's market only. -/
theorem fetchCandidates_filter (taker : Order) (kvs : List (String × Orderbook)) :
    k.fetchCandidates taker kvs =
      k.fetchCandidates taker (kvs.filter fun kv => kv.2.marketId = taker.marketId) := by
  induction kvs with
  | nil => rfl
  | cons kv rest ih =>
    by_cases hMarket : kv.2.marketId = taker.marketId
    · rw [List.filter_cons_of_pos (by simpa using hMarket), Keeper.fetchCandidates,
        Keeper.fetchCandidates, ih]
    · rw [List.filter_cons_of_neg (by simpa using hMarket), Keeper.fetchCandidates,
        if_neg fun hTarget => hMarket hTarget.1, ih]

/-- Sorting only rearranges. -/
theorem sortCandidates_perm {ties : SortSlice} {target : String} {cs cs' : List Orderbook}
    (h : k.sortCandidates ties target cs = .ok cs') : cs'.Perm cs := by
  simp only [Keeper.sortCandidates, Result.bind_eq_ok, Result.pure_eq_ok] at h
  obtain ⟨-, -, rfl⟩ := h
  exact (List.perm_insertionSort _ _).trans (ties.perm cs)

/-- After the sort no candidate is better than one before it. -/
theorem sortCandidates_pairwise {ties : SortSlice} {target : String} {cs cs' : List Orderbook}
    (h : k.sortCandidates ties target cs = .ok cs') : cs'.Pairwise (k.Ranked target) := by
  simp only [Keeper.sortCandidates, Result.bind_eq_ok, Result.pure_eq_ok] at h
  obtain ⟨-, -, rfl⟩ := h
  have : Std.Total (k.Ranked target) := ⟨by
    intro a b
    unfold Keeper.Ranked
    split <;> omega⟩
  have : IsTrans Orderbook (k.Ranked target) := ⟨by
    intro a b c
    unfold Keeper.Ranked
    split <;> omega⟩
  exact List.pairwise_insertionSort _ _

-- ---------------------------------------------------------------------------
-- One fill
-- ---------------------------------------------------------------------------

/-- The maker's record after a fill of `q` out of its remaining `r`. -/
def makerAfter (maker : Order) (r q : Int) : Order :=
  { maker with
    remaining := toString (r - q)
    status := if r - q = 0 then "FILLED" else maker.status }

@[simp] theorem makerAfter_price (maker : Order) (r q : Int) :
    (makerAfter maker r q).price = maker.price := rfl

@[simp] theorem makerAfter_remaining (maker : Order) (r q : Int) :
    (makerAfter maker r q).remaining = toString (r - q) := rfl

/-- What one pass through the execution loop does, when the maker's record is
`maker`, with `r` remaining at price `p`, and `q` is what the two can trade. -/
structure Filled (k : Keeper) (taker : Order) (takerId : String) (market : Market)
    (entry : Orderbook) (rem : Int) (s : State) (maker : Order) (r p q left : Int)
    (s' : State) : Prop where
  maker_eq : maker = s.order[entry.orderId]?.getD default
  remaining : k.sdk.newIntFromString maker.remaining = some r
  price : k.sdk.newIntFromString maker.price = some p
  qty : q = min rem r
  qty_nonneg : 0 ≤ q
  quote_nonneg : 0 ≤ q * p
  left_eq : left = rem - q
  held : ∀ d, s'.bank.held d =
    s.bank.held d - paid market.baseDenom q d - paid market.quoteDenom (q * p) d
  order : s'.order = s.order.insert entry.orderId (makerAfter maker r q)
  orderbook : s'.orderbook = if r - q = 0 then s.orderbook.erase entry.key else s.orderbook
  fills : s'.fills = s.fills ++ [⟨takerId, entry.orderId, taker, maker, market, q, p⟩]
  sent : s.bank.sendAll (Fill.transfers k ⟨takerId, entry.orderId, taker, maker, market, q, p⟩) =
    .ok s'.bank
  params : s'.params = s.params
  markets : s'.market = s.market

/-- A fill that succeeds does what `Filled` says. -/
theorem fillEntry_eq_ok {taker : Order} {takerId : String} {market : Market}
    {entry : Orderbook} {rem left : Int} {s s' : State}
    (h : k.fillEntry taker takerId market entry rem s = .ok (left, s')) :
    ∃ maker r p q, Filled k taker takerId market entry rem s maker r p q left s' := by
  simp only [Keeper.fillEntry, MathInt.minInt, MathInt.mul, MathInt.sub, Result.bind_eq_ok,
    Result.pure_eq_ok, MathInt.deref_eq_ok, MathInt.checked_eq_ok, Option.some.injEq,
    exists_eq_left', Prod.mk.injEq] at h
  obtain ⟨q, ⟨r, hRemaining, hMin⟩, -, ⟨p, hPrice, -, rfl⟩, bank, hSettle, -,
    ⟨r', hRemaining', -, rfl⟩, -, ⟨-, rfl⟩, hLeft, rfl⟩ := h
  obtain rfl : r = r' := Option.some.inj (hRemaining ▸ hRemaining')
  obtain ⟨hq, hQuote, hHeld⟩ := settleAssets_eq_ok hSettle
  exact ⟨_, r, p, q, {
    maker_eq := rfl
    remaining := hRemaining
    price := hPrice
    qty := hMin.symm
    qty_nonneg := hq
    quote_nonneg := hQuote
    left_eq := hLeft.symm
    held := hHeld
    order := rfl
    orderbook := rfl
    fills := by rw [hPrice]; rfl
    sent := settleAssets_sent hSettle
    params := rfl
    markets := rfl }⟩

section Filled

variable {taker : Order} {takerId : String} {market : Market} {entry : Orderbook}
variable {rem left r p q : Int} {s s' : State} {maker : Order}

/-- A fill uses up the maker or the taker. -/
theorem Filled.maker_or_taker
    (h : Filled k taker takerId market entry rem s maker r p q left s') :
    r - q = 0 ∨ left = 0 := by
  have := h.qty
  have := h.left_eq
  omega

/-- The maker's record is stored: the zero record has no remaining quantity
that parses. -/
theorem Filled.maker_stored (hLaw : k.sdk.Lawful)
    (h : Filled k taker takerId market entry rem s maker r p q left s') :
    s.order[entry.orderId]? = some maker := by
  have hMaker := h.maker_eq
  cases hOrder : s.order[entry.orderId]? with
  | some o => rw [hMaker, hOrder, Option.getD_some]
  | none =>
    rw [hOrder, Option.getD_none] at hMaker
    have hRemaining := h.remaining
    rw [hMaker, show (default : Order).remaining = "" from rfl, hLaw.newInt_empty] at hRemaining
    cases hRemaining

/-- After the fill the maker's record says what is left of it. -/
theorem Filled.stored_after
    (h : Filled k taker takerId market entry rem s maker r p q left s') :
    s'.order[entry.orderId]? = some (makerAfter maker r q) := by
  rw [h.order, Std.ExtTreeMap.getElem?_insert_self]

/-- A fill leaves the orders of the other entries alone. -/
theorem Filled.stored_other
    (h : Filled k taker takerId market entry rem s maker r p q left s') {id : String}
    (hId : id ≠ entry.orderId) : s'.order[id]? = s.order[id]? := by
  rw [h.order, Store.get?_insert_ne hId]

/-- An order keeps its price: it is the maker or was stored as it is. -/
theorem Filled.price_or_stored
    (h : Filled k taker takerId market entry rem s maker r p q left s') {id : String} {o : Order}
    (ho : s'.order[id]? = some o) : k.value o.price = p ∨ s.order[id]? = some o := by
  rw [h.order, Store.get?_insert] at ho
  split at ho
  · rw [← Option.some.inj ho, makerAfter_price]
    exact .inl (Keeper.value_eq h.price)
  · exact .inr ho

/-- A fill stores no new order and removes none. -/
theorem Filled.mem_order (hLaw : k.sdk.Lawful)
    (h : Filled k taker takerId market entry rem s maker r p q left s') {id : String} :
    id ∈ s'.order ↔ id ∈ s.order := by
  rw [h.order, Store.mem_insert]
  constructor
  · rintro (rfl | hMem)
    · exact Store.mem_iff.mpr ⟨maker, h.maker_stored hLaw⟩
    · exact hMem
  · exact .inr

/-- A fill adds no entry to the book. -/
theorem Filled.book_subset
    (h : Filled k taker takerId market entry rem s maker r p q left s') {kk : String}
    {e : Orderbook} (he : s'.orderbook[kk]? = some e) : s.orderbook[kk]? = some e := by
  rw [h.orderbook] at he
  split at he
  · exact (Store.get?_of_erase he).2
  · exact he

/-- A taker that is not used up took the entry off the book. -/
theorem Filled.entry_removed
    (h : Filled k taker takerId market entry rem s maker r p q left s') (hLeft : left ≠ 0) :
    s'.orderbook[entry.key]? = none := by
  have hMaker : r - q = 0 := h.maker_or_taker.resolve_right hLeft
  rw [h.orderbook, if_pos hMaker, Std.ExtTreeMap.getElem?_erase_self]

end Filled

-- ---------------------------------------------------------------------------
-- The loop
-- ---------------------------------------------------------------------------

/-- The invariant speaks of the candidates still to come. The loop is left
with none of them, or with the taker filled. -/
theorem executeLoop_induction {taker : Order} {takerId : String} {market : Market}
    {I : List Orderbook → Int → State → Prop}
    (hFill : ∀ {entry rest rem s maker r p q left s'}, rem ≠ 0 →
      Filled k taker takerId market entry rem s maker r p q left s' →
      I (entry :: rest) rem s → I rest left s')
    {cs : List Orderbook} {rem left : Int} {s s' : State}
    (h : k.executeLoop taker takerId market cs rem s = .ok (left, s')) (hI : I cs rem s) :
    ∃ rest, I rest left s' ∧ (left = 0 ∨ rest = []) := by
  induction cs generalizing rem s with
  | nil =>
    obtain ⟨rfl, rfl⟩ := Prod.mk.inj (Result.pure_eq_ok.mp h)
    exact ⟨[], hI, .inr rfl⟩
  | cons entry rest ih =>
    rw [Keeper.executeLoop] at h
    split at h
    next hRem =>
      obtain ⟨rfl, rfl⟩ := Prod.mk.inj (Result.pure_eq_ok.mp h)
      exact ⟨entry :: rest, hI, .inl hRem⟩
    next hRem =>
      obtain ⟨⟨left₁, s₁⟩, hEntry, hRest⟩ := Result.bind_eq_ok.mp h
      obtain ⟨maker, r, p, q, hFilled⟩ := fillEntry_eq_ok hEntry
      exact ih hRest (hFill hRem hFilled hI)

/-- Two runs of the loop over the same candidates, fill by fill: `R` relates the states
in which they fill an entry, and says that they have the same quantity left. -/
theorem executeLoop_lockstep {taker : Order} {takerId : String} {market : Market}
    {R : List Orderbook → Int → State → State → Prop}
    (hFill : ∀ {entry rest rem s t maker r p q left s' maker' r' p' q' left' t'}, rem ≠ 0 →
      Filled k taker takerId market entry rem s maker r p q left s' →
      Filled k taker takerId market entry rem t maker' r' p' q' left' t' →
      R (entry :: rest) rem s t → left' = left ∧ R rest left s' t')
    {cs : List Orderbook} {rem left left' : Int} {s t s' t' : State}
    (hs : k.executeLoop taker takerId market cs rem s = .ok (left, s'))
    (ht : k.executeLoop taker takerId market cs rem t = .ok (left', t')) (hR : R cs rem s t) :
    left' = left ∧ ∃ rest, R rest left s' t' := by
  induction cs generalizing rem s t with
  | nil =>
    obtain ⟨rfl, rfl⟩ := Prod.mk.inj (Result.pure_eq_ok.mp hs)
    obtain ⟨rfl, rfl⟩ := Prod.mk.inj (Result.pure_eq_ok.mp ht)
    exact ⟨rfl, [], hR⟩
  | cons entry rest ih =>
    rw [Keeper.executeLoop] at hs ht
    split at hs
    next hRem =>
      rw [if_pos hRem] at ht
      obtain ⟨rfl, rfl⟩ := Prod.mk.inj (Result.pure_eq_ok.mp hs)
      obtain ⟨rfl, rfl⟩ := Prod.mk.inj (Result.pure_eq_ok.mp ht)
      exact ⟨rfl, entry :: rest, hR⟩
    next hRem =>
      rw [if_neg hRem] at ht
      obtain ⟨⟨left₁, s₁⟩, hEntry, hRest⟩ := Result.bind_eq_ok.mp hs
      obtain ⟨⟨left₂, t₁⟩, hEntry', hRest'⟩ := Result.bind_eq_ok.mp ht
      obtain ⟨_, _, _, _, hFilled⟩ := fillEntry_eq_ok hEntry
      obtain ⟨_, _, _, _, hFilled'⟩ := fillEntry_eq_ok hEntry'
      obtain ⟨rfl, hNext⟩ := hFill hRem hFilled hFilled' hR
      exact ih hRest hRest' hNext

-- ---------------------------------------------------------------------------
-- The end of a taker
-- ---------------------------------------------------------------------------

/-- The taker's record with what remains of it and its final status. -/
def takerAfter (taker : Order) (left : Int) (status : String) : Order :=
  { taker with remaining := toString left, status := status }

/-- The book entry of an order at rest. -/
def restingEntry (taker : Order) (takerId : String) : Orderbook :=
  { (default : Orderbook) with
    marketId := taker.marketId
    side := taker.side
    price := taker.price
    orderId := takerId }

/-- How a taker ends, with `left` of it unfilled. -/
inductive Finalized (k : Keeper) (taker : Order) (takerId : String) (market : Market)
    (left : Int) (s : State) : State → Prop
  | filled (h : left = 0) : Finalized k taker takerId market left s
      { s with order := s.order.insert takerId (takerAfter taker left "FILLED") }
  | cancelled (h : left ≠ 0) (hMarket : taker.orderType = "MARKET") (bank : Bank)
      (hRefund : k.handleRefund s.bank ((k.sdk.accAddressFromBech32 taker.creator).getD [])
        left taker.side market = .ok bank) : Finalized k taker takerId market left s
      { s with
        bank := bank
        order := s.order.insert takerId (takerAfter taker left "CANCELLED_PARTIAL") }
  | resting (h : left ≠ 0) (hLimit : taker.orderType ≠ "MARKET") :
      Finalized k taker takerId market left s
      { s with
        orderbook := s.orderbook.insert (restingEntry taker takerId).key
          (restingEntry taker takerId)
        order := s.order.insert takerId (takerAfter taker left "PARTIAL") }

/-- Closing the matching does what `Finalized` says. -/
theorem finalizeTaker_eq_ok {taker : Order} {takerId : String} {market : Market} {left : Int}
    {s s' : State} (h : k.finalizeTaker taker takerId market left s = .ok s') :
    Finalized k taker takerId market left s s' := by
  unfold Keeper.finalizeTaker at h
  split at h
  next h0 =>
    obtain rfl := Result.pure_eq_ok.mp h
    exact .filled h0
  next h0 =>
    dsimp only at h
    split at h
    next hMarket =>
      obtain ⟨bank, hRefund, hRet⟩ := Result.bind_eq_ok.mp h
      obtain rfl := Result.pure_eq_ok.mp hRet
      exact .cancelled h0 hMarket bank hRefund
    next hLimit =>
      obtain rfl := Result.pure_eq_ok.mp h
      exact .resting h0 hLimit

/-- The taker's record is the only one that is written. -/
theorem Finalized.order_eq {taker : Order} {takerId : String} {market : Market} {left : Int}
    {s s' : State} (h : Finalized k taker takerId market left s s') :
    ∃ status, s'.order = s.order.insert takerId (takerAfter taker left status) := by
  cases h with
  | filled => exact ⟨_, rfl⟩
  | cancelled => exact ⟨_, rfl⟩
  | resting => exact ⟨_, rfl⟩

/-- The end of a taker adds at most its own entry to the book. -/
theorem Finalized.book_cases {taker : Order} {takerId : String} {market : Market} {left : Int}
    {s s' : State} (h : Finalized k taker takerId market left s s') {kk : String} {e : Orderbook}
    (he : s'.orderbook[kk]? = some e) :
    s.orderbook[kk]? = some e ∨ (e = restingEntry taker takerId ∧ kk = e.key) := by
  cases h with
  | filled => exact .inl he
  | cancelled => exact .inl he
  | resting =>
    rw [Store.get?_insert] at he
    split at he
    next hKey => exact .inr ⟨(Option.some.inj he).symm, by rw [hKey, Option.some.inj he]⟩
    next => exact .inl he

/-- The end of a taker touches no key but its own. -/
theorem Finalized.get?_book {taker : Order} {takerId : String} {market : Market} {left : Int}
    {s s' : State} (h : Finalized k taker takerId market left s s') {kk : String}
    (hKey : kk ≠ (restingEntry taker takerId).key) : s'.orderbook[kk]? = s.orderbook[kk]? := by
  cases h with
  | filled => rfl
  | cancelled => rfl
  | resting => exact Store.get?_insert_ne hKey

/-- Closing the matching writes neither markets nor fills. -/
theorem Finalized.frame {taker : Order} {takerId : String} {market : Market} {left : Int}
    {s s' : State} (h : Finalized k taker takerId market left s s') :
    s'.market = s.market ∧ s'.fills = s.fills := by
  cases h <;> exact ⟨rfl, rfl⟩

/-- A successful `MatchOrders`, with the slices it works on. -/
theorem matchOrders_stages {ctx : Context} {s s' : State} {taker : Order} {takerId : String}
    {market : Market} (h : k.matchOrders ctx s taker takerId market = .ok s') :
    ∃ fetched cs rem left s₁,
      k.fetchCandidates taker s.orderbook.toList = .ok fetched ∧
      k.sortCandidates ctx.ties (Keeper.targetSide taker.side) fetched = .ok cs ∧
      k.sdk.newIntFromString taker.remaining = some rem ∧
      k.executeLoop taker takerId market cs rem s = .ok (left, s₁) ∧
      Finalized k taker takerId market left s₁ s' := by
  simp only [Keeper.matchOrders, Result.bind_eq_ok, MathInt.deref_eq_ok] at h
  obtain ⟨fetched, hFetch, cs, hSort, rem, hRem, ⟨left, s₁⟩, hLoop, hEnd⟩ := h
  exact ⟨fetched, cs, rem, left, s₁, hFetch, hSort, hRem, hLoop, finalizeTaker_eq_ok hEnd⟩

/-- What the sorted candidates have to do with the book. -/
theorem sorted_candidates {taker : Order} {kvs : List (String × Orderbook)}
    {fetched cs : List Orderbook} {ties : SortSlice}
    (hFetch : k.fetchCandidates taker kvs = .ok fetched)
    (hSort : k.sortCandidates ties (Keeper.targetSide taker.side) fetched = .ok cs) :
    (∀ e, e ∈ cs ↔ e ∈ kvs.map Prod.snd ∧ Compatible k taker e) ∧
      ∃ fetched, cs.Perm fetched ∧ fetched.Sublist (kvs.map Prod.snd) := by
  have hPerm := sortCandidates_perm hSort
  refine ⟨?_, fetched, hPerm, fetchCandidates_sublist hFetch⟩
  intro e
  rw [hPerm.mem_iff, mem_fetchCandidates hFetch]

/-- A successful `MatchOrders`, stage by stage. -/
theorem matchOrders_eq_ok {ctx : Context} {s s' : State} {taker : Order} {takerId : String}
    {market : Market} (h : k.matchOrders ctx s taker takerId market = .ok s') :
    ∃ cs rem left s₁,
      (∀ e, e ∈ cs ↔ e ∈ s.orderbook.toList.map Prod.snd ∧ Compatible k taker e) ∧
      (∃ fetched, cs.Perm fetched ∧ fetched.Sublist (s.orderbook.toList.map Prod.snd)) ∧
      k.sdk.newIntFromString taker.remaining = some rem ∧
      k.executeLoop taker takerId market cs rem s = .ok (left, s₁) ∧
      Finalized k taker takerId market left s₁ s' := by
  obtain ⟨fetched, cs, rem, left, s₁, hFetch, hSort, hRem, hLoop, hEnd⟩ := matchOrders_stages h
  obtain ⟨hMem, hSub⟩ := sorted_candidates hFetch hSort
  exact ⟨cs, rem, left, s₁, hMem, hSub, hRem, hLoop, hEnd⟩

/-- A match leaves the markets and the parameters alone. -/
theorem matchOrders_frame {ctx : Context} {s s' : State} {taker : Order} {takerId : String}
    {market : Market} (h : k.matchOrders ctx s taker takerId market = .ok s') :
    s'.market = s.market ∧ s'.params = s.params := by
  obtain ⟨cs, rem, left, s₁, -, -, -, hLoop, hEnd⟩ := matchOrders_eq_ok h
  obtain ⟨_, ⟨hMarket, hParams⟩, -⟩ := executeLoop_induction
    (I := fun _ _ s₁ => s₁.market = s.market ∧ s₁.params = s.params)
    (fun _ hFilled hI => ⟨hFilled.markets.trans hI.1, hFilled.params.trans hI.2⟩) hLoop ⟨rfl, rfl⟩
  rw [← hMarket, ← hParams]
  cases hEnd <;> exact ⟨rfl, rfl⟩

/-- The terms of an order that no fill changes. -/
def Order.SameTerms (o' o : Order) : Prop :=
  o'.marketId = o.marketId ∧ o'.side = o.side ∧ o'.price = o.price ∧ o'.creator = o.creator

theorem Order.SameTerms.refl (o : Order) : o.SameTerms o := ⟨rfl, rfl, rfl, rfl⟩

theorem Order.SameTerms.trans {a b c : Order} (hab : a.SameTerms b) (hbc : b.SameTerms c) :
    a.SameTerms c :=
  ⟨hab.1.trans hbc.1, hab.2.1.trans hbc.2.1, hab.2.2.1.trans hbc.2.2.1,
    hab.2.2.2.trans hbc.2.2.2⟩

/-- A fill changes the terms of no order. -/
theorem Filled.terms (hLaw : k.sdk.Lawful) {taker : Order} {takerId : String} {market : Market}
    {entry : Orderbook} {rem left r p q : Int} {s s' : State} {maker : Order}
    (h : Filled k taker takerId market entry rem s maker r p q left s') {id : String} {o' : Order}
    (ho : s'.order[id]? = some o') : ∃ o, s.order[id]? = some o ∧ o'.SameTerms o := by
  rw [h.order, Store.get?_insert] at ho
  split at ho
  next hId =>
    obtain rfl := Option.some.inj ho
    exact ⟨maker, hId ▸ h.maker_stored hLaw, rfl, rfl, rfl, rfl⟩
  next => exact ⟨o', ho, .refl o'⟩

/-- A fill of the match of `taker` in state `s`: with an order of an entry that passed
the filter, at the price of the order's record. -/
structure Executed (k : Keeper) (s : State) (taker : Order) (takerId : String)
    (market : Market) (f : Fill) : Prop where
  takerId_eq : f.takerId = takerId
  taker_eq : f.taker = taker
  market_eq : f.market = market
  entry : ∃ (kk : String) (e : Orderbook) (o : Order), s.orderbook[kk]? = some e ∧
    Compatible k taker e ∧ f.makerId = e.orderId ∧ s.order[e.orderId]? = some o ∧
    f.maker.SameTerms o ∧ k.sdk.newIntFromString o.price = some f.price

/-- What `MatchOrders` sends to refund the taker. -/
def RefundOf (k : Keeper) (taker : Order) (market : Market) (sends : List Transfer) : Prop :=
  sends = [] ∨ taker.orderType = "MARKET" ∧
    ∃ n, sends = [release (k.addressOf taker.creator) market.baseDenom n]

/-- The coins of the fills are sent first, and then the refund. -/
theorem Finalized.sent {taker : Order} {takerId : String} {market : Market} {left : Int}
    {s s' : State} {bank : Bank} {ts : List Transfer}
    (h : Finalized k taker takerId market left s s') (hFills : bank.sendAll ts = .ok s.bank) :
    ∃ refund, RefundOf k taker market refund ∧ bank.sendAll (ts ++ refund) = .ok s'.bank := by
  have hNone : bank.sendAll (ts ++ []) = .ok s.bank := by rw [List.append_nil, hFills]
  cases h with
  | filled => exact ⟨[], .inl rfl, hNone⟩
  | resting => exact ⟨[], .inl rfl, hNone⟩
  | cancelled hLeft hMarket bank' hRefund =>
    rcases handleRefund_sent hRefund with rfl | hSent
    · exact ⟨[], .inl rfl, hNone⟩
    · exact ⟨_, .inr ⟨hMarket, left, rfl⟩, Bank.sendAll_append_eq_ok.mpr ⟨_, hFills, hSent⟩⟩

/-- Inside the execution loop of a match that began in `s₀`. -/
structure Executing (k : Keeper) (s₀ : State) (taker : Order) (takerId : String)
    (market : Market) (rest : List Orderbook) (s : State) (new : List Fill) : Prop where
  candidate : ∀ e ∈ rest, (∃ kk : String, s₀.orderbook[kk]? = some e) ∧ Compatible k taker e
  terms : ∀ (id : String) (o : Order), s.order[id]? = some o →
    ∃ o₀, s₀.order[id]? = some o₀ ∧ o.SameTerms o₀
  fills : s.fills = s₀.fills ++ new
  executed : ∀ f ∈ new, Executed k s₀ taker takerId market f
  sent : s₀.bank.sendAll (new.flatMap (Fill.transfers k)) = .ok s.bank

/-- One more fill keeps what the loop has done so far. -/
theorem Executing.next (hLaw : k.sdk.Lawful) {s₀ : State} {taker : Order} {takerId : String}
    {market : Market} {entry : Orderbook} {rest : List Orderbook} {rem left r p q : Int}
    {s s' : State} {maker : Order} {new : List Fill}
    (h : Executing k s₀ taker takerId market (entry :: rest) s new)
    (hFilled : Filled k taker takerId market entry rem s maker r p q left s') :
    Executing k s₀ taker takerId market rest s'
      (new ++ [⟨takerId, entry.orderId, taker, maker, market, q, p⟩]) := by
  obtain ⟨⟨kk, hEntry⟩, hComp⟩ := h.candidate entry (List.mem_cons_self ..)
  obtain ⟨o₀, hStored, hTerms⟩ := h.terms _ _ (hFilled.maker_stored hLaw)
  refine ⟨fun e he => h.candidate e (List.mem_cons_of_mem _ he), ?_, ?_, ?_, ?_⟩
  · intro id o ho
    obtain ⟨o₁, ho₁, hTerms₁⟩ := hFilled.terms hLaw ho
    obtain ⟨o₂, ho₂, hTerms₂⟩ := h.terms id o₁ ho₁
    exact ⟨o₂, ho₂, hTerms₁.trans hTerms₂⟩
  · rw [hFilled.fills, h.fills, List.append_assoc]
  · intro f hf
    rcases List.mem_append.mp hf with hf | hf
    · exact h.executed f hf
    · obtain rfl := List.mem_singleton.mp hf
      refine ⟨rfl, rfl, rfl, kk, entry, o₀, hEntry, hComp, rfl, hStored, hTerms, ?_⟩
      rw [← hTerms.2.2.1]
      exact hFilled.price
  · rw [List.flatMap_append, Bank.sendAll_append_eq_ok]
    refine ⟨s.bank, h.sent, ?_⟩
    rw [List.flatMap_singleton]
    exact hFilled.sent

/-- **The fills of a match**, and the sends they and the refund consist of. -/
theorem matchOrders_fills (hLaw : k.sdk.Lawful) {ctx : Context} {s s' : State} {taker : Order}
    {takerId : String} {market : Market}
    (h : k.matchOrders ctx s taker takerId market = .ok s') :
    ∃ new refund, s'.fills = s.fills ++ new ∧
      (∀ f ∈ new, Executed k s taker takerId market f) ∧ RefundOf k taker market refund ∧
      s.bank.sendAll (new.flatMap (Fill.transfers k) ++ refund) = .ok s'.bank := by
  obtain ⟨cs, rem, left, s₁, hMem, -, -, hLoop, hEnd⟩ := matchOrders_eq_ok h
  have hStart : Executing k s taker takerId market cs s [] := by
    refine ⟨?_, fun id o ho => ⟨o, ho, .refl o⟩, by simp, by simp, rfl⟩
    intro e he
    obtain ⟨hIn, hComp⟩ := (hMem e).mp he
    obtain ⟨⟨kk, _⟩, hkv, rfl⟩ := List.mem_map.mp hIn
    exact ⟨⟨kk, Store.mem_toList.mp hkv⟩, hComp⟩
  obtain ⟨rest, ⟨new, hDone⟩, -⟩ := executeLoop_induction
    (I := fun rest _ s₁ => ∃ new, Executing k s taker takerId market rest s₁ new)
    (fun _ hFilled ⟨_, hI⟩ => ⟨_, hI.next hLaw hFilled⟩) hLoop ⟨[], hStart⟩
  obtain ⟨refund, hRefund, hSent⟩ := hEnd.sent hDone.sent
  exact ⟨new, refund, hEnd.frame.2.trans hDone.fills, hDone.executed, hRefund, hSent⟩

/-- A match changes the terms of no order but the one under its own id. -/
theorem matchOrders_terms (hLaw : k.sdk.Lawful) {ctx : Context} {s s' : State}
    {taker : Order} {takerId : String} {market : Market}
    (h : k.matchOrders ctx s taker takerId market = .ok s') {id : String} {o : Order}
    (ho : s'.order[id]? = some o) :
    (id = takerId ∧ o.SameTerms taker) ∨
      (id ≠ takerId ∧ ∃ o₀, s.order[id]? = some o₀ ∧ o.SameTerms o₀) := by
  obtain ⟨cs, rem, left, s₁, -, -, -, hLoop, hEnd⟩ := matchOrders_eq_ok h
  obtain ⟨_, hTerms, -⟩ := executeLoop_induction
    (I := fun _ _ s₁ => ∀ (id : String) (o : Order), s₁.order[id]? = some o →
      ∃ o₀, s.order[id]? = some o₀ ∧ o.SameTerms o₀)
    (fun _ hFilled hI id o ho => by
      obtain ⟨o₁, ho₁, hTerms₁⟩ := hFilled.terms hLaw ho
      obtain ⟨o₂, ho₂, hTerms₂⟩ := hI id o₁ ho₁
      exact ⟨o₂, ho₂, hTerms₁.trans hTerms₂⟩) hLoop (fun _ o ho => ⟨o, ho, .refl o⟩)
  obtain ⟨status, hOrder⟩ := hEnd.order_eq
  rw [hOrder, Store.get?_insert] at ho
  split at ho
  next hId =>
    obtain rfl := Option.some.inj ho
    exact .inl ⟨hId, rfl, rfl, rfl, rfl⟩
  next hne => exact .inr ⟨hne, hTerms id o ho⟩

/-- A match adds at most the entry of its taker to the book. -/
theorem matchOrders_book_cases {ctx : Context} {s s' : State} {taker : Order} {takerId : String}
    {market : Market} (h : k.matchOrders ctx s taker takerId market = .ok s') {kk : String}
    {e : Orderbook} (he : s'.orderbook[kk]? = some e) :
    s.orderbook[kk]? = some e ∨ (e = restingEntry taker takerId ∧ kk = e.key) := by
  obtain ⟨cs, rem, left, s₁, -, -, -, hLoop, hEnd⟩ := matchOrders_eq_ok h
  obtain ⟨_, hLE, -⟩ := executeLoop_induction
    (I := fun _ _ s₁ => ∀ (kk : String) (e : Orderbook), s₁.orderbook[kk]? = some e →
      s.orderbook[kk]? = some e)
    (fun _ hFilled hI kk e he => hI kk e (hFilled.book_subset he)) hLoop (fun _ _ he => he)
  rcases hEnd.book_cases he with he | hOwn
  · exact .inl (hLE kk e he)
  · exact .inr hOwn

/-- A match stores the taker and no other new order, and removes none. -/
theorem matchOrders_mem_order (hLaw : k.sdk.Lawful) {ctx : Context} {s s' : State}
    {taker : Order} {takerId : String} {market : Market}
    (h : k.matchOrders ctx s taker takerId market = .ok s') {id : String} :
    id ∈ s'.order ↔ id = takerId ∨ id ∈ s.order := by
  obtain ⟨cs, rem, left, s₁, -, -, -, hLoop, hEnd⟩ := matchOrders_eq_ok h
  obtain ⟨_, hKeys, -⟩ := executeLoop_induction
    (I := fun _ _ s₁ => ∀ id, id ∈ s₁.order ↔ id ∈ s.order)
    (fun _ hFilled hI id => by rw [hFilled.mem_order hLaw, hI]) hLoop (fun _ => Iff.rfl)
  obtain ⟨status, hOrder⟩ := hEnd.order_eq
  rw [hOrder, Store.mem_insert, hKeys]

end Ganc.Dex
