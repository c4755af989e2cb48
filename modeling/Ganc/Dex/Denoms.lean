import Ganc.Dex.Keys
import Ganc.Dex.Placements
import Ganc.Dex.Sample
import Ganc.Dex.Solvency

/-!
# x/dex — the denoms of orders at rest

An order is escrowed in the denoms of the market record it was placed under,
and settled in those of the record that the market id has when it is filled.
Whoever writes the record of a market with orders at rest decides which denoms
these are. As long as every such write keeps the pair (`KeepsPair`), orders
settle in the denoms they were escrowed in: `settles_as_placed`.
-/

namespace Ganc.Dex

variable {k : Keeper}

-- ---------------------------------------------------------------------------
-- Writes of a market record
-- ---------------------------------------------------------------------------

/-- Two market records stand for one pair of denoms. -/
def Market.SamePair (m m' : Market) : Prop :=
  m.baseDenom = m'.baseDenom ∧ m.quoteDenom = m'.quoteDenom

instance (m m' : Market) : Decidable (m.SamePair m') :=
  inferInstanceAs (Decidable (_ ∧ _))

/-- The record has the pair under which every order in the book of the market was
placed. -/
def PairKept (h : List Placement) (s : State) (id : String) (m : Market) : Prop :=
  ∀ e ∈ s.entries, e.marketId = id → ∀ p ∈ placedAs h e.orderId, m.SamePair p.market

instance (h : List Placement) (s : State) (id : String) (m : Market) :
    Decidable (PairKept h s id m) := by
  unfold PairKept
  infer_instance

/-- The market messages that are let through keep the pair of a market whose book is
not empty; `RegisterPairs` always is. -/
def KeepsPair (h : List Placement) (s : State) : Op → Prop
  | .deliver _ (.createMarket msg) => s.market[msg.index]? = none →
      PairKept h s msg.index msg.toMarket
  | .deliver _ (.updateMarket msg) => ∀ old ∈ s.market[msg.index]?, msg.creator = old.creator →
      PairKept h s msg.index msg.toMarket
  | .deliver _ (.registerPairs msg) =>
      PairKept h s (pairId msg.baseDenom msg.quoteDenom) msg.toMarket
  | _ => True

instance (h : List Placement) (s : State) : DecidablePred (KeepsPair h s)
  | .deliver _ (.createMarket msg) => inferInstanceAs (Decidable
      (s.market[msg.index]? = none → PairKept h s msg.index msg.toMarket))
  | .deliver _ (.updateMarket msg) => inferInstanceAs (Decidable
      (∀ old ∈ s.market[msg.index]?, msg.creator = old.creator →
        PairKept h s msg.index msg.toMarket))
  | .deliver _ (.registerPairs msg) => inferInstanceAs (Decidable
      (PairKept h s (pairId msg.baseDenom msg.quoteDenom) msg.toMarket))
  | .deliver _ (.updateParams _) | .deliver _ (.deleteMarket _) | .deliver _ (.createOrder _)
  | .deliver _ (.updateOrder _) | .deliver _ (.deleteOrder _) | .deliver _ (.placeOrder _)
  | .deliver _ (.cleanOrders _) | .endBlock => inferInstanceAs (Decidable True)

-- ---------------------------------------------------------------------------
-- Entries and the records they were placed under
-- ---------------------------------------------------------------------------

/-- The entry is of the order that was placed, and the market record, if it is still
there, has the pair of the record the order was placed under. -/
structure Denominated (markets : Store String Market) (p : Placement) (e : Orderbook) :
    Prop where
  slot : ∃ height, e.orderId = p.msg.orderId height
  creator : 6 ≤ p.msg.creator.toList.length
  market : e.marketId = p.msg.marketId
  pair : ∀ m, markets[e.marketId]? = some m → m.SamePair p.market

/-- Every entry is denominated as it was placed. -/
def AsPlaced (h : List Placement) (s : State) : Prop :=
  PlacedBy (Denominated s.market) h s

variable {h : List Placement} {s s' : State}

/-- A market message that keeps the pairs of the markets with orders at rest. -/
theorem Denominated.step {op : Op} (hKeeps : KeepsPair h s op) {kk : String} {e : Orderbook}
    {p : Placement} (he : s.orderbook[kk]? = some e) (hp : placedAs h e.orderId = some p)
    (hDenom : Denominated s.market p e) : Denominated (k.step s op).market p e := by
  refine ⟨hDenom.slot, hDenom.creator, hDenom.market, ?_⟩
  intro m hm
  have hEntry : e ∈ s.entries := mem_entries.mpr ⟨kk, he⟩
  rcases market_step k s op e.marketId with hSame | hWrite
  · exact hDenom.pair m (hSame ▸ hm)
  rw [hm] at hWrite
  cases hWrite with
  | created hId hFresh => exact hKeeps (hId ▸ hFresh) e hEntry hId.symm p hp
  | updated hId hOld hOwner => exact hKeeps _ (hId ▸ hOld) hOwner e hEntry hId.symm p hp
  | registered hId => exact hKeeps e hEntry hId.symm p hp

/-- An order whose id is in the book already was placed in the same market. -/
theorem AsPlaced.placed {ctx : Context} {msg : MsgPlaceOrder} {market : Market} {quantity : Int}
    {coins : Coins} {bank : Bank} (hAsPlaced : AsPlaced h s)
    (hPlaced : Placed k ctx s msg market quantity coins bank s') :
    AsPlaced (h ++ [⟨msg.orderId ctx.height, msg, market⟩]) s' := by
  have hCurrent : ∀ m, s.market[msg.marketId]? = some m → m.SamePair market := by
    intro m hm
    obtain rfl := Option.some.inj (hm.symm.trans hPlaced.listed)
    exact ⟨rfl, rfl⟩
  unfold AsPlaced
  rw [hPlaced.frame.1]
  refine PlacedBy.placed hAsPlaced hPlaced ⟨⟨ctx.height, rfl⟩, hPlaced.creator, rfl, hCurrent⟩ ?_
  intro kk e p he hId hDenom
  obtain ⟨height, hSlot⟩ := hDenom.slot
  have hLength : (creatorHead msg.creator).toList.length =
      (creatorHead p.msg.creator).toList.length := by
    rw [creatorHead_length hPlaced.creator, creatorHead_length hDenom.creator]
  have hMarket : msg.marketId = p.msg.marketId :=
    (orderIdOf_inj hLength (hId.symm.trans hSlot)).1
  refine ⟨⟨ctx.height, hId⟩, hPlaced.creator, hDenom.market.trans hMarket.symm, ?_⟩
  rw [hDenom.market, ← hMarket]
  exact hCurrent

/-- A step that keeps the pairs keeps every entry as its order was placed. -/
theorem asPlaced_step (h : List Placement) (s : State) (op : Op) (hKeeps : KeepsPair h s op)
    (hAsPlaced : AsPlaced h s) : AsPlaced (h ++ k.placements s op) (k.step s op) := by
  rcases placements_step k s op with
    ⟨hNone, hLE⟩ | ⟨ctx, msg, market, quantity, coins, bank, rfl, hOne, hPlaced⟩
  · rw [hNone, List.append_nil]
    exact hAsPlaced.mono hLE fun kk e p he hp hDenom => hDenom.step hKeeps he hp
  · rw [hOne]
    exact hAsPlaced.placed hPlaced

/-- In every run that keeps the pairs, every entry is as its order was placed. -/
theorem asPlaced_reach {bank : Bank} {ops : List Op}
    (hRun : Run.RecordedSteps k.step k.placements KeepsPair [] (State.empty bank) ops) :
    AsPlaced (k.history bank ops) (k.reach bank ops) := by
  have hEmpty : AsPlaced [] (State.empty bank) := by
    intro kk e he
    simp [State.empty] at he
  have hRecorded := Run.exec_recorded asPlaced_step hRun hEmpty
  simpa using hRecorded

-- ---------------------------------------------------------------------------
-- Settlement
-- ---------------------------------------------------------------------------

/-- **Orders settle as they were placed.** After every run whose market messages
keep the pairs of the markets with orders at rest, the record of such a market has the
pair that its orders were placed under, and a `PlaceOrder` sends, after its own
escrow, the coins of its fills, each in the denoms its maker was placed under, and
the refund of the taker. -/
theorem settles_as_placed (hLaw : k.sdk.Lawful) {bank : Bank} {ops : List Op}
    (hRun : Run.RecordedSteps k.step k.placements KeepsPair [] (State.empty bank) ops) :
    (∀ e ∈ (k.reach bank ops).entries, ∃ p, placedAs (k.history bank ops) e.orderId = some p ∧
      p.msg.marketId = e.marketId ∧
      ∀ m, (k.reach bank ops).market[e.marketId]? = some m → m.SamePair p.market) ∧
    (∀ (ctx : Context) (msg : MsgPlaceOrder) (s' : State) (r : Response),
      k.handle ctx (k.reach bank ops) (.placeOrder msg) = .ok (s', r) →
      ∃ market coins new refund, (k.reach bank ops).market[msg.marketId]? = some market ∧
        s'.fills = (k.reach bank ops).fills ++ new ∧
        s'.bank.log = (k.reach bank ops).bank.log ++
          ⟨.user (k.addressOf msg.creator), .module, coins⟩ :: new.flatMap (Fill.transfers k) ++
          refund ∧
        RefundOf k msg.toOrder market refund ∧
        ∀ f ∈ new, ∃ p, placedAs (k.history bank ops) f.makerId = some p ∧
          f.market.SamePair p.market ∧
          f.transfers k = f.transfersIn k p.market.baseDenom p.market.quoteDenom) := by
  have hAsPlaced := asPlaced_reach hRun
  refine ⟨?_, ?_⟩
  · intro e he
    obtain ⟨kk, he⟩ := mem_entries.mp he
    obtain ⟨p, hp, hDenom⟩ := hAsPlaced kk e he
    exact ⟨p, hp, hDenom.market.symm, hDenom.pair⟩
  · intro ctx msg s' r hAccepted
    obtain ⟨-, market, quantity, coins, bank', hPlaced⟩ := placeOrder_eq_ok hAccepted
    obtain ⟨new, refund, hFills, hExecuted, hRefund, hSent⟩ :=
      matchOrders_fills hLaw hPlaced.matched
    have hEscrow := (Bank.sendCoins_eq_ok.mp hPlaced.funded).2
    have hLog := (Bank.sendAll_eq_ok hSent).1
    refine ⟨market, coins, new, refund, hPlaced.listed, hFills, ?_, hRefund, ?_⟩
    · rw [hLog]
      show bank'.log ++ _ = _
      rw [hEscrow]
      simp [Keeper.addressOf]
    · intro f hf
      obtain ⟨-, -, hMarket, kk, e, o, he, hComp, hMaker, -, -, -⟩ := hExecuted f hf
      obtain ⟨p, hp, hDenom⟩ := hAsPlaced kk e he
      have hListed : (k.reach bank ops).market[e.marketId]? = some f.market := by
        rw [hComp.market, hMarket]
        exact hPlaced.listed
      have hPair := hDenom.pair f.market hListed
      refine ⟨p, hMaker ▸ hp, hPair, ?_⟩
      rw [Fill.transfers, hPair.1, hPair.2]

namespace Sample

open Ganc.Sample

/-- The order Alice has at rest in the run `trade`. -/
def ask : Orderbook := ⟨"", "uatom-uusdt", "SELL", "4", "uatom-uusdt-2-cosmos"⟩

/-- Bob's ask brings `uatom` into the module; Alice's, in a market for another denom
that contains a dash, comes to rest. -/
def dashes : List Op :=
  [register carol "uatom" "uusdt", place 2 bob "SELL" "90" "20", register carol "uatom-x" "uusdt",
    .deliver (block 3) (.placeOrder ⟨alice, "uatom-x-uusdt", "SELL", "10", "5"⟩)]

/-- Another pair with the id of Alice's market, and an order that meets hers. -/
def swaps : List Op :=
  [register bob "uatom" "x-uusdt",
    .deliver (block 4) (.placeOrder ⟨carol, "uatom-x-uusdt", "BUY", "10", "5"⟩)]

end Sample

section Sample

open Ganc.Dex.Sample Ganc.Sample

/-- Alice's market is registered a second time, as the pair it is. -/
theorem settles_as_placed_sample : ∃ p,
    placedAs (keeper.history bank (trade ++ [register bob "uatom" "uusdt"])) ask.orderId =
      some p ∧ p.msg.marketId = "uatom-uusdt" ∧
    ∀ m, (keeper.reach bank (trade ++ [register bob "uatom" "uusdt"])).market["uatom-uusdt"]? =
      some m → m.SamePair p.market :=
  (settles_as_placed Sdk.sample_lawful (by decide +kernel)).1 ask (by decide +kernel)

/-- **The denoms are swapped.** Alice's five `uatom-x` were escrowed for `uusdt`; her
order delivers `uatom`, which are Bob's, and she is paid `x-uusdt`. -/
theorem denoms_swapped :
    (placedAs (keeper.history bank dashes) "uatom-x-uusdt-3-cosmos").map
      (fun p => (p.market.baseDenom, p.market.quoteDenom)) = some ("uatom-x", "uusdt") ∧
    ((keeper.reach bank (dashes ++ swaps)).fills.map fun f =>
      (f.makerId, f.market.baseDenom, f.market.quoteDenom)) =
        [("uatom-x-uusdt-3-cosmos", "uatom", "x-uusdt")] ∧
    (keeper.reach bank (dashes ++ swaps)).bank.log.drop 3 =
      [⟨.module, .user (keeper.addressOf carol), [⟨"uatom", 5⟩]⟩,
        ⟨.module, .user (keeper.addressOf alice), [⟨"x-uusdt", 50⟩]⟩] := by
  decide +kernel

end Sample

end Ganc.Dex
