import Ganc.Dex.MatchingSpec
import Ganc.Dex.MsgServer

/-!
# x/dex — what a step does

`step_effect` lists, operation by operation, every state a step can lead to,
with the checks that were passed; invariants are proved by cases on `Effect`
and never unfold a handler. `placeOrder_eq_ok` and `purge_induction` do the
same for the two operations that have an inside.
-/

namespace Ganc.Dex

variable {k : Keeper}

-- ---------------------------------------------------------------------------
-- PlaceOrder
-- ---------------------------------------------------------------------------

/-- The six characters of the creator that go into an order id. -/
def creatorHead (creator : String) : String := String.ofList (creator.toList.take 6)

/-- The slice of a string of at least six characters. -/
theorem creatorSlice_eq_ok {creator slice : String}
    (h : Keeper.creatorSlice creator = .ok slice) :
    6 ≤ creator.toList.length ∧ slice = creatorHead creator := by
  simp only [Keeper.creatorSlice, Result.bind_eq_ok, Result.require_eq_ok, Result.pure_eq_ok,
    exists_const] at h
  exact ⟨h.1, h.2.symm⟩

/-- The id `PlaceOrder` gives the order of a message. -/
def MsgPlaceOrder.orderId (msg : MsgPlaceOrder) (height : Nat) : String :=
  orderIdOf msg.marketId height (creatorHead msg.creator)

/-- A `PlaceOrder` that has come as far as the match: what it has read, and
what it has taken into escrow. -/
structure Admitted (k : Keeper) (s : State) (msg : MsgPlaceOrder) (market : Market)
    (quantity : Int) (coins : Coins) (bank : Bank) : Prop where
  listed : s.market[msg.marketId]? = some market
  parsed : k.sdk.newIntFromString msg.quantity = some quantity
  escrow : k.escrowCoins market msg.side msg.price quantity = .ok coins
  funded : s.bank.sendCoinsFromAccountToModule
    ((k.sdk.accAddressFromBech32 msg.creator).getD []) coins = .ok bank
  creator : 6 ≤ msg.creator.toList.length

/-- An accepted `PlaceOrder`. -/
structure Placed (k : Keeper) (ctx : Context) (s : State) (msg : MsgPlaceOrder)
    (market : Market) (quantity : Int) (coins : Coins) (bank : Bank) (s' : State) : Prop
    extends Admitted k s msg market quantity coins bank where
  matched : k.matchOrders ctx { s with bank := bank } msg.toOrder (msg.orderId ctx.height)
    market = .ok s'

/-- An order that is accepted does what `Placed` says, and the response names its id. -/
theorem placeOrder_eq_ok {ctx : Context} {s s' : State} {msg : MsgPlaceOrder} {r : Response}
    (h : k.placeOrder ctx s msg = .ok (s', r)) :
    r = .placeOrder (msg.orderId ctx.height) ∧
      ∃ market quantity coins bank, Placed k ctx s msg market quantity coins bank s' := by
  simp only [Keeper.placeOrder, Result.bind_eq_ok, Result.ofOption_eq_ok,
    Result.pure_eq_ok, Prod.mk.injEq] at h
  obtain ⟨market, hMarket, quantity, hQuantity, coins, hEscrow, bank, hBank, slice, hSlice,
    s₁, hMatch, rfl, rfl⟩ := h
  obtain ⟨hLength, rfl⟩ := creatorSlice_eq_ok hSlice
  exact ⟨rfl, market, quantity, coins, bank,
    ⟨hMarket, hQuantity, hEscrow, hBank, hLength⟩, hMatch⟩

/-- The other direction: an order that passes every check is accepted. -/
theorem Placed.accepted {ctx : Context} {s s' : State} {msg : MsgPlaceOrder} {market : Market}
    {quantity : Int} {coins : Coins} {bank : Bank}
    (h : Placed k ctx s msg market quantity coins bank s') :
    k.placeOrder ctx s msg = .ok (s', .placeOrder (msg.orderId ctx.height)) := by
  have hSlice : Keeper.creatorSlice msg.creator = .ok (creatorHead msg.creator) :=
    Result.bind_eq_ok.mpr ⟨(), Result.require_eq_ok.mpr h.creator, rfl⟩
  simp only [Keeper.placeOrder, Result.bind_eq_ok, Result.ofOption_eq_ok, Result.pure_eq_ok]
  exact ⟨market, h.listed, quantity, h.parsed, coins, h.escrow, bank, h.funded, _, hSlice, s',
    h.matched, rfl⟩

/-- What `PlaceOrder` takes from the creator of an order. -/
def escrowed (k : Keeper) (market : Market) (side price : String) (quantity : Int)
    (d : String) : Int :=
  if side = "BUY" then
    if orderTypeOf price = "MARKET" then
      paid market.quoteDenom ((k.sdk.newIntFromString price).getD 0) d
    else
      paid market.quoteDenom ((k.sdk.newIntFromString price).getD 0 * quantity) d
  else
    paid market.baseDenom quantity d

/-- Placing an order writes neither markets nor parameters. -/
theorem Placed.frame {ctx : Context} {s s' : State} {msg : MsgPlaceOrder} {market : Market}
    {quantity : Int} {coins : Coins} {bank : Bank}
    (h : Placed k ctx s msg market quantity coins bank s') :
    s'.market = s.market ∧ s'.params = s.params := by
  have hFrame := matchOrders_frame h.matched
  exact hFrame

theorem amountOf_newCoin {denom : String} {amount : Int} {coin : Coin}
    (h : k.sdk.newCoin denom (some amount) = .ok coin) :
    0 ≤ amount ∧ ∀ d, (Bank.amountOf (newCoins coin) d : Int) = paid denom amount d := by
  obtain ⟨-, n, hAmount, rfl⟩ := Sdk.newCoin_eq_ok.mp h
  obtain rfl := Option.some.inj hAmount
  refine ⟨Int.natCast_nonneg n, ?_⟩
  intro d
  rw [Bank.amountOf_newCoins, paid]
  split <;> simp

/-- What is taken into escrow, and what had to be a number for it. -/
theorem escrowCoins_eq_ok {market : Market} {side price : String} {quantity : Int}
    {coins : Coins} (h : k.escrowCoins market side price quantity = .ok coins) :
    (∀ d, (Bank.amountOf coins d : Int) = escrowed k market side price quantity d) ∧
      (side = "BUY" → ∃ p, k.sdk.newIntFromString price = some p ∧
        (orderTypeOf price ≠ "MARKET" → 0 ≤ p * quantity)) ∧
      (side ≠ "BUY" → 0 ≤ quantity) := by
  unfold Keeper.escrowCoins at h
  unfold escrowed
  split at h
  next hBuy =>
    dsimp only at h
    split at h
    next hMarket =>
      obtain ⟨coin, hCoin, hRet⟩ := Result.bind_eq_ok.mp h
      obtain rfl := Result.pure_eq_ok.mp hRet
      obtain ⟨-, n, hPrice, -⟩ := Sdk.newCoin_eq_ok.mp hCoin
      rw [hPrice] at hCoin ⊢
      simp only [if_pos hBuy, if_pos hMarket, Option.getD_some]
      exact ⟨(amountOf_newCoin hCoin).2, fun _ => ⟨n, rfl, fun hne => absurd hMarket hne⟩,
        fun hne => absurd hBuy hne⟩
    next hLimit =>
      simp only [MathInt.mul, Result.bind_eq_ok, Result.pure_eq_ok, MathInt.deref_eq_ok,
        MathInt.checked_eq_ok, Option.some.injEq, exists_eq_left'] at h
      obtain ⟨-, ⟨p, hPrice, -, rfl⟩, coin, hCoin, rfl⟩ := h
      simp only [hPrice, if_pos hBuy, if_neg hLimit, Option.getD_some]
      exact ⟨(amountOf_newCoin hCoin).2, fun _ => ⟨p, rfl, fun _ => (amountOf_newCoin hCoin).1⟩,
        fun hne => absurd hBuy hne⟩
  next hSell =>
    obtain ⟨coin, hCoin, hRet⟩ := Result.bind_eq_ok.mp h
    obtain rfl := Result.pure_eq_ok.mp hRet
    simp only [if_neg hSell]
    exact ⟨(amountOf_newCoin hCoin).2, fun hBuy => absurd hBuy hSell,
      fun _ => (amountOf_newCoin hCoin).1⟩

/-- Working out the escrow can only panic. -/
theorem escrowCoins_error {market : Market} {side price : String} {quantity : Int}
    {f : Failure} (h : k.escrowCoins market side price quantity = .error f) : f.IsPanic := by
  unfold Keeper.escrowCoins at h
  split at h
  · dsimp only at h
    split at h
    · rcases Result.bind_eq_error.mp h with h | ⟨_, _, h⟩
      · exact Sdk.newCoin_error h
      · cases h
    · rcases Result.bind_eq_error.mp h with h | ⟨_, _, h⟩
      · exact MathInt.mul_error h
      rcases Result.bind_eq_error.mp h with h | ⟨_, _, h⟩
      · exact Sdk.newCoin_error h
      · cases h
  · rcases Result.bind_eq_error.mp h with h | ⟨_, _, h⟩
    · exact Sdk.newCoin_error h
    · cases h

/-- The module account after the escrow. -/
theorem Admitted.held {s : State} {msg : MsgPlaceOrder} {market : Market} {quantity : Int}
    {coins : Coins} {bank : Bank} (h : Admitted k s msg market quantity coins bank) (d : String) :
    bank.held d = s.bank.held d + escrowed k market msg.side msg.price quantity d := by
  rw [Bank.held_of_sendFromAccount h.funded, (escrowCoins_eq_ok h.escrow).1]

/-- Only the match can find the module account short. -/
theorem placeOrder_lacks_funds {ctx : Context} {s : State} {msg : MsgPlaceOrder}
    {wraps : List String}
    (h : k.placeOrder ctx s msg = .error (.error (.insufficientFunds .module) wraps)) :
    ∃ market quantity coins bank, Admitted k s msg market quantity coins bank ∧
      k.matchOrders ctx { s with bank := bank } msg.toOrder (msg.orderId ctx.height) market =
        .error (.error (.insufficientFunds .module) wraps) := by
  have hNot : ¬ (Failure.error (.insufficientFunds .module) wraps).IsPanic := by
    rintro ⟨_, h⟩
    cases h
  simp only [Keeper.placeOrder, Result.bind_eq_error, Result.ofOption_eq_error,
    Result.ofOption_eq_ok, Result.pure_ne_error, and_false, exists_false, or_false] at h
  rcases h with ⟨-, h⟩ | ⟨market, hMarket, ⟨-, h⟩ | ⟨quantity, hQuantity, h | ⟨coins, hEscrow,
    h | ⟨bank, hBank, h | ⟨slice, hSlice, h⟩⟩⟩⟩⟩
  · cases h
  · cases h
  · exact absurd (escrowCoins_error h) hNot
  · cases Bank.sendCoins_eq_error h
  · simp only [Keeper.creatorSlice, Result.bind_eq_error, Result.require_eq_error,
      Result.pure_ne_error, and_false, exists_false, or_false] at h
    exact absurd ⟨_, h.2.symm⟩ hNot
  · obtain ⟨hLength, rfl⟩ := creatorSlice_eq_ok hSlice
    exact ⟨market, quantity, coins, bank, ⟨hMarket, hQuantity, hEscrow, hBank, hLength⟩, h⟩

-- ---------------------------------------------------------------------------
-- The purge
-- ---------------------------------------------------------------------------

/-- The purge of one order. -/
def purgeOrder (s : State) (orderId : String) (order : Order) : State :=
  { s with
    order := s.order.erase orderId
    orderbook := s.orderbook.erase (order.marketId ++ "|" ++ order.price ++ "|" ++ orderId) }

/-- What every purged order keeps, the loop keeps. -/
theorem purgeLoop_induction {P : State → Prop}
    (hStep : ∀ s orderId order, s.order[orderId]? = some order → order.status = "FILLED" →
      P s → P (purgeOrder s orderId order))
    {limit : Nat} {kvs : List (String × Order)} {count : Nat} {s : State}
    (hNodup : (kvs.map Prod.fst).Nodup)
    (hMem : ∀ kv ∈ kvs, s.order[kv.1]? = some kv.2) (hP : P s) :
    P (Keeper.purgeLoop limit kvs count s).1 := by
  induction kvs generalizing count s with
  | nil => exact hP
  | cons kv rest ih =>
    obtain ⟨orderId, order⟩ := kv
    have hHead : s.order[orderId]? = some order := hMem _ (List.mem_cons_self ..)
    rw [List.map_cons, List.nodup_cons] at hNodup
    rw [Keeper.purgeLoop]
    split
    · exact hP
    split
    next hFilled =>
      refine ih hNodup.2 ?_ (hStep s orderId order hHead hFilled hP)
      intro kv hkv
      have hne : kv.1 ≠ orderId := by
        intro hEq
        exact hNodup.1 (List.mem_map.mpr ⟨kv, hkv, hEq⟩)
      show (s.order.erase orderId)[kv.1]? = some kv.2
      rw [Store.get?_erase_ne hne]
      exact hMem kv (List.mem_cons_of_mem _ hkv)
    next => exact ih hNodup.2 (fun kv hkv => hMem kv (List.mem_cons_of_mem _ hkv)) hP

/-- What the purge of a filled order keeps, the whole purge keeps. -/
theorem purge_induction {P : State → Prop}
    (hStep : ∀ s orderId order, s.order[orderId]? = some order → order.status = "FILLED" →
      P s → P (purgeOrder s orderId order))
    {s : State} (limit : Nat) (hP : P s) : P (Keeper.batchCleanFilledOrders s limit).1 := by
  refine purgeLoop_induction hStep ?_ (fun kv hkv => Store.mem_toList.mp hkv) hP
  exact Store.nodup_keys_toList s.order

/-- A purge writes neither markets nor parameters. -/
theorem purge_frame (s : State) (limit : Nat) :
    (Keeper.batchCleanFilledOrders s limit).1.market = s.market ∧
      (Keeper.batchCleanFilledOrders s limit).1.params = s.params :=
  purge_induction (P := fun s' => s'.market = s.market ∧ s'.params = s.params)
    (fun _ _ _ _ _ h => h) limit ⟨rfl, rfl⟩

theorem purge_mem_order (s : State) (limit : Nat) :
    ∀ id ∈ (Keeper.batchCleanFilledOrders s limit).1.order, id ∈ s.order := by
  refine purge_induction (P := fun s' => ∀ id ∈ s'.order, id ∈ s.order) ?_ limit (fun _ h => h)
  intro s₁ orderId order _ _ hSub id hid
  exact hSub id (Store.mem_erase.mp hid).2

/-- A purge changes no order that it leaves. -/
theorem purge_order_subset (s : State) (limit : Nat) {id : String} {o : Order}
    (h : (Keeper.batchCleanFilledOrders s limit).1.order[id]? = some o) :
    s.order[id]? = some o := by
  revert h
  refine purge_induction (P := fun s' => s'.order[id]? = some o → s.order[id]? = some o) ?_ limit
    (fun h => h)
  intro s₁ orderId order _ _ hSub ho
  exact hSub (Store.get?_of_erase ho).2

-- ---------------------------------------------------------------------------
-- One step
-- ---------------------------------------------------------------------------

/-- The market record `RegisterPairs` writes. -/
def MsgRegisterPairs.toMarket (msg : MsgRegisterPairs) : Market :=
  { (default : Market) with
    baseDenom := msg.baseDenom
    quoteDenom := msg.quoteDenom
    tickSize := msg.tickSize
    lotSize := msg.lotSize
    status := "ACTIVE" }

/-- The states an operation can lead to. -/
inductive Effect (k : Keeper) (s : State) : Op → State → Prop
  | rejected (op : Op) : Effect k s op s
  | updateParams {ctx : Context} {msg : MsgUpdateParams} :
      Effect k s (.deliver ctx (.updateParams msg)) { s with params := some msg.params }
  | createMarket {ctx : Context} {msg : MsgCreateMarket} (hFresh : s.market[msg.index]? = none)
      (hCreator : ∃ addr, k.sdk.stringToBytes msg.creator = .ok addr) :
      Effect k s (.deliver ctx (.createMarket msg))
        { s with market := s.market.insert msg.index msg.toMarket }
  | updateMarket {ctx : Context} {msg : MsgUpdateMarket} {old : Market}
      (hOld : s.market[msg.index]? = some old) (hOwner : msg.creator = old.creator)
      (hCreator : ∃ addr, k.sdk.stringToBytes msg.creator = .ok addr) :
      Effect k s (.deliver ctx (.updateMarket msg))
        { s with market := s.market.insert msg.index msg.toMarket }
  | deleteMarket {ctx : Context} {msg : MsgDeleteMarket} {old : Market}
      (hOld : s.market[msg.index]? = some old) (hOwner : msg.creator = old.creator)
      (hCreator : ∃ addr, k.sdk.stringToBytes msg.creator = .ok addr) :
      Effect k s (.deliver ctx (.deleteMarket msg))
        { s with market := s.market.erase msg.index }
  | createOrder {ctx : Context} {msg : MsgCreateOrder} (hFresh : s.order[msg.index]? = none)
      (hCreator : ∃ addr, k.sdk.stringToBytes msg.creator = .ok addr) :
      Effect k s (.deliver ctx (.createOrder msg))
        { s with order := s.order.insert msg.index msg.toOrder }
  | updateOrder {ctx : Context} {msg : MsgUpdateOrder} {old : Order}
      (hOld : s.order[msg.index]? = some old) (hOwner : msg.creator = old.creator)
      (hCreator : ∃ addr, k.sdk.stringToBytes msg.creator = .ok addr) :
      Effect k s (.deliver ctx (.updateOrder msg))
        { s with order := s.order.insert msg.index msg.toOrder }
  | deleteOrder {ctx : Context} {msg : MsgDeleteOrder} {old : Order}
      (hOld : s.order[msg.index]? = some old) (hOwner : msg.creator = old.creator)
      (hCreator : ∃ addr, k.sdk.stringToBytes msg.creator = .ok addr) :
      Effect k s (.deliver ctx (.deleteOrder msg))
        { s with order := s.order.erase msg.index }
  | registerPairs {ctx : Context} {msg : MsgRegisterPairs} :
      Effect k s (.deliver ctx (.registerPairs msg))
        { s with market := s.market.insert (pairId msg.baseDenom msg.quoteDenom) msg.toMarket }
  | placeOrder {ctx : Context} {msg : MsgPlaceOrder} {market : Market} {quantity : Int}
      {coins : Coins} {bank : Bank} {s' : State}
      (hPlaced : Placed k ctx s msg market quantity coins bank s') :
      Effect k s (.deliver ctx (.placeOrder msg)) s'
  | cleanOrders {ctx : Context} {msg : MsgCleanOrders} (limit : Nat) :
      Effect k s (.deliver ctx (.cleanOrders msg)) (Keeper.batchCleanFilledOrders s limit).1
  | endBlock : Effect k s .endBlock (Keeper.batchCleanFilledOrders s 5).1

/-- What passes the check is not stored yet. -/
theorem checkFresh_eq_ok {ν : Type} {m : Store String ν} {creator index : String} {u : Unit}
    (h : k.checkFresh m creator index = .ok u) : m[index]? = none := by
  simp only [Keeper.checkFresh, Result.bind_eq_ok, Result.require_eq_ok] at h
  obtain ⟨_, -, hFresh⟩ := h
  exact hFresh

/-- Who passes the check is the stored creator. -/
theorem checkOwner_eq_ok {ν : Type} {m : Store String ν} {creatorOf : ν → String}
    {creator index : String} {u : Unit} (h : k.checkOwner m creatorOf creator index = .ok u) :
    ∃ old, m[index]? = some old ∧ creator = creatorOf old := by
  simp only [Keeper.checkOwner, Result.bind_eq_ok, Result.require_eq_ok,
    Result.ofOption_eq_ok] at h
  obtain ⟨_, -, old, hOld, hOwner⟩ := h
  exact ⟨old, hOld, hOwner⟩

/-- Who passes the check has an address. -/
theorem checkCreator_eq_ok {creator what : String} {u : Unit}
    (h : k.checkCreator creator what = .ok u) : ∃ addr, k.sdk.stringToBytes creator = .ok addr := by
  unfold Keeper.checkCreator at h
  split at h
  next addr hAddr => exact ⟨addr, hAddr⟩
  next => cases h

theorem checkFresh_creator {ν : Type} {m : Store String ν} {creator index : String} {u : Unit}
    (h : k.checkFresh m creator index = .ok u) :
    ∃ addr, k.sdk.stringToBytes creator = .ok addr := by
  obtain ⟨_, hCheck, -⟩ := Result.bind_eq_ok.mp h
  exact checkCreator_eq_ok hCheck

theorem checkOwner_creator {ν : Type} {m : Store String ν} {creatorOf : ν → String}
    {creator index : String} {u : Unit} (h : k.checkOwner m creatorOf creator index = .ok u) :
    ∃ addr, k.sdk.stringToBytes creator = .ok addr := by
  obtain ⟨_, hCheck, -⟩ := Result.bind_eq_ok.mp h
  exact checkCreator_eq_ok hCheck

/-- Every message that is accepted has one of the effects. -/
theorem handle_effect {ctx : Context} {s s' : State} {msg : Msg} {r : Response}
    (h : k.handle ctx s msg = .ok (s', r)) : Effect k s (.deliver ctx msg) s' := by
  cases msg with
  | updateParams msg =>
    simp only [Keeper.handle, Keeper.updateParams, Result.bind_eq_ok, Result.pure_eq_ok,
      Prod.mk.injEq] at h
    obtain ⟨_, -, _, -, rfl, -⟩ := h
    exact .updateParams
  | createMarket msg =>
    simp only [Keeper.handle, Keeper.createMarket, Result.bind_eq_ok, Result.pure_eq_ok,
      Prod.mk.injEq] at h
    obtain ⟨_, hCheck, rfl, -⟩ := h
    exact .createMarket (checkFresh_eq_ok hCheck) (checkFresh_creator hCheck)
  | updateMarket msg =>
    simp only [Keeper.handle, Keeper.updateMarket, Result.bind_eq_ok, Result.pure_eq_ok,
      Prod.mk.injEq] at h
    obtain ⟨_, hCheck, rfl, -⟩ := h
    obtain ⟨old, hOld, hOwner⟩ := checkOwner_eq_ok hCheck
    exact .updateMarket hOld hOwner (checkOwner_creator hCheck)
  | deleteMarket msg =>
    simp only [Keeper.handle, Keeper.deleteMarket, Result.bind_eq_ok, Result.pure_eq_ok,
      Prod.mk.injEq] at h
    obtain ⟨_, hCheck, rfl, -⟩ := h
    obtain ⟨old, hOld, hOwner⟩ := checkOwner_eq_ok hCheck
    exact .deleteMarket hOld hOwner (checkOwner_creator hCheck)
  | createOrder msg =>
    simp only [Keeper.handle, Keeper.createOrder, Result.bind_eq_ok, Result.pure_eq_ok,
      Prod.mk.injEq] at h
    obtain ⟨_, hCheck, rfl, -⟩ := h
    exact .createOrder (checkFresh_eq_ok hCheck) (checkFresh_creator hCheck)
  | updateOrder msg =>
    simp only [Keeper.handle, Keeper.updateOrder, Result.bind_eq_ok, Result.pure_eq_ok,
      Prod.mk.injEq] at h
    obtain ⟨_, hCheck, rfl, -⟩ := h
    obtain ⟨old, hOld, hOwner⟩ := checkOwner_eq_ok hCheck
    exact .updateOrder hOld hOwner (checkOwner_creator hCheck)
  | deleteOrder msg =>
    simp only [Keeper.handle, Keeper.deleteOrder, Result.bind_eq_ok, Result.pure_eq_ok,
      Prod.mk.injEq] at h
    obtain ⟨_, hCheck, rfl, -⟩ := h
    obtain ⟨old, hOld, hOwner⟩ := checkOwner_eq_ok hCheck
    exact .deleteOrder hOld hOwner (checkOwner_creator hCheck)
  | registerPairs msg =>
    obtain ⟨rfl, -⟩ := Prod.mk.inj (Result.pure_eq_ok.mp h)
    exact .registerPairs
  | placeOrder msg =>
    obtain ⟨-, market, quantity, coins, bank, hPlaced⟩ := placeOrder_eq_ok h
    exact .placeOrder hPlaced
  | cleanOrders msg =>
    simp only [Keeper.handle, Keeper.cleanOrders, Result.bind_eq_ok, Result.pure_eq_ok,
      Prod.mk.injEq] at h
    obtain ⟨_, -, rfl, -⟩ := h
    exact .cleanOrders _

/-- **The step relation.** Whatever the operation, the step is one of the
cases of `Effect`. -/
theorem step_effect (k : Keeper) (s : State) (op : Op) : Effect k s op (k.step s op) := by
  cases op with
  | endBlock => exact .endBlock
  | deliver ctx msg =>
    exact commit_induction (.rejected _) fun s' r h => handle_effect h

-- ---------------------------------------------------------------------------
-- What a run records of its accepted messages
-- ---------------------------------------------------------------------------

/-- The accepted messages that write the market record under `id`, with what they
leave there. -/
inductive MarketWrite (k : Keeper) (s : State) (id : String) : Op → Option Market → Prop
  | created {ctx : Context} {msg : MsgCreateMarket} (hId : msg.index = id)
      (hFresh : s.market[id]? = none)
      (hCreator : ∃ addr, k.sdk.stringToBytes msg.creator = .ok addr) :
      MarketWrite k s id (.deliver ctx (.createMarket msg)) (some msg.toMarket)
  | updated {ctx : Context} {msg : MsgUpdateMarket} {old : Market} (hId : msg.index = id)
      (hOld : s.market[id]? = some old) (hOwner : msg.creator = old.creator)
      (hCreator : ∃ addr, k.sdk.stringToBytes msg.creator = .ok addr) :
      MarketWrite k s id (.deliver ctx (.updateMarket msg)) (some msg.toMarket)
  | deleted {ctx : Context} {msg : MsgDeleteMarket} {old : Market} (hId : msg.index = id)
      (hOld : s.market[id]? = some old) (hOwner : msg.creator = old.creator)
      (hCreator : ∃ addr, k.sdk.stringToBytes msg.creator = .ok addr) :
      MarketWrite k s id (.deliver ctx (.deleteMarket msg)) none
  | registered {ctx : Context} {msg : MsgRegisterPairs}
      (hId : pairId msg.baseDenom msg.quoteDenom = id) :
      MarketWrite k s id (.deliver ctx (.registerPairs msg)) (some msg.toMarket)

/-- Whatever is not one of these writes leaves the record alone. -/
theorem market_step (k : Keeper) (s : State) (op : Op) (id : String) :
    (k.step s op).market[id]? = s.market[id]? ∨
      MarketWrite k s id op (k.step s op).market[id]? := by
  have hEffect := step_effect k s op
  generalize k.step s op = s' at hEffect
  -- a record that is written elsewhere
  have hElsewhere : ∀ {index : String} {m : Market}, index ≠ id →
      (s.market.insert index m)[id]? = s.market[id]? :=
    fun hne => Store.get?_insert_ne hne.symm
  cases hEffect with
  | @createMarket ctx msg hFresh hCreator =>
    by_cases hId : msg.index = id
    · subst hId
      rw [Std.ExtTreeMap.getElem?_insert_self]
      exact .inr (.created rfl hFresh hCreator)
    · exact .inl (hElsewhere hId)
  | @updateMarket ctx msg old hOld hOwner hCreator =>
    by_cases hId : msg.index = id
    · subst hId
      rw [Std.ExtTreeMap.getElem?_insert_self]
      exact .inr (.updated rfl hOld hOwner hCreator)
    · exact .inl (hElsewhere hId)
  | @deleteMarket ctx msg old hOld hOwner hCreator =>
    by_cases hId : msg.index = id
    · subst hId
      rw [Std.ExtTreeMap.getElem?_erase_self]
      exact .inr (.deleted rfl hOld hOwner hCreator)
    · exact .inl (Store.get?_erase_ne (Ne.symm hId))
  | @registerPairs ctx msg =>
    by_cases hId : pairId msg.baseDenom msg.quoteDenom = id
    · subst hId
      rw [Std.ExtTreeMap.getElem?_insert_self]
      exact .inr (.registered rfl)
    · exact .inl (hElsewhere hId)
  | placeOrder hPlaced => exact .inl (by rw [hPlaced.frame.1])
  | cleanOrders limit => exact .inl (by rw [(purge_frame s limit).1])
  | endBlock => exact .inl (by rw [(purge_frame s 5).1])
  | _ => exact .inl rfl

/-- What `f` says of the message, when the message is accepted. -/
def Keeper.accepted {β : Type} (k : Keeper) (f : Context → Msg → List β) (s : State) :
    Op → List β
  | .deliver ctx msg => match k.handle ctx s msg with
    | .ok _ => f ctx msg
    | .error _ => []
  | .endBlock => []

theorem step_of_ok {ctx : Context} {s s' : State} {msg : Msg} {r : Response}
    (h : k.handle ctx s msg = .ok (s', r)) : k.step s (.deliver ctx msg) = s' := by
  rw [Keeper.step, h, commit_ok]

/-- A message that is refused changes nothing. -/
theorem step_of_error {ctx : Context} {s : State} {msg : Msg} {e : Failure}
    (h : k.handle ctx s msg = .error e) : k.step s (.deliver ctx msg) = s := by
  rw [Keeper.step, h, commit_error]

theorem accepted_of_ok {β : Type} {f : Context → Msg → List β} {ctx : Context} {s s' : State}
    {msg : Msg} {r : Response} (h : k.handle ctx s msg = .ok (s', r)) :
    k.accepted f s (.deliver ctx msg) = f ctx msg := by
  rw [Keeper.accepted, h]

theorem accepted_of_error {β : Type} {f : Context → Msg → List β} {ctx : Context} {s : State}
    {msg : Msg} {e : Failure} (h : k.handle ctx s msg = .error e) :
    k.accepted f s (.deliver ctx msg) = [] := by
  rw [Keeper.accepted, h]

/-- To show something of a step and of what it records, show it of a rejected
message, of an accepted one and of the end of a block. -/
theorem step_accepted {β : Type} {f : Context → Msg → List β} {s : State}
    {P : List β → State → Prop} (op : Op) (hRejected : P [] s)
    (hAccepted : ∀ ctx msg s' r, op = .deliver ctx msg → k.handle ctx s msg = .ok (s', r) →
      P (f ctx msg) s')
    (hEndBlock : op = .endBlock → P [] (Keeper.endBlock s)) :
    P (k.accepted f s op) (k.step s op) := by
  cases op with
  | endBlock => exact hEndBlock rfl
  | deliver ctx msg =>
    cases hHandle : k.handle ctx s msg with
    | error e =>
      rw [accepted_of_error hHandle, step_of_error hHandle]
      exact hRejected
    | ok res =>
      rw [accepted_of_ok hHandle, step_of_ok hHandle]
      exact hAccepted ctx msg res.1 res.2 rfl hHandle

-- ---------------------------------------------------------------------------
-- Conditions on accepted messages
-- ---------------------------------------------------------------------------

/-- The condition `C` on a step, with nothing asked of a message that is rejected. -/
def Keeper.Accepting (k : Keeper) (C : State → Op → Prop) (s : State) : Op → Prop
  | .deliver ctx msg => (k.handle ctx s msg).isOk = true → C s (.deliver ctx msg)
  | .endBlock => C s .endBlock

instance {C : State → Op → Prop} [∀ s op, Decidable (C s op)] (s : State) :
    DecidablePred (k.Accepting C s)
  | .deliver ctx msg => inferInstanceAs (Decidable
      ((k.handle ctx s msg).isOk = true → C s (.deliver ctx msg)))
  | .endBlock => inferInstanceAs (Decidable (C s .endBlock))

section Accepting

variable {C : State → Op → Prop} {s : State} {op : Op}

/-- A step that meets the condition, or a rejected message. -/
theorem Keeper.Accepting.cases (h : k.Accepting C s op) :
    C s op ∨ ∃ ctx msg e, op = .deliver ctx msg ∧ k.handle ctx s msg = .error e := by
  cases op with
  | endBlock => exact .inl h
  | deliver ctx msg =>
    cases hHandle : k.handle ctx s msg with
    | error e => exact .inr ⟨ctx, msg, e, rfl, hHandle⟩
    | ok res => exact .inl (h (by rw [hHandle]; rfl))

/-- What the steps that meet the condition keep, a rejected message keeps too. -/
theorem Keeper.Accepting.step {P : State → Prop} (h : k.Accepting C s op) (hP : P s)
    (hStep : C s op → P (k.step s op)) : P (k.step s op) := by
  rcases h.cases with hC | ⟨ctx, msg, e, rfl, hRejected⟩
  · exact hStep hC
  · rw [step_of_error hRejected]
    exact hP

end Accepting

end Ganc.Dex
