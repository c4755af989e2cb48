import Ganc.Dex.Sample
import Ganc.Dex.StepSpec
import Ganc.Lib.Utf8

/-!
# x/dex — genesis, export and import

`keeper/genesis.go` and `types/genesis.go`. An export is a list of values, and
an import stores each value under its own `Index`. `RegisterPairs` and
`PlaceOrder` store values without one, so what comes back from an export
depends on which handlers have written to the stores (`lossless_iff`). What
comes back from an import depends on the indices of the lists alone, and
`Validate` refuses the lists that do not come back whole (`genesis_import`).
-/

namespace Ganc.Dex

variable {k : Keeper}

-- ---------------------------------------------------------------------------
-- Genesis
-- ---------------------------------------------------------------------------

structure GenesisState where
  params : Params
  marketMap : List Market
  orderMap : List Order
  orderbookMap : List Orderbook

def defaultGenesis : GenesisState where
  params := {}
  marketMap := []
  orderMap := []
  orderbookMap := []

def Params.validate (_ : Params) : Result Unit := .ok ()

/-- One loop of `Validate`, with the indices seen so far. -/
def checkDuplicates (err : String) : List String → List String → Result Unit
  | _, [] => .ok ()
  | seen, index :: indices => do
    Result.require (index ∉ seen) (.error (.external err) [])
    checkDuplicates err (index :: seen) indices

namespace GenesisState

def validate (gs : GenesisState) : Result Unit := do
  checkDuplicates "duplicated index for market" [] (gs.marketMap.map Market.index)
  checkDuplicates "duplicated index for order" [] (gs.orderMap.map Order.index)
  checkDuplicates "duplicated index for orderbook" [] (gs.orderbookMap.map Orderbook.index)
  gs.params.validate

end GenesisState

def initGenesis (s : State) (genState : GenesisState) : State :=
  { s with
    market := genState.marketMap.foldl (fun m elem => m.insert elem.index elem) s.market
    order := genState.orderMap.foldl (fun m elem => m.insert elem.index elem) s.order
    orderbook :=
      genState.orderbookMap.foldl (fun m elem => m.insert elem.index elem) s.orderbook
    params := some genState.params }

def exportGenesis (s : State) : Result GenesisState := do
  let params ← Result.ofOption (.error (.external "collections: not found") []) s.params
  return {
    params := params
    marketMap := s.market.toList.map Prod.snd
    orderMap := s.order.toList.map Prod.snd
    orderbookMap := s.orderbook.toList.map Prod.snd }

/-- The state the default genesis leaves. -/
def State.genesis (bank : Bank) : State := initGenesis (State.empty bank) defaultGenesis

-- ---------------------------------------------------------------------------
-- Keys and indices
-- ---------------------------------------------------------------------------

/-- The values carry the keys they are stored under. -/
structure Indexed (s : State) : Prop where
  market : ∀ (key : String) (m : Market), s.market[key]? = some m → m.index = key
  order : ∀ (key : String) (o : Order), s.order[key]? = some o → o.index = key
  orderbook : ∀ (key : String) (e : Orderbook), s.orderbook[key]? = some e → e.index = key

/-- The export succeeds, is valid, and restores parameters and stores. -/
def Lossless (s : State) : Prop :=
  ∃ gs, exportGenesis s = .ok gs ∧ gs.validate = .ok () ∧
    (initGenesis (State.empty s.bank) gs).params = s.params ∧
    (initGenesis (State.empty s.bank) gs).market = s.market ∧
    (initGenesis (State.empty s.bank) gs).order = s.order ∧
    (initGenesis (State.empty s.bank) gs).orderbook = s.orderbook

/-- The check passes exactly if no index is listed twice or has been seen. -/
theorem checkDuplicates_eq_ok {err : String} {seen indices : List String} {u : Unit} :
    checkDuplicates err seen indices = .ok u ↔
      indices.Nodup ∧ ∀ index ∈ indices, index ∉ seen := by
  induction indices generalizing seen with
  | nil => simp [checkDuplicates]
  | cons index indices ih =>
    simp only [checkDuplicates, Result.bind_eq_ok, Result.require_eq_ok, exists_const, ih,
      List.nodup_cons, List.forall_mem_cons]
    constructor
    · rintro ⟨hNew, hNodup, hAll⟩
      refine ⟨⟨?_, hNodup⟩, hNew, ?_⟩
      · intro hMem
        exact hAll index hMem (List.mem_cons_self ..)
      · intro i hi hSeen
        exact hAll i hi (List.mem_cons_of_mem _ hSeen)
    · rintro ⟨⟨hNotMem, hNodup⟩, hNew, hAll⟩
      refine ⟨hNew, hNodup, ?_⟩
      intro i hi hSeen
      rcases List.mem_cons.mp hSeen with rfl | hOld
      · exact hNotMem hi
      · exact hAll i hi hOld

/-- The indices of values that carry their keys are different. -/
theorem checkDuplicates_of_indexed {ν : Type} {err : String} {m : Store String ν}
    {index : ν → String} (h : ∀ (key : String) (v : ν), m[key]? = some v → index v = key) :
    checkDuplicates err [] ((m.toList.map Prod.snd).map index) = .ok () := by
  refine checkDuplicates_eq_ok.mpr ⟨?_, fun _ _ => List.not_mem_nil⟩
  rw [Store.map_values h]
  exact Store.nodup_keys_toList m

/-- A state survives its export exactly if every value lies under its own index. -/
theorem lossless_iff {s : State} (hParams : s.params.isSome) : Lossless s ↔ Indexed s := by
  obtain ⟨params, hSome⟩ := Option.isSome_iff_exists.mp hParams
  have hExport : exportGenesis s = .ok ⟨params, s.market.toList.map Prod.snd,
      s.order.toList.map Prod.snd, s.orderbook.toList.map Prod.snd⟩ := by
    rw [exportGenesis, hSome]
    rfl
  constructor
  · rintro ⟨gs, hOk, -, -, hMarket, hOrder, hOrderbook⟩
    obtain rfl := Except.ok.inj (hExport.symm.trans hOk)
    exact ⟨Store.rebuild_eq_iff.mp hMarket, Store.rebuild_eq_iff.mp hOrder,
      Store.rebuild_eq_iff.mp hOrderbook⟩
  · intro h
    refine ⟨_, hExport, ?_, hSome.symm, Store.rebuild_eq_iff.mpr h.market,
      Store.rebuild_eq_iff.mpr h.order, Store.rebuild_eq_iff.mpr h.orderbook⟩
    simp only [GenesisState.validate, Params.validate, Result.bind_eq_ok]
    exact ⟨(), checkDuplicates_of_indexed h.market, (), checkDuplicates_of_indexed h.order, (),
      checkDuplicates_of_indexed h.orderbook, trivial⟩

-- ---------------------------------------------------------------------------
-- Import and export
-- ---------------------------------------------------------------------------

/-- Every index is smaller than the next, byte by byte. -/
def SortedByIndex {ν : Type} (index : ν → String) (elems : List ν) : Prop :=
  elems.Pairwise fun v w => (index v).toUTF8.toList < (index w).toUTF8.toList

/-- Some element comes back less often than it was given. -/
def Loses {ν : Type} [DecidableEq ν] (given back : List ν) : Prop :=
  ∃ v ∈ given, back.count v < given.count v

/-- A list that goes through an empty store. -/
def throughStore {ν : Type} (index : ν → String) (elems : List ν) : List ν :=
  (elems.foldl (fun m elem => m.insert (index elem) elem) (∅ : Store String ν)).toList.map Prod.snd

section ThroughStore

variable {ν : Type} (index : ν → String) (elems : List ν)

/-- What comes back from the store is what is kept of the list. -/
theorem throughStore_eq :
    throughStore index elems = (Store.keyed index elems).toList.map Prod.snd := by
  rw [throughStore, Store.foldl_insert]

/-- What comes back is in the order of the keys. -/
theorem sorted_throughStore : SortedByIndex index (throughStore index elems) := by
  rw [throughStore_eq]
  refine (Store.pairwise_values_keyed index elems).imp ?_
  intro v w hLess
  exact Utf8.toUTF8_lt (compareOfLessAndEq_eq_lt.mp hLess)

/-- The check passes exactly if the store gives the list back, in some order. -/
theorem checkDuplicates_iff_perm (err : String) :
    checkDuplicates err [] (elems.map index) = .ok () ↔
      (throughStore index elems).Perm elems := by
  rw [throughStore_eq, Store.values_keyed_perm_iff, checkDuplicates_eq_ok]
  simp

/-- Something is lost exactly if the store does not give the list back. -/
theorem loses_iff [DecidableEq ν] :
    Loses elems (throughStore index elems) ↔ ¬ (throughStore index elems).Perm elems := by
  rw [throughStore_eq, Store.values_keyed_perm_iff]
  exact Store.values_keyed_lost_iff

end ThroughStore

/-- A genesis state is valid exactly if each of its lists passes the check. -/
theorem validate_eq_ok (gs : GenesisState) : gs.validate = .ok () ↔
    checkDuplicates "duplicated index for market" [] (gs.marketMap.map Market.index) = .ok () ∧
    checkDuplicates "duplicated index for order" [] (gs.orderMap.map Order.index) = .ok () ∧
    checkDuplicates "duplicated index for orderbook" []
      (gs.orderbookMap.map Orderbook.index) = .ok () := by
  simp only [GenesisState.validate, Params.validate, Result.bind_eq_ok, and_true]
  constructor
  · rintro ⟨⟨⟩, hMarket, ⟨⟩, hOrder, ⟨⟩, hOrderbook⟩
    exact ⟨hMarket, hOrder, hOrderbook⟩
  · rintro ⟨hMarket, hOrder, hOrderbook⟩
    exact ⟨(), hMarket, (), hOrder, (), hOrderbook⟩

/-- **Import.** What a genesis state comes back as after `InitGenesis` into an
empty store and `ExportGenesis`: the same parameters, and each list in the order
of its indices. `Validate` accepts exactly the states whose lists come back
whole, and refuses exactly those of which a list loses an element. -/
theorem genesis_import (gs : GenesisState) (bank : Bank) :
    ∃ back : GenesisState, exportGenesis (initGenesis (State.empty bank) gs) = .ok back ∧
      back.params = gs.params ∧
      gs.params.validate = .ok () ∧
      (SortedByIndex Market.index back.marketMap ∧ SortedByIndex Order.index back.orderMap ∧
        SortedByIndex Orderbook.index back.orderbookMap) ∧
      (gs.validate = .ok () ↔
        back.marketMap.Perm gs.marketMap ∧ back.orderMap.Perm gs.orderMap ∧
          back.orderbookMap.Perm gs.orderbookMap) ∧
      ((∃ e, gs.validate = .error e) ↔
        Loses gs.marketMap back.marketMap ∨ Loses gs.orderMap back.orderMap ∨
          Loses gs.orderbookMap back.orderbookMap) := by
  refine ⟨⟨gs.params, throughStore Market.index gs.marketMap,
    throughStore Order.index gs.orderMap, throughStore Orderbook.index gs.orderbookMap⟩,
    rfl, rfl, rfl, ?_, ?_, ?_⟩
  · exact ⟨sorted_throughStore _ _, sorted_throughStore _ _, sorted_throughStore _ _⟩
  · simp only [validate_eq_ok, checkDuplicates_iff_perm]
  · have hRefused : (∃ e, gs.validate = .error e) ↔ ¬ gs.validate = .ok () := by
      cases gs.validate <;> simp
    simp only [hRefused, validate_eq_ok, checkDuplicates_iff_perm, loses_iff, not_and_or]

-- ---------------------------------------------------------------------------
-- Runs
-- ---------------------------------------------------------------------------

/-- Neither an accepted `RegisterPairs` nor an accepted `PlaceOrder`. -/
def KeepsIndices (k : Keeper) (s : State) : Op → Prop
  | .deliver _ (.registerPairs _) => False
  | .deliver ctx (.placeOrder msg) => ∀ s' r, k.placeOrder ctx s msg ≠ .ok (s', r)
  | _ => True

/-- A purge only removes, so what is left lies under its own index. -/
theorem Indexed.purge {s : State} (h : Indexed s) (limit : Nat) :
    Indexed (Keeper.batchCleanFilledOrders s limit).1 := by
  refine purge_induction (P := Indexed) ?_ limit h
  intro s orderId order _ _ hs
  exact ⟨hs.market, fun key o ho => hs.order key o (Store.get?_of_erase ho).2,
    fun key e he => hs.orderbook key e (Store.get?_of_erase he).2⟩

/-- A value that is stored under its index. -/
theorem index_insert {ν : Type} {m : Store String ν} {index : ν → String}
    (h : ∀ (key : String) (v : ν), m[key]? = some v → index v = key) (v : ν) :
    ∀ (key : String) (w : ν), (m.insert (index v) v)[key]? = some w → index w = key := by
  intro key w hw
  rw [Store.get?_insert] at hw
  split at hw
  next hKey =>
    obtain rfl := Option.some.inj hw
    exact hKey.symm
  next => exact h key w hw

/-- Removing a value leaves the others under their own index. -/
theorem index_erase {ν : Type} {m : Store String ν} {index : ν → String}
    (h : ∀ (key : String) (v : ν), m[key]? = some v → index v = key) (removed : String) :
    ∀ (key : String) (w : ν), (m.erase removed)[key]? = some w → index w = key :=
  fun key w hw => h key w (Store.get?_of_erase hw).2

/-- A step that writes under the right index keeps every value under its own. -/
theorem indexed_step (s : State) (op : Op) (hOp : KeepsIndices k s op) (h : Indexed s) :
    Indexed (k.step s op) := by
  cases op with
  | endBlock => exact h.purge 5
  | deliver ctx msg =>
    refine commit_induction h ?_
    intro s' r hHandle
    have hEffect := handle_effect hHandle
    cases hEffect with
    | rejected => exact h
    | updateParams => exact ⟨h.market, h.order, h.orderbook⟩
    | @createMarket _ msg => exact ⟨index_insert h.market msg.toMarket, h.order, h.orderbook⟩
    | @updateMarket _ msg => exact ⟨index_insert h.market msg.toMarket, h.order, h.orderbook⟩
    | @deleteMarket _ msg => exact ⟨index_erase h.market msg.index, h.order, h.orderbook⟩
    | @createOrder _ msg => exact ⟨h.market, index_insert h.order msg.toOrder, h.orderbook⟩
    | @updateOrder _ msg => exact ⟨h.market, index_insert h.order msg.toOrder, h.orderbook⟩
    | @deleteOrder _ msg => exact ⟨h.market, index_erase h.order msg.index, h.orderbook⟩
    | registerPairs => exact absurd hOp not_false
    | placeOrder => exact absurd hHandle (hOp s' r)
    | cleanOrders limit => exact h.purge limit

/-- The parameters are never removed. -/
theorem params_step (k : Keeper) (s : State) (op : Op) (h : s.params.isSome) :
    (k.step s op).params.isSome := by
  have hEffect := step_effect k s op
  generalize k.step s op = s' at hEffect
  cases hEffect with
  | updateParams => rfl
  | placeOrder hPlaced =>
    rw [hPlaced.frame.2]
    exact h
  | cleanOrders limit =>
    rw [(purge_frame s limit).2]
    exact h
  | endBlock =>
    rw [(purge_frame s 5).2]
    exact h
  | _ => exact h

/-- Right after a handler that writes no `Index` the stores are not indexed. -/
theorem not_indexed_of_write {ctx : Context} {s s' : State} {msg : Msg} {r : Response}
    (hHandle : k.handle ctx s msg = .ok (s', r))
    (hOp : ¬ KeepsIndices k s (.deliver ctx msg)) : ¬ Indexed s' := by
  intro h
  have hDash : "-".length = 1 := rfl
  cases msg with
  | registerPairs msg =>
    obtain ⟨rfl, -⟩ := Prod.mk.inj (Result.pure_eq_ok.mp hHandle)
    -- the id of a pair has a dash, the record has the empty index
    have hIndex := h.market _ msg.toMarket Std.ExtTreeMap.getElem?_insert_self
    have hLength := congrArg String.length hIndex
    simp only [pairId, String.length_append] at hLength
    have hNone : msg.toMarket.index.length = 0 := rfl
    omega
  | placeOrder msg =>
    obtain ⟨-, market, quantity, coins, bank, hPlaced⟩ := placeOrder_eq_ok hHandle
    obtain ⟨cs, rem, left, s₁, -, -, -, -, hEnd⟩ := matchOrders_eq_ok hPlaced.matched
    obtain ⟨status, hOrder⟩ := hEnd.order_eq
    have hStored : s'.order[msg.orderId ctx.height]? =
        some (takerAfter msg.toOrder left status) := by
      rw [hOrder, Std.ExtTreeMap.getElem?_insert_self]
    have hLength := congrArg String.length (h.order _ _ hStored)
    simp only [MsgPlaceOrder.orderId, orderIdOf, String.length_append] at hLength
    have hNone : (takerAfter msg.toOrder left status).index.length = 0 := rfl
    omega
  | _ => exact hOp trivial

/-- **Export and import.** In every state reachable from the default genesis,
the export is lossless exactly when each stored value carries its key as index.
So it is along every run without an accepted `RegisterPairs` or `PlaceOrder`,
and it is not right after either of them. -/
theorem export_lossless (k : Keeper) (bank : Bank) (ops : List Op) :
    (Lossless (Run.exec k.step (State.genesis bank) ops) ↔
      Indexed (Run.exec k.step (State.genesis bank) ops)) ∧
    (Run.Steps k.step (KeepsIndices k) (State.genesis bank) ops →
      Lossless (Run.exec k.step (State.genesis bank) ops)) ∧
    (∀ (ctx : Context) (msg : Msg) (s' : State) (r : Response),
      k.handle ctx (Run.exec k.step (State.genesis bank) ops) msg = .ok (s', r) →
      ¬ KeepsIndices k (Run.exec k.step (State.genesis bank) ops) (.deliver ctx msg) →
      ¬ Lossless s') := by
  have hParams : (Run.exec k.step (State.genesis bank) ops).params.isSome :=
    Run.exec_invariant (I := fun s : State => s.params.isSome) (params_step k) ops rfl
  refine ⟨lossless_iff hParams, ?_, ?_⟩
  · intro hRun
    have hEmpty : Indexed (State.genesis bank) := by
      constructor <;> intro key v hv <;>
        simp [State.genesis, initGenesis, defaultGenesis, State.empty] at hv
    exact (lossless_iff hParams).mpr (Run.exec_invariant_of_steps indexed_step hRun hEmpty)
  · intro ctx msg s' r hHandle hOp hLossless
    have hAfter := params_step k _ (.deliver ctx msg) hParams
    rw [step_of_ok hHandle] at hAfter
    exact not_indexed_of_write hHandle hOp ((lossless_iff hAfter).mp hLossless)

section Sample

open Ganc.Dex.Sample Ganc.Sample

/-- Two registered pairs have the same, empty, index: their export is refused. -/
theorem export_refused : ∃ gs : GenesisState,
    exportGenesis (Run.exec keeper.step (State.genesis bank)
      [register carol "uatom" "uusdt", register carol "uosmo" "uusdt"]) = .ok gs ∧
    gs.validate = .error (.error (.external "duplicated index for market") []) ∧
    ¬ Lossless (Run.exec keeper.step (State.genesis bank)
      [register carol "uatom" "uusdt", register carol "uosmo" "uusdt"]) := by
  have hRefused : (exportGenesis (Run.exec keeper.step (State.genesis bank)
      [register carol "uatom" "uusdt", register carol "uosmo" "uusdt"]) >>=
        GenesisState.validate) =
      .error (.error (.external "duplicated index for market") []) := by
    decide +kernel
  have hExports : (exportGenesis (Run.exec keeper.step (State.genesis bank)
      [register carol "uatom" "uusdt", register carol "uosmo" "uusdt"])).isOk := by
    decide +kernel
  obtain ⟨gs, hExport⟩ := Result.exists_of_isOk hExports
  rw [hExport] at hRefused
  refine ⟨gs, hExport, hRefused, ?_⟩
  rintro ⟨gs', hOk, hValid, -⟩
  obtain rfl := Except.ok.inj (hExport.symm.trans hOk)
  have hBoth := hValid.symm.trans hRefused
  cases hBoth

end Sample

end Ganc.Dex
