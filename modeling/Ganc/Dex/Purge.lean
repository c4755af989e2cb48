import Ganc.Dex.Sample
import Ganc.Dex.StepSpec

/-!
# x/dex — what a purge removes

`BatchCleanFilledOrders` read as a function of the stores: the filled orders
stand in key order (`filledOrders`), and a purge removes the first of them
(`purge_eq`), so that purges compose (`purge_composes`).

With each order the purge removes a key from the book, and that key lacks the
side. `purge_tidy_iff` says what becomes of a book whose entries agree with
their orders: an entry is never removed with its own order, only by accident
with another one.
-/

namespace Ganc.Dex

variable {k : Keeper}

-- ---------------------------------------------------------------------------
-- The orders a purge comes to
-- ---------------------------------------------------------------------------

/-- The filled orders, in key order. -/
def filledOrders (s : State) : List (String × Order) :=
  s.order.toList.filter fun kv => kv.2.status = "FILLED"

/-- The orders a purge with this limit removes. -/
def purged (s : State) (limit : Nat) : List (String × Order) :=
  (filledOrders s).take limit

/-- The book key the purge removes with an order. -/
def purgeKey (kv : String × Order) : String :=
  kv.2.marketId ++ "|" ++ kv.2.price ++ "|" ++ kv.1

/-- The orders go, and what is stored in the book under their purge keys. -/
def purgeAll (s : State) (kvs : List (String × Order)) : State :=
  { s with
    order := s.order.eraseAll (kvs.map Prod.fst)
    orderbook := s.orderbook.eraseAll (kvs.map purgeKey) }

/-- The loop purges the first filled orders, up to the limit. -/
theorem purgeLoop_eq {limit count : Nat} (hCount : count ≤ limit) (kvs : List (String × Order))
    (s : State) : Keeper.purgeLoop limit kvs count s =
      (purgeAll s ((kvs.filter fun kv => kv.2.status = "FILLED").take (limit - count)),
        count + min (limit - count) (kvs.filter fun kv => kv.2.status = "FILLED").length) := by
  induction kvs generalizing count s with
  | nil =>
    rw [Keeper.purgeLoop, List.filter_nil, List.take_nil, List.length_nil, Nat.min_zero]
    rfl
  | cons kv rest ih =>
    obtain ⟨orderId, order⟩ := kv
    rw [Keeper.purgeLoop]
    split
    next hFull =>
      rw [Nat.sub_eq_zero_of_le hFull, List.take_zero, Nat.zero_min]
      rfl
    next hMore =>
      split
      next hFilled =>
        have hLeft : limit - count = limit - (count + 1) + 1 := by omega
        rw [List.filter_cons_of_pos (by simpa using hFilled), hLeft, List.take_succ_cons,
          List.length_cons, ih (by omega)]
        refine Prod.ext rfl ?_
        show _ + min _ _ = _ + min _ _
        omega
      next hNot =>
        rw [List.filter_cons_of_neg (by simpa using hNot)]
        exact ih hCount s

/-- **The purge**: the first filled orders are removed, and counted. -/
theorem purge_eq (s : State) (limit : Nat) : Keeper.batchCleanFilledOrders s limit =
    (purgeAll s (purged s limit), (purged s limit).length) := by
  rw [Keeper.batchCleanFilledOrders, purgeLoop_eq (Nat.zero_le limit), purged, filledOrders,
    List.length_take, Nat.sub_zero, Nat.zero_add]

section PurgeAll

variable {s : State} {kvs : List (String × Order)}

/-- Exactly the purged orders are gone. -/
theorem get?_order_purgeAll (id : String) : (purgeAll s kvs).order[id]? =
    if id ∈ kvs.map Prod.fst then none else s.order[id]? :=
  Store.get?_eraseAll _ _ _

/-- Exactly the entries under the purged keys are gone. -/
theorem get?_book_purgeAll (kk : String) : (purgeAll s kvs).orderbook[kk]? =
    if kk ∈ kvs.map purgeKey then none else s.orderbook[kk]? :=
  Store.get?_eraseAll _ _ _

theorem purgeAll_append (kvs' : List (String × Order)) :
    purgeAll s (kvs ++ kvs') = purgeAll (purgeAll s kvs) kvs' := by
  simp only [purgeAll, List.map_append, Store.eraseAll_append]

end PurgeAll

/-- The filled orders are the records with the status `FILLED`. -/
theorem mem_filledOrders {s : State} {kv : String × Order} :
    kv ∈ filledOrders s ↔ s.order[kv.1]? = some kv.2 ∧ kv.2.status = "FILLED" := by
  rw [filledOrders, List.mem_filter, Store.mem_toList, decide_eq_true_eq]

theorem nodup_filledOrders (s : State) : ((filledOrders s).map Prod.fst).Nodup :=
  (Store.nodup_keys_toList s.order).sublist (List.filter_sublist.map _)

-- ---------------------------------------------------------------------------
-- Purges in a row
-- ---------------------------------------------------------------------------

/-- The next purge starts where the last has ended. -/
theorem filledOrders_purged (s : State) (limit : Nat) :
    filledOrders (purgeAll s (purged s limit)) = (filledOrders s).drop limit := by
  rw [filledOrders, purgeAll, Store.toList_eraseAll, List.filter_comm, ← filledOrders, purged]
  exact Store.filter_notMem_take (nodup_filledOrders s) limit

/-- A purge goes on where the one before it has stopped. -/
theorem purge_purge (s : State) (a b : Nat) :
    (Keeper.batchCleanFilledOrders (Keeper.batchCleanFilledOrders s a).1 b).1 =
        (Keeper.batchCleanFilledOrders s (a + b)).1 ∧
      (Keeper.batchCleanFilledOrders s a).2 +
        (Keeper.batchCleanFilledOrders (Keeper.batchCleanFilledOrders s a).1 b).2 =
        (Keeper.batchCleanFilledOrders s (a + b)).2 := by
  have hSplit : purged s (a + b) = purged s a ++ purged (purgeAll s (purged s a)) b := by
    rw [purged, List.take_add, purged, purged, ← filledOrders_purged, purged]
  simp only [purge_eq, hSplit, purgeAll_append, List.length_append, and_self]

/-- The ids of the filled orders, in key order. -/
def filledIds (s : State) : List String := (filledOrders s).map Prod.fst

/-- How many orders an operation may purge; a rejected `CleanOrders` purges none. -/
def Keeper.effectiveLimit (k : Keeper) : Op → Nat
  | .endBlock => 5
  | .deliver _ (.cleanOrders msg) =>
    if (k.sdk.codecBytes msg.creator).isOk then min msg.limit 500 else 0
  | _ => 0

/-- A purge, or an operation that leaves the filled orders as they are. -/
def NoNewFills (k : Keeper) (s : State) : Op → Prop
  | .endBlock => True
  | .deliver _ (.cleanOrders _) => True
  | op => filledIds (k.step s op) = filledIds s

/-- A purge takes the first ids. -/
theorem filledIds_purge (s : State) (limit : Nat) :
    filledIds (Keeper.batchCleanFilledOrders s limit).1 = (filledIds s).drop limit := by
  rw [purge_eq, filledIds, filledOrders_purged, List.map_drop, filledIds]

/-- A step that fills no order takes the first ids, up to its limit. -/
theorem filledIds_step {s : State} {op : Op} (h : NoNewFills k s op) :
    filledIds (k.step s op) = (filledIds s).drop (k.effectiveLimit op) := by
  cases op with
  | endBlock => exact filledIds_purge s 5
  | deliver ctx msg =>
    cases msg with
    | cleanOrders msg =>
      have hLimit : (if 500 < msg.limit then 500 else msg.limit) = min msg.limit 500 := by
        split <;> omega
      cases hCreator : k.sdk.codecBytes msg.creator with
      | error f =>
        have hRejected : k.step s (.deliver ctx (.cleanOrders msg)) = s := by
          simp [Keeper.step, Keeper.handle, Keeper.cleanOrders, hCreator, Result.wrap, bind,
            Except.bind]
        rw [hRejected, Keeper.effectiveLimit, hCreator]
        rfl
      | ok addr =>
        have hAccepted : k.step s (.deliver ctx (.cleanOrders msg)) =
            (Keeper.batchCleanFilledOrders s (min msg.limit 500)).1 := by
          simp [Keeper.step, Keeper.handle, Keeper.cleanOrders, hCreator, Result.wrap, bind,
            Except.bind, hLimit, pure, Except.pure]
        rw [hAccepted, filledIds_purge, Keeper.effectiveLimit, hCreator]
        rfl
    | _ => exact h

/-- Along a run without new fills the purges take the filled orders from the front. -/
theorem filledIds_run {s : State} {ops : List Op} (h : Run.Steps k.step (NoNewFills k) s ops) :
    filledIds (Run.exec k.step s ops) =
      (filledIds s).drop (ops.map k.effectiveLimit).sum := by
  induction ops generalizing s with
  | nil => rfl
  | cons op ops ih =>
    rw [Run.exec_cons, ih h.2, filledIds_step h.1, List.drop_drop, List.map_cons, List.sum_cons]

/-- **Purges compose.** A purge counts and removes as many filled orders as there are, up to
its limit, and leaves the other orders alone; two purges in a row are one with the sum of
their limits. So a run without new fills purges the filled orders from the front, and drains
them exactly when the limits of its purges add up to their number. -/
theorem purge_composes (k : Keeper) (s : State) :
    (∀ a, (Keeper.batchCleanFilledOrders s a).2 = min a (filledOrders s).length ∧
      ∃ gone : List String, gone.Nodup ∧
        gone.length = (Keeper.batchCleanFilledOrders s a).2 ∧
        (∀ id ∈ gone, ∃ o, s.order[id]? = some o ∧ o.status = "FILLED" ∧
          (Keeper.batchCleanFilledOrders s a).1.order[id]? = none) ∧
        ∀ id, id ∉ gone →
          (Keeper.batchCleanFilledOrders s a).1.order[id]? = s.order[id]?) ∧
    (∀ a b,
      (Keeper.batchCleanFilledOrders (Keeper.batchCleanFilledOrders s a).1 b).1.order =
        (Keeper.batchCleanFilledOrders s (a + b)).1.order ∧
      (Keeper.batchCleanFilledOrders (Keeper.batchCleanFilledOrders s a).1 b).1.orderbook =
        (Keeper.batchCleanFilledOrders s (a + b)).1.orderbook ∧
      (Keeper.batchCleanFilledOrders s a).2 +
        (Keeper.batchCleanFilledOrders (Keeper.batchCleanFilledOrders s a).1 b).2 =
        (Keeper.batchCleanFilledOrders s (a + b)).2) ∧
    ∀ ops, Run.Steps k.step (NoNewFills k) s ops →
      filledIds (Run.exec k.step s ops) =
        (filledIds s).drop (ops.map k.effectiveLimit).sum ∧
      (filledOrders (Run.exec k.step s ops) = [] ↔
        (filledOrders s).length ≤ (ops.map k.effectiveLimit).sum) := by
  refine ⟨?_, ?_, ?_⟩
  · intro a
    rw [purge_eq]
    refine ⟨List.length_take, (purged s a).map Prod.fst, ?_, List.length_map _, ?_, ?_⟩
    · exact (nodup_filledOrders s).sublist ((List.take_sublist a _).map _)
    · intro id hGone
      obtain ⟨kv, hkv, rfl⟩ := List.mem_map.mp hGone
      obtain ⟨hStored, hFilled⟩ := mem_filledOrders.mp (List.mem_of_mem_take hkv)
      exact ⟨kv.2, hStored, hFilled, by rw [get?_order_purgeAll, if_pos hGone]⟩
    · intro id hStays
      rw [get?_order_purgeAll, if_neg hStays]
  · intro a b
    obtain ⟨hState, hCount⟩ := purge_purge s a b
    exact ⟨by rw [hState], by rw [hState], hCount⟩
  · intro ops hOps
    have hRun := filledIds_run hOps
    refine ⟨hRun, ?_⟩
    rw [← List.map_eq_nil_iff, ← filledIds, hRun, List.drop_eq_nil_iff, filledIds,
      List.length_map]

section Sample

open Ganc.Dex.Sample Ganc.Sample

/-- The end of the block after a trade drains the one order it filled. -/
theorem purge_composes_sample :
    filledOrders (Run.exec keeper.step (keeper.reach bank trade) [.endBlock]) = [] := by
  have hSteps : Run.Steps keeper.step (NoNewFills keeper) (keeper.reach bank trade)
      [.endBlock] := ⟨trivial, trivial⟩
  exact ((purge_composes keeper (keeper.reach bank trade)).2.2 _ hSteps).2.mpr (by decide +kernel)

end Sample

-- ---------------------------------------------------------------------------
-- The book a purge leaves
-- ---------------------------------------------------------------------------

/-- Every entry is stored under its own key and agrees with the order it names. -/
def Consistent (s : State) : Prop :=
  ∀ (kk : String) (e : Orderbook), s.orderbook[kk]? = some e → kk = e.key ∧
    ∃ o, s.order[e.orderId]? = some o ∧ o.marketId = e.marketId ∧ o.side = e.side ∧
      o.price = e.price

instance (s : State) : Decidable (Consistent s) :=
  decidable_of_iff (∀ kv ∈ s.orderbook.toList, kv.1 = kv.2.key ∧
      (s.order[kv.2.orderId]?).any fun o =>
        decide (o.marketId = kv.2.marketId ∧ o.side = kv.2.side ∧ o.price = kv.2.price)) <| by
    simp only [Option.any_eq_true, decide_eq_true_eq]
    exact ⟨fun h kk e he => h (kk, e) (Store.mem_toList.mpr he),
      fun h kv hkv => h kv.1 kv.2 (Store.mem_toList.mp hkv)⟩

/-- From `s` to `s'`, no entry that is left names an order that went, and no entry went
whose order is left. -/
structure Tidy (s s' : State) : Prop where
  dangling : ∀ (kk : String) (e : Orderbook), s'.orderbook[kk]? = some e →
    ¬ (e.orderId ∈ s.order ∧ e.orderId ∉ s'.order)
  lost : ∀ (kk : String) (e : Orderbook), s.orderbook[kk]? = some e → e.orderId ∈ s'.order →
    kk ∈ s'.orderbook

/-- A purge key has two bars of its own, since it lacks the side. -/
theorem purgeKey_count (kv : String × Order) : (purgeKey kv).toList.count '|' =
    kv.2.marketId.toList.count '|' + kv.2.price.toList.count '|' + kv.1.toList.count '|' + 2 := by
  have hBar : "|".toList = ['|'] := rfl
  simp only [purgeKey, String.toList_append, List.count_append, hBar, List.count_singleton_self]
  omega

/-- An entry's key has three bars at least. -/
theorem key_count_pos (e : Orderbook) : 2 < e.key.toList.count '|' := by
  rw [Orderbook.key, orderbookKey]
  have hBar : "|".toList = ['|'] := rfl
  simp only [String.toList_append, List.count_append, hBar, List.count_singleton_self]
  omega

/-- An entry's own order never takes the entry along: its key has the side in it. -/
theorem purgeKey_own_ne {e : Orderbook} {o : Order} (hMarket : o.marketId = e.marketId)
    (hPrice : o.price = e.price) : e.key ≠ purgeKey (e.orderId, o) := by
  intro h
  have hLength := congrArg (fun t => t.toList.length) h
  rw [Orderbook.key, orderbookKey, purgeKey, hMarket, hPrice] at hLength
  have hBar : "|".toList.length = 1 := rfl
  simp only [String.toList_append, List.length_append, hBar] at hLength
  omega

section Tidy

variable {s : State} {kvs : List (String × Order)}

theorem mem_purgeAll {id : String} :
    id ∈ (purgeAll s kvs).order ↔ id ∈ s.order ∧ id ∉ kvs.map Prod.fst := by
  rw [Store.mem_iff, Store.mem_iff, get?_order_purgeAll]
  by_cases hGone : id ∈ kvs.map Prod.fst <;> simp [hGone]

/-- A tidy purge strikes the entries of the orders it removes. -/
theorem tidy_purgeAll_iff (h : Consistent s) : Tidy s (purgeAll s kvs) ↔
    ∀ (kk : String) (e : Orderbook), s.orderbook[kk]? = some e →
      (e.orderId ∈ kvs.map Prod.fst ↔ kk ∈ kvs.map purgeKey) := by
  constructor
  · intro hTidy kk e he
    obtain ⟨-, o, ho, -⟩ := h kk e he
    have hStored : e.orderId ∈ s.order := Store.mem_iff.mpr ⟨o, ho⟩
    constructor
    · intro hGone
      by_contra hStays
      have hLeft : (purgeAll s kvs).orderbook[kk]? = some e := by
        rw [get?_book_purgeAll, if_neg hStays, he]
      exact hTidy.dangling kk e hLeft ⟨hStored, fun hMem => (mem_purgeAll.mp hMem).2 hGone⟩
    · intro hStruck
      by_contra hKept
      obtain ⟨e', he'⟩ := Store.mem_iff.mp
        (hTidy.lost kk e he (mem_purgeAll.mpr ⟨hStored, hKept⟩))
      rw [get?_book_purgeAll, if_pos hStruck] at he'
      cases he'
  · intro hIff
    constructor
    · rintro kk e he ⟨hStored, hGone⟩
      rw [get?_book_purgeAll] at he
      split at he
      · cases he
      next hStays =>
        refine hGone (mem_purgeAll.mpr ⟨hStored, ?_⟩)
        exact fun hMem => hStays ((hIff kk e he).mp hMem)
    · intro kk e he hKept
      have hStays : kk ∉ kvs.map purgeKey :=
        fun hStruck => (mem_purgeAll.mp hKept).2 ((hIff kk e he).mpr hStruck)
      exact Store.mem_iff.mpr ⟨e, by rw [get?_book_purgeAll, if_neg hStays, he]⟩

end Tidy

/-- **What a purge does to the book.** It leaves no dangling entry, and strikes no entry of
an order that stays, exactly when the entries that name an order it removes are those that
lie under a purge key. An entry does not lie under the purge key of its own order; so where
the orders it removes are written without bars, no entry may name any of them. -/
theorem purge_tidy_iff {s : State} (h : Consistent s) (limit : Nat) :
    (Tidy s (Keeper.batchCleanFilledOrders s limit).1 ↔
      ∀ (kk : String) (e : Orderbook), s.orderbook[kk]? = some e →
        (e.orderId ∈ (purged s limit).map Prod.fst ↔ kk ∈ (purged s limit).map purgeKey)) ∧
    (∀ (kk : String) (e : Orderbook) (o : Order), s.orderbook[kk]? = some e →
      s.order[e.orderId]? = some o → kk ≠ purgeKey (e.orderId, o)) ∧
    ((∀ kv ∈ purged s limit, '|' ∉ kv.1.toList ∧ '|' ∉ kv.2.marketId.toList ∧
        '|' ∉ kv.2.price.toList) →
      (Tidy s (Keeper.batchCleanFilledOrders s limit).1 ↔
        ∀ (kk : String) (e : Orderbook), s.orderbook[kk]? = some e →
          e.orderId ∉ (purged s limit).map Prod.fst)) := by
  rw [purge_eq]
  refine ⟨tidy_purgeAll_iff h, ?_, ?_⟩
  · intro kk e o he ho
    obtain ⟨rfl, o', ho', hMarket, -, hPrice⟩ := h kk e he
    obtain rfl : o = o' := Option.some.inj (ho.symm.trans ho')
    exact purgeKey_own_ne hMarket hPrice
  · intro hBars
    refine (tidy_purgeAll_iff h).trans ?_
    refine forall_congr' fun kk => forall_congr' fun e => forall_congr' fun he => ?_
    -- a purge key of these orders has two bars, an entry's key at least three
    have hStays : kk ∉ (purged s limit).map purgeKey := by
      intro hStruck
      obtain ⟨kv, hkv, hKey⟩ := List.mem_map.mp hStruck
      obtain ⟨hId, hMarket, hPrice⟩ := hBars kv hkv
      have hCount := purgeKey_count kv
      rw [hKey, (h kk e he).1, List.count_eq_zero_of_not_mem hId,
        List.count_eq_zero_of_not_mem hMarket, List.count_eq_zero_of_not_mem hPrice] at hCount
      have hMore := key_count_pos e
      omega
    exact iff_false_right hStays

section Sample

open Ganc.Dex.Sample Ganc.Sample

/-- Alice writes into the record of her ask that it is filled. -/
def aliceCloses : Op := .deliver (block 3) (.updateOrder ⟨alice, "uatom-uusdt-2-cosmos",
  "uatom-uusdt", "LIMIT", "SELL", "4", "9", "9", "", "", "FILLED"⟩)

/-- Carol creates a filled order whose purge key is the key of Alice's entry. -/
def carolAims : Op := .deliver (block 3) (.createOrder ⟨carol, "4|uatom-uusdt-2-cosmos",
  "uatom-uusdt", "LIMIT", "BUY", "SELL", "1", "1", "", "", "FILLED"⟩)

/-- A trade fills Bob's order, which is then purged, and strikes no entry. -/
theorem purge_tidy_iff_sample :
    Tidy (keeper.reach bank trade) (Keeper.batchCleanFilledOrders (keeper.reach bank trade) 5).1 ∧
    (Keeper.batchCleanFilledOrders (keeper.reach bank trade) 5).2 = 1 := by
  have hConsistent : Consistent (keeper.reach bank trade) := by decide +kernel
  refine ⟨((purge_tidy_iff hConsistent 5).2.2 (by decide +kernel)).mpr ?_, by decide +kernel⟩
  intro kk e he
  have hNone : ∀ kv ∈ (keeper.reach bank trade).orderbook.toList,
      kv.2.orderId ∉ (purged (keeper.reach bank trade) 5).map Prod.fst := by decide +kernel
  exact hNone (kk, e) (Store.mem_toList.mpr he)

/-- **The purge misses the entry, or hits another's.** Alice's order goes and her entry
stays; Carol's order goes and takes the entry of Alice's along. -/
theorem purge_untidy :
    (Consistent (keeper.reach bank (aliceAsks ++ [aliceCloses])) ∧
      ¬ Tidy (keeper.reach bank (aliceAsks ++ [aliceCloses]))
        (Keeper.batchCleanFilledOrders (keeper.reach bank (aliceAsks ++ [aliceCloses])) 5).1) ∧
    Consistent (keeper.reach bank (aliceAsks ++ [carolAims])) ∧
      ¬ Tidy (keeper.reach bank (aliceAsks ++ [carolAims]))
        (Keeper.batchCleanFilledOrders (keeper.reach bank (aliceAsks ++ [carolAims])) 5).1 := by
  obtain ⟨hBefore, hEntry, hStored, hGone⟩ :
      Consistent (keeper.reach bank (aliceAsks ++ [aliceCloses])) ∧
      (Keeper.batchCleanFilledOrders
        (keeper.reach bank (aliceAsks ++ [aliceCloses])) 5).1.orderbook[
          "uatom-uusdt|SELL|4|uatom-uusdt-2-cosmos"]? =
        some ⟨"", "uatom-uusdt", "SELL", "4", "uatom-uusdt-2-cosmos"⟩ ∧
      "uatom-uusdt-2-cosmos" ∈ (keeper.reach bank (aliceAsks ++ [aliceCloses])).order ∧
      "uatom-uusdt-2-cosmos" ∉ (Keeper.batchCleanFilledOrders
        (keeper.reach bank (aliceAsks ++ [aliceCloses])) 5).1.order := by decide +kernel
  obtain ⟨hBefore', hEntry', hLeft, hStruck⟩ :
      Consistent (keeper.reach bank (aliceAsks ++ [carolAims])) ∧
      (keeper.reach bank (aliceAsks ++ [carolAims])).orderbook[
          "uatom-uusdt|SELL|4|uatom-uusdt-2-cosmos"]? =
        some ⟨"", "uatom-uusdt", "SELL", "4", "uatom-uusdt-2-cosmos"⟩ ∧
      "uatom-uusdt-2-cosmos" ∈ (Keeper.batchCleanFilledOrders
        (keeper.reach bank (aliceAsks ++ [carolAims])) 5).1.order ∧
      "uatom-uusdt|SELL|4|uatom-uusdt-2-cosmos" ∉ (Keeper.batchCleanFilledOrders
        (keeper.reach bank (aliceAsks ++ [carolAims])) 5).1.orderbook := by decide +kernel
  refine ⟨⟨hBefore, ?_⟩, hBefore', ?_⟩
  · intro hTidy
    exact hTidy.dangling _ _ hEntry ⟨hStored, hGone⟩
  · intro hTidy
    exact hStruck (hTidy.lost _ _ hEntry' hLeft)

end Sample

end Ganc.Dex
