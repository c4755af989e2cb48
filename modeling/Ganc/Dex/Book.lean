import Ganc.Dex.StepSpec

/-!
# x/dex — entries of the book, their orders and their weight

What the invariants about the book share:

* `Keyed` — every entry is stored under the key of its own fields;
* `Pending` — the candidates that a match has still to fill are in the book;
* `Distinct` — no two entries name one order;
* `bookTotal` — the sum over all entries of an amount that depends on the
  entry, its order and its market, and what a fill (`bookTotal_fill`) and an
  order coming to rest (`bookTotal_rest`) do to it.
-/

namespace Ganc.Dex

variable {k : Keeper}

-- ---------------------------------------------------------------------------
-- The entries and their keys
-- ---------------------------------------------------------------------------

/-- Every entry is stored under the key of its own fields. -/
def Keyed (s : State) : Prop :=
  ∀ (kk : String) (e : Orderbook), s.orderbook[kk]? = some e → kk = e.key

/-- The book of `s'` is part of the book of `s`. -/
def BookLE (s' s : State) : Prop :=
  ∀ (kk : String) (e : Orderbook), s'.orderbook[kk]? = some e → s.orderbook[kk]? = some e

theorem BookLE.refl (s : State) : BookLE s s := fun _ _ h => h

theorem BookLE.trans {a b c : State} (hab : BookLE a b) (hbc : BookLE b c) : BookLE a c :=
  fun kk e he => hbc kk e (hab kk e he)

theorem Keyed.mono {s s' : State} (h : Keyed s) (hle : BookLE s' s) : Keyed s' :=
  fun kk e he => h kk e (hle kk e he)

/-- A new entry under its own key keeps every entry under its own key. -/
theorem Keyed.insert {s : State} (h : Keyed s) (e : Orderbook) :
    Keyed { s with orderbook := s.orderbook.insert e.key e } := by
  intro kk e' he
  rw [show ({ s with orderbook := s.orderbook.insert e.key e } : State).orderbook =
    s.orderbook.insert e.key e from rfl, Store.get?_insert] at he
  split at he
  next hkk => rw [hkk, Option.some.inj he]
  next => exact h kk e' he

/-- A fill only removes from the book. -/
theorem Filled.bookLE {taker : Order} {takerId : String} {market : Market}
    {entry : Orderbook} {rem left r p q : Int} {s s' : State} {maker : Order}
    (h : Filled k taker takerId market entry rem s maker r p q left s') : BookLE s' s :=
  fun _ _ he => h.book_subset he

/-- A purge only removes from the book. -/
theorem purge_bookLE (s : State) (limit : Nat) :
    BookLE (Keeper.batchCleanFilledOrders s limit).1 s := by
  refine purge_induction (P := fun s' => BookLE s' s) ?_ limit (.refl s)
  intro s₁ orderId order _ _ hLE kk e he
  exact hLE kk e (Store.get?_of_erase he).2

-- ---------------------------------------------------------------------------
-- The candidates of a match
-- ---------------------------------------------------------------------------

/-- The candidates to come are different entries of the book. -/
structure Pending (rest : List Orderbook) (s : State) : Prop where
  nodup : rest.Nodup
  stored : ∀ e ∈ rest, s.orderbook[e.key]? = some e

/-- The next candidate is still in the book. -/
theorem Pending.head {entry : Orderbook} {rest : List Orderbook} {s : State}
    (h : Pending (entry :: rest) s) : s.orderbook[entry.key]? = some entry :=
  h.stored entry (List.mem_cons_self ..)

/-- A fill touches no entry but the one it fills. -/
theorem Pending.next {taker : Order} {takerId : String} {market : Market}
    {entry : Orderbook} {rest : List Orderbook} {rem left r p q : Int} {s s' : State}
    {maker : Order} (h : Pending (entry :: rest) s)
    (hFilled : Filled k taker takerId market entry rem s maker r p q left s') :
    Pending rest s' := by
  obtain ⟨hNotMem, hNodup⟩ := List.nodup_cons.mp h.nodup
  refine ⟨hNodup, ?_⟩
  intro e he
  have hStored := h.stored e (List.mem_cons_of_mem _ he)
  rw [hFilled.orderbook]
  split
  · have hKey : e.key ≠ entry.key := by
      intro hEq
      rw [hEq, h.head] at hStored
      exact hNotMem (Option.some.inj hStored ▸ he)
    rw [Store.get?_erase_ne hKey, hStored]
  · exact hStored

/-- Entries stored under the keys of their own fields are different. -/
theorem Keyed.nodup_entries {s : State} (h : Keyed s) :
    (s.orderbook.toList.map Prod.snd).Nodup := by
  refine List.Nodup.of_map Orderbook.key ?_
  have hKeys : (s.orderbook.toList.map Prod.snd).map Orderbook.key =
      s.orderbook.toList.map Prod.fst := by
    rw [List.map_map]
    exact List.map_congr_left fun kv hkv => (h kv.1 kv.2 (Store.mem_toList.mp hkv)).symm
  rw [hKeys]
  exact Store.nodup_keys_toList s.orderbook

/-- What is listed is what lies under its own key. -/
theorem Keyed.mem_entries {s : State} (h : Keyed s) {e : Orderbook} :
    e ∈ s.orderbook.toList.map Prod.snd ↔ s.orderbook[e.key]? = some e := by
  constructor
  · intro he
    obtain ⟨⟨kk, e⟩, hkv, rfl⟩ := List.mem_map.mp he
    have hStored := Store.mem_toList.mp hkv
    rwa [← h kk e hStored]
  · intro he
    exact List.mem_map.mpr ⟨(e.key, e), Store.mem_toList.mpr he, rfl⟩

/-- The candidates that `MatchOrders` starts from. -/
theorem Keyed.pending {s : State} (h : Keyed s) {cs fetched : List Orderbook}
    (hPerm : cs.Perm fetched) (hSub : fetched.Sublist (s.orderbook.toList.map Prod.snd)) :
    Pending cs s := by
  refine ⟨hPerm.nodup_iff.mpr (h.nodup_entries.sublist hSub), ?_⟩
  intro e he
  exact h.mem_entries.mp (hSub.subset (hPerm.subset he))

-- ---------------------------------------------------------------------------
-- Entries that name one order
-- ---------------------------------------------------------------------------

/-- No two entries name one order. -/
def Distinct (s : State) : Prop :=
  ∀ (k₁ k₂ : String) (e₁ e₂ : Orderbook), s.orderbook[k₁]? = some e₁ →
    s.orderbook[k₂]? = some e₂ → e₁.orderId = e₂.orderId → k₁ = k₂

theorem Distinct.mono {s s' : State} (h : Distinct s) (hle : BookLE s' s) : Distinct s' :=
  fun k₁ k₂ e₁ e₂ h₁ h₂ => h k₁ k₂ e₁ e₂ (hle k₁ e₁ h₁) (hle k₂ e₂ h₂)

/-- No entry names the order. -/
def Unnamed (s : State) (id : String) : Prop :=
  ∀ (kk : String) (e : Orderbook), s.orderbook[kk]? = some e → e.orderId ≠ id

theorem Unnamed.mono {s s' : State} {id : String} (h : Unnamed s id) (hle : BookLE s' s) :
    Unnamed s' id :=
  fun kk e he => h kk e (hle kk e he)

/-- The entry of an order that has none keeps the orders apart. -/
theorem Distinct.insert {s : State} (h : Distinct s) {e : Orderbook}
    (hNew : Unnamed s e.orderId) :
    Distinct { s with orderbook := s.orderbook.insert e.key e } := by
  intro k₁ k₂ e₁ e₂ h₁ h₂ hId
  simp only [Store.get?_insert] at h₁ h₂
  split at h₁ <;> split at h₂
  · simp_all
  · obtain rfl := Option.some.inj h₁
    exact absurd hId.symm (hNew k₂ e₂ h₂)
  · obtain rfl := Option.some.inj h₂
    exact absurd hId (hNew k₁ e₁ h₁)
  · exact h k₁ k₂ e₁ e₂ h₁ h₂ hId

-- ---------------------------------------------------------------------------
-- Sums over the book
-- ---------------------------------------------------------------------------

/-- An amount that depends on an entry, its order and its market; an entry
without one of the two has none. -/
def weigh (w : Orderbook → Order → Market → Int) (s : State) (e : Orderbook) : Int :=
  match s.order[e.orderId]?, s.market[e.marketId]? with
  | some order, some market => w e order market
  | _, _ => 0

/-- The sum of an amount over all entries of the book. -/
def bookTotal (w : Orderbook → Order → Market → Int) (s : State) : Int :=
  Store.total (fun _ e => weigh w s e) s.orderbook

variable {w : Orderbook → Order → Market → Int} {s s' : State}

/-- The weight of an entry whose order and market are there. -/
theorem weigh_eq {e : Orderbook} {order : Order} {market : Market}
    (hOrder : s.order[e.orderId]? = some order) (hMarket : s.market[e.marketId]? = some market) :
    weigh w s e = w e order market := by
  rw [weigh, hOrder, hMarket]

/-- The weight of an entry depends on its order and its market only. -/
theorem weigh_congr {e : Orderbook} (hOrder : s'.order[e.orderId]? = s.order[e.orderId]?)
    (hMarket : s'.market[e.marketId]? = s.market[e.marketId]?) : weigh w s' e = weigh w s e := by
  rw [weigh, weigh, hOrder, hMarket]

/-- The total depends on the entries and their weights only. -/
theorem bookTotal_congr (hBook : s'.orderbook = s.orderbook)
    (hWeigh : ∀ (kk : String) (e : Orderbook), s.orderbook[kk]? = some e →
      weigh w s' e = weigh w s e) : bookTotal w s' = bookTotal w s := by
  unfold bookTotal
  rw [hBook]
  exact Store.total_congr hWeigh

/-- A change to an order that no entry names changes no amount. -/
theorem bookTotal_unnamed {id : String} (hBook : s'.orderbook = s.orderbook)
    (hMarket : s'.market = s.market)
    (hOther : ∀ id', id' ≠ id → s'.order[id']? = s.order[id']?) (h : Unnamed s id) :
    bookTotal w s' = bookTotal w s := by
  refine bookTotal_congr hBook ?_
  intro kk e he
  exact weigh_congr (hOther _ (h kk e he)) (by rw [hMarket])

/-- A fill changes the amount of the entry it fills, and no other. -/
theorem bookTotal_fill {taker : Order} {takerId : String} {market : Market}
    {entry : Orderbook} {rem left r p q : Int} {maker : Order}
    (hFilled : Filled k taker takerId market entry rem s maker r p q left s')
    (hDistinct : Distinct s) (hEntry : s.orderbook[entry.key]? = some entry)
    (hMaker : s.order[entry.orderId]? = some maker)
    (hMarket : s.market[entry.marketId]? = some market) :
    bookTotal w s' + w entry maker market =
      bookTotal w s + if r - q = 0 then 0 else w entry (makerAfter maker r q) market := by
  have hOld : weigh w s entry = w entry maker market := weigh_eq hMaker hMarket
  have hNew : weigh w s' entry = w entry (makerAfter maker r q) market := by
    exact weigh_eq hFilled.stored_after (hFilled.markets ▸ hMarket)
  -- the other entries name other orders
  have hRest : Store.total (fun _ e => weigh w s' e) (s.orderbook.erase entry.key) =
      Store.total (fun _ e => weigh w s e) (s.orderbook.erase entry.key) := by
    refine Store.total_congr ?_
    intro kk e he
    obtain ⟨hne, he⟩ := Store.get?_of_erase he
    refine weigh_congr ?_ (by rw [hFilled.markets])
    refine hFilled.stored_other ?_
    exact fun hId => hne (hDistinct kk entry.key e entry he hEntry hId)
  have hBefore := Store.total_erase (fun _ e => weigh w s e) hEntry
  unfold bookTotal
  rw [hFilled.orderbook]
  split
  · rw [hRest]
    omega
  · have hAfter := Store.total_erase (fun _ e => weigh w s' e) hEntry
    omega

/-- An order that comes to rest adds its own amount to those of the entries it
does not replace. -/
theorem bookTotal_rest (w : Orderbook → Order → Market → Int) (e : Orderbook) (order : Order)
    {market : Market} (hNew : Unnamed s e.orderId)
    (hMarket : s.market[e.marketId]? = some market) :
    bookTotal w { s with
        orderbook := s.orderbook.insert e.key e
        order := s.order.insert e.orderId order } =
      w e order market + Store.total (fun _ e => weigh w s e) (s.orderbook.erase e.key) := by
  let s' : State := { s with
    orderbook := s.orderbook.insert e.key e
    order := s.order.insert e.orderId order }
  have hOwn : weigh w s' e = w e order market :=
    weigh_eq Std.ExtTreeMap.getElem?_insert_self hMarket
  have hRest : Store.total (fun _ e => weigh w s' e) (s.orderbook.erase e.key) =
      Store.total (fun _ e => weigh w s e) (s.orderbook.erase e.key) := by
    refine Store.total_congr fun kk e' he' => weigh_congr ?_ rfl
    exact Store.get?_insert_ne (hNew kk e' (Store.get?_of_erase he').2)
  calc bookTotal w s'
      = Store.total (fun _ e => weigh w s' e) ((s.orderbook.erase e.key).insert e.key e) := by
        rw [Store.insert_erase]
        rfl
    _ = weigh w s' e + Store.total (fun _ e => weigh w s' e) (s.orderbook.erase e.key) :=
        Store.total_insert_of_fresh _ _ Std.ExtTreeMap.getElem?_erase_self
    _ = w e order market + Store.total (fun _ e => weigh w s e) (s.orderbook.erase e.key) := by
        rw [hOwn, hRest]

theorem weigh_nonneg (hw : ∀ e order market, 0 ≤ w e order market) (e : Orderbook) :
    0 ≤ weigh w s e := by
  unfold weigh
  split
  · exact hw ..
  · exact le_refl 0

end Ganc.Dex
