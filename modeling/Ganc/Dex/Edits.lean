import Ganc.Dex.LifeCycle
import Ganc.Dex.LimitPrice

/-!
# x/dex — order edits and the book

`CreateOrder`, `UpdateOrder` and `DeleteOrder` write the order store and nothing
else; the book keeps a copy of four fields of an order at rest, and the escrow
stands for a fifth. `Agreeing` is what the two stores have to do with each other
in any state, reachable or not, and `order_edit_iff` says which accepted edits
keep it: those of orders that no entry names, and updates that stay `Within` the
record they replace.
-/

namespace Ganc.Dex

variable {k : Keeper}

-- ---------------------------------------------------------------------------
-- Agreement
-- ---------------------------------------------------------------------------

/-- The order is at rest under the entry, with something remaining. -/
structure Rests (k : Keeper) (o : Order) (e : Orderbook) : Prop where
  market : o.marketId = e.marketId
  side : o.side = e.side
  price : o.price = e.price
  status : o.status = "PARTIAL"
  remaining : ∃ q r, k.sdk.newIntFromString o.quantity = some q ∧
    k.sdk.newIntFromString o.remaining = some r ∧ 0 < r ∧ r ≤ q

/-- Every entry names an order that rests under it. -/
def Agreeing (k : Keeper) (s : State) : Prop :=
  ∀ (kk : String) (e : Orderbook), s.orderbook[kk]? = some e →
    ∃ o, s.order[e.orderId]? = some o ∧ Rests k o e

/-- No order of an entry has more remaining in `s'` than in `s`, unless coins were paid
in. -/
def NoGain (k : Keeper) (s s' : State) : Prop :=
  ∀ (kk : String) (e : Orderbook) (o o' : Order), s'.orderbook[kk]? = some e →
    s.order[e.orderId]? = some o → s'.order[e.orderId]? = some o' →
    k.value o'.remaining ≤ k.value o.remaining ∨ ∃ d, s.bank.held d < s'.bank.held d

/-- The agreement that trades keep is one. -/
theorem Agree.agreeing {s : State} (h : Agree k s) : Agreeing k s := by
  intro kk e he
  obtain ⟨-, o, ho, hPartial, hEntry⟩ := h.entry kk e he
  obtain ⟨q, r, hLive⟩ := h.order e.orderId o ho
  have hOpen := (hLive.partial_iff.mp hPartial).1
  have h0 := hLive.nonneg
  exact ⟨o, ho, by rw [hEntry]; rfl, by rw [hEntry]; rfl, by rw [hEntry]; rfl, hPartial, q, r,
    hLive.quantity, hLive.remaining, by omega, hLive.le⟩

-- ---------------------------------------------------------------------------
-- Edits
-- ---------------------------------------------------------------------------

/-- The messages that write an order record by hand. -/
def Edit : Msg → Prop
  | .createOrder _ | .updateOrder _ | .deleteOrder _ => True
  | _ => False

/-- A new record that keeps what the book knows of the old one, is still at rest, and has no
more remaining. -/
structure Within (k : Keeper) (old new : Order) : Prop where
  market : new.marketId = old.marketId
  side : new.side = old.side
  price : new.price = old.price
  status : new.status = "PARTIAL"
  remaining : ∃ q r, k.sdk.newIntFromString new.quantity = some q ∧
    k.sdk.newIntFromString new.remaining = some r ∧ 0 < r ∧ r ≤ q ∧ r ≤ k.value old.remaining

instance (old new : Order) : Decidable (Within k old new) :=
  decidable_of_iff (new.marketId = old.marketId ∧ new.side = old.side ∧ new.price = old.price ∧
      new.status = "PARTIAL" ∧ (k.sdk.newIntFromString new.quantity).any fun q =>
        (k.sdk.newIntFromString new.remaining).any fun r =>
          decide (0 < r ∧ r ≤ q ∧ r ≤ k.value old.remaining))
    ⟨fun ⟨hMarket, hSide, hPrice, hStatus, hRemaining⟩ =>
      ⟨hMarket, hSide, hPrice, hStatus, by simpa [Option.any_eq_true] using hRemaining⟩,
      fun h => ⟨h.market, h.side, h.price, h.status,
        by simpa [Option.any_eq_true] using h.remaining⟩⟩

/-- The edits that the book can bear. -/
def SafeEdit (k : Keeper) (s : State) : Msg → Prop
  | .updateOrder msg => ∀ e ∈ s.entries, e.orderId = msg.index →
      ∀ old ∈ s.order[msg.index]?, Within k old msg.toOrder
  | .deleteOrder msg => ∀ e ∈ s.entries, e.orderId ≠ msg.index
  | _ => True

instance (s : State) : DecidablePred (SafeEdit k s)
  | .updateOrder msg => inferInstanceAs (Decidable (∀ e ∈ s.entries, e.orderId = msg.index →
      ∀ old ∈ s.order[msg.index]?, Within k old msg.toOrder))
  | .deleteOrder msg => inferInstanceAs (Decidable (∀ e ∈ s.entries, e.orderId ≠ msg.index))
  | .updateParams _ | .createMarket _ | .updateMarket _ | .deleteMarket _ | .createOrder _
  | .registerPairs _ | .placeOrder _ | .cleanOrders _ => isTrue trivial

section Edit

variable {s : State}

/-- A write under an id that no entry names. -/
theorem Agreeing.elsewhere {s' : State} (h : Agreeing k s) {id : String}
    (hBook : s'.orderbook = s.orderbook) (hOther : ∀ id', id' ≠ id → s'.order[id']? = s.order[id']?)
    (hUnnamed : ∀ e ∈ s.entries, e.orderId ≠ id) : Agreeing k s' ∧ NoGain k s s' := by
  have hSame : ∀ (kk : String) (e : Orderbook), s'.orderbook[kk]? = some e →
      s.orderbook[kk]? = some e ∧ s'.order[e.orderId]? = s.order[e.orderId]? := by
    intro kk e he
    rw [hBook] at he
    exact ⟨he, hOther _ (hUnnamed e (mem_entries.mpr ⟨kk, he⟩))⟩
  refine ⟨?_, ?_⟩
  · intro kk e he
    obtain ⟨he₀, hOrder⟩ := hSame kk e he
    rw [hOrder]
    exact h kk e he₀
  · intro kk e o o' he ho ho'
    rw [(hSame kk e he).2, ho] at ho'
    exact .inl (Option.some.inj ho' ▸ le_refl _)

/-- What an update of an order at rest has to be like. -/
theorem Agreeing.update_iff (h : Agreeing k s) {msg : MsgUpdateOrder} {old : Order}
    (hOld : s.order[msg.index]? = some old) :
    (Agreeing k { s with order := s.order.insert msg.index msg.toOrder } ∧
      NoGain k s { s with order := s.order.insert msg.index msg.toOrder }) ↔
    SafeEdit k s (.updateOrder msg) := by
  have hNew : (s.order.insert msg.index msg.toOrder)[msg.index]? = some msg.toOrder :=
    Std.ExtTreeMap.getElem?_insert_self
  constructor
  · rintro ⟨hAgreeing, hGain⟩ e he hId old' hOld'
    obtain rfl : old' = old := Option.some.inj (hOld'.symm.trans hOld)
    obtain ⟨kk, hStored⟩ := mem_entries.mp he
    obtain ⟨o, ho, hRests⟩ := h kk e hStored
    obtain ⟨o', ho', hRests'⟩ := hAgreeing kk e hStored
    rw [hId] at ho ho'
    obtain rfl : o = old' := Option.some.inj (ho.symm.trans hOld)
    obtain rfl : o' = msg.toOrder := Option.some.inj (ho'.symm.trans hNew)
    obtain ⟨q, r, hq, hr, hPos, hle⟩ := hRests'.remaining
    refine ⟨hRests'.market.trans hRests.market.symm, hRests'.side.trans hRests.side.symm,
      hRests'.price.trans hRests.price.symm, hRests'.status, q, r, hq, hr, hPos, hle, ?_⟩
    rcases hGain kk e o msg.toOrder hStored (hId ▸ ho) (hId ▸ ho') with hLe | ⟨d, hPaid⟩
    · rwa [Keeper.value_eq hr] at hLe
    · exact absurd hPaid (lt_irrefl _)
  · intro hSafe
    refine ⟨?_, ?_⟩
    · intro kk e he
      obtain ⟨o, ho, hRests⟩ := h kk e he
      by_cases hId : e.orderId = msg.index
      · have hWithin := hSafe e (mem_entries.mpr ⟨kk, he⟩) hId old hOld
        obtain rfl : o = old := Option.some.inj (ho.symm.trans (hId ▸ hOld))
        obtain ⟨q, r, hq, hr, hPos, hle, -⟩ := hWithin.remaining
        refine ⟨msg.toOrder, by rw [hId]; exact hNew, ?_⟩
        exact ⟨hWithin.market.trans hRests.market, hWithin.side.trans hRests.side,
          hWithin.price.trans hRests.price, hWithin.status, q, r, hq, hr, hPos, hle⟩
      · exact ⟨o, (Store.get?_insert_ne hId).trans ho, hRests⟩
    · intro kk e o o' he ho ho'
      refine .inl ?_
      rw [Store.get?_insert] at ho'
      split at ho'
      next hId =>
        obtain rfl := Option.some.inj ho'
        have hWithin := hSafe e (mem_entries.mpr ⟨kk, he⟩) hId o (hId ▸ ho)
        obtain ⟨-, r, -, hr, -, -, hLe⟩ := hWithin.remaining
        rwa [Keeper.value_eq hr]
      next =>
        rw [ho] at ho'
        exact Option.some.inj ho' ▸ le_refl _

/-- A deletion takes the order of no entry. -/
theorem Agreeing.delete_iff (h : Agreeing k s) (id : String) :
    (Agreeing k { s with order := s.order.erase id } ∧
      NoGain k s { s with order := s.order.erase id }) ↔ ∀ e ∈ s.entries, e.orderId ≠ id := by
  constructor
  · rintro ⟨hAgreeing, -⟩ e he rfl
    obtain ⟨kk, hStored⟩ := mem_entries.mp he
    obtain ⟨o, ho, -⟩ := hAgreeing kk e hStored
    exact (Store.get?_of_erase ho).1 rfl
  · exact h.elsewhere rfl fun _ hne => Store.get?_erase_ne hne

end Edit

/-- **Edits and the book.** In an agreeing state an accepted edit of the order store leaves
an agreeing state in which no entry's order has gained remaining quantity exactly when it is
a safe one. -/
theorem order_edit_iff {ctx : Context} {s s' : State} {msg : Msg} {r : Response}
    (hEdit : Edit msg) (hAgreeing : Agreeing k s)
    (hAccepted : k.handle ctx s msg = .ok (s', r)) :
    (Agreeing k s' ∧ NoGain k s s') ↔ SafeEdit k s msg := by
  cases msg with
  | createOrder msg =>
    simp only [Keeper.handle, Keeper.createOrder, Result.bind_eq_ok, Result.pure_eq_ok,
      Prod.mk.injEq] at hAccepted
    obtain ⟨_, hCheck, rfl, -⟩ := hAccepted
    -- entries name stored orders, and the new one is not among them
    have hUnnamed : ∀ e ∈ s.entries, e.orderId ≠ msg.index := by
      rintro e he hId
      obtain ⟨kk, hStored⟩ := mem_entries.mp he
      obtain ⟨o, ho, -⟩ := hAgreeing kk e hStored
      rw [hId, checkFresh_eq_ok hCheck] at ho
      cases ho
    exact iff_of_true
      (hAgreeing.elsewhere rfl (fun _ hne => Store.get?_insert_ne hne) hUnnamed) trivial
  | updateOrder msg =>
    simp only [Keeper.handle, Keeper.updateOrder, Result.bind_eq_ok, Result.pure_eq_ok,
      Prod.mk.injEq] at hAccepted
    obtain ⟨_, hCheck, rfl, -⟩ := hAccepted
    obtain ⟨old, hOld, -⟩ := checkOwner_eq_ok hCheck
    exact hAgreeing.update_iff hOld
  | deleteOrder msg =>
    simp only [Keeper.handle, Keeper.deleteOrder, Result.bind_eq_ok, Result.pure_eq_ok,
      Prod.mk.injEq] at hAccepted
    obtain ⟨_, -, rfl, -⟩ := hAccepted
    exact hAgreeing.delete_iff msg.index
  | _ => exact hEdit.elim

section Sample

open Ganc.Dex.Sample Ganc.Sample

/-- Alice writes another quantity into her ask. -/
def asksFor (quantity : String) : MsgUpdateOrder := ⟨alice, "uatom-uusdt-2-cosmos",
  "uatom-uusdt", "LIMIT", "SELL", "4", quantity, quantity, "", "", "PARTIAL"⟩

/-- The state with Alice's ask agrees with its book. -/
theorem aliceAsks_agreeing : Agreeing keeper (keeper.reach bank aliceAsks) := by
  have hRun : WellFormedRun keeper bank aliceAsks := ⟨by decide +kernel, by decide +kernel⟩
  have hOps : ∀ op ∈ aliceAsks, RegularOp keeper op :=
    fun op hop => (hRun.op op hop).regular Sdk.sample_lawful
  exact (alive_run Sdk.sample_lawful hOps hRun.slots (alive_empty keeper bank)).agree.agreeing

/-- Alice may ask for less. -/
theorem order_edit_iff_sample : ∃ s' r,
    keeper.handle (block 3) (keeper.reach bank aliceAsks) (.updateOrder (asksFor "5")) =
      .ok (s', r) ∧
    Agreeing keeper s' ∧ NoGain keeper (keeper.reach bank aliceAsks) s' := by
  obtain ⟨⟨s', r⟩, hAccepted⟩ := Result.exists_of_isOk (x := keeper.handle (block 3)
    (keeper.reach bank aliceAsks) (.updateOrder (asksFor "5"))) (by decide +kernel)
  have hEdit : Edit (.updateOrder (asksFor "5")) := trivial
  exact ⟨s', r, hAccepted,
    (order_edit_iff hEdit aliceAsks_agreeing hAccepted).mpr (by decide +kernel)⟩

/-- **The book is left behind.** Alice may also delete her order under its entry, or write a
quantity into it that she has not paid for. -/
theorem order_edit_broken :
    Agreeing keeper (keeper.reach bank aliceAsks) ∧
    (∃ s' r, keeper.handle (block 3) (keeper.reach bank aliceAsks)
        (.deleteOrder ⟨alice, "uatom-uusdt-2-cosmos"⟩) = .ok (s', r) ∧ ¬ Agreeing keeper s') ∧
    ∃ s' r, keeper.handle (block 3) (keeper.reach bank aliceAsks)
        (.updateOrder (asksFor "900")) = .ok (s', r) ∧
      ¬ NoGain keeper (keeper.reach bank aliceAsks) s' := by
  have hCheck : keeper.checkOwner (keeper.reach bank aliceAsks).order Order.creator alice
      "uatom-uusdt-2-cosmos" = .ok () := by decide +kernel
  have hEntry : (keeper.reach bank aliceAsks).orderbook[
      "uatom-uusdt|SELL|4|uatom-uusdt-2-cosmos"]? =
      some ⟨"", "uatom-uusdt", "SELL", "4", "uatom-uusdt-2-cosmos"⟩ := by decide +kernel
  have hNine : ((keeper.reach bank aliceAsks).order["uatom-uusdt-2-cosmos"]?.map fun o =>
      keeper.value o.remaining) = some 9 := by decide +kernel
  obtain ⟨o, ho, hRemaining⟩ := Option.map_eq_some_iff.mp hNine
  refine ⟨aliceAsks_agreeing, ⟨_, _, Result.bind_eq_ok.mpr ⟨(), hCheck, rfl⟩, ?_⟩,
    ⟨_, _, Result.bind_eq_ok.mpr ⟨(), hCheck, rfl⟩, ?_⟩⟩
  · intro hAgreeing
    obtain ⟨_, hStored, -⟩ := hAgreeing _ _ hEntry
    exact (Store.get?_of_erase hStored).1 rfl
  · intro hGain
    rcases hGain _ _ o (asksFor "900").toOrder hEntry ho
      Std.ExtTreeMap.getElem?_insert_self with hLe | ⟨d, hPaid⟩
    · rw [hRemaining] at hLe
      exact absurd hLe (by decide +kernel)
    · exact absurd hPaid (lt_irrefl _)

end Sample

end Ganc.Dex
