import Ganc.Lib.Delimited
import Ganc.Dex.StepSpec

/-!
# x/dex — what a key says about its fields

The stores are keyed by strings built from fields with `|` or `-` between
them. An order id determines its market, height and creator slice whatever
the market id looks like, because the slice has a fixed length and a height
is all digits. The book key of an order that `PlaceOrder` has named holds the
market id twice, and so determines its fields for any market id
(`placedKey_inj`); it is never the key the purge looks for, which has an even
number of bars before the height (`KeyFields.purgeKey_ne_key`).
-/

namespace Ganc.Dex

-- ---------------------------------------------------------------------------
-- Market ids
-- ---------------------------------------------------------------------------

/-- A base denom without a dash can be read back from the id of its pair. -/
theorem pairId_inj {base base' quote quote' : String} (hBase : '-' ∉ base.toList)
    (hBase' : '-' ∉ base'.toList) (h : pairId base quote = pairId base' quote') :
    base = base' ∧ quote = quote' := by
  have hList := congrArg String.toList h
  simp only [pairId, String.toList_append, List.append_assoc] at hList
  obtain ⟨hHead, hTail⟩ := Delimited.cons_inj_left hBase hBase' hList
  exact ⟨String.toList_inj.mp hHead, String.toList_inj.mp hTail⟩

-- ---------------------------------------------------------------------------
-- Order ids
-- ---------------------------------------------------------------------------

/-- The fields of an order id whose slices are equally long. -/
theorem orderIdOf_inj {m m' c c' : String} {n n' : Nat}
    (hLength : c.toList.length = c'.toList.length)
    (h : orderIdOf m n c = orderIdOf m' n' c') : m = m' ∧ n = n' ∧ c = c' := by
  have hList := congrArg String.toList h
  simp only [orderIdOf, String.toList_append] at hList
  obtain ⟨hHead, hSlice⟩ := List.append_inj' hList hLength
  have hHead := (List.append_inj' hHead rfl).1
  rw [List.append_assoc, List.append_assoc] at hHead
  obtain ⟨hMarket, hHeight⟩ :=
    Delimited.cons_inj_right (Delimited.dash_notMem_toString n)
      (Delimited.dash_notMem_toString n') hHead
  exact ⟨String.toList_inj.mp hMarket, Delimited.toString_inj (String.toList_inj.mp hHeight),
    String.toList_inj.mp hSlice⟩

/-- The slice of an address has six characters. -/
theorem creatorHead_length {creator : String} (h : 6 ≤ creator.toList.length) :
    (creatorHead creator).toList.length = 6 := by
  rw [creatorHead, String.toList_ofList, List.length_take]
  omega

/-- An id that `PlaceOrder` gives to orders of the market. -/
def PlacedId (marketId id : String) : Prop :=
  ∃ height slice, slice.toList.length = 6 ∧ id = orderIdOf marketId height slice

/-- The id of a placed order is one of its market. -/
theorem MsgPlaceOrder.placedId {msg : MsgPlaceOrder} (h : 6 ≤ msg.creator.toList.length)
    (height : Nat) : PlacedId msg.marketId (msg.orderId height) :=
  ⟨height, creatorHead msg.creator, creatorHead_length h, rfl⟩

-- ---------------------------------------------------------------------------
-- Book keys
-- ---------------------------------------------------------------------------

/-- A key is its four parts with a bar between. -/
theorem orderbookKey_toList (m side p id : String) :
    (orderbookKey m side p id).toList =
      m.toList ++ '|' :: (side.toList ++ '|' :: (p.toList ++ '|' :: id.toList)) := by
  simp [orderbookKey, String.toList_append]

-- ---------------------------------------------------------------------------
-- The book keys of placed orders
-- ---------------------------------------------------------------------------

/-- What the book key of a placed order is made of. -/
structure KeyFields where
  marketId : String
  side : String
  price : String
  height : Nat
  slice : String
deriving DecidableEq, Repr

namespace KeyFields

/-- The id `PlaceOrder` gives the order. -/
def orderId (f : KeyFields) : String := orderIdOf f.marketId f.height f.slice

/-- The key `MatchOrders` stores its entry under. -/
def key (f : KeyFields) : String := orderbookKey f.marketId f.side f.price f.orderId

/-- A side, a price without bars, such as any integer literal, and six characters of the
creator. The market id may be any string. -/
structure WellFormed (f : KeyFields) : Prop where
  side : f.side = "BUY" ∨ f.side = "SELL"
  price : '|' ∉ f.price.toList
  slice : f.slice.toList.length = 6

/-- The side of a well-formed key holds no bar. -/
theorem WellFormed.bar_notMem_side {f : KeyFields} (h : f.WellFormed) : '|' ∉ f.side.toList := by
  rcases h.side with hBuy | hSell
  · rw [hBuy]
    decide
  · rw [hSell]
    decide

/-- A key without the height and the slice: the market id stands at both ends. -/
def frame (f : KeyFields) : List Char :=
  f.marketId.toList ++ '|' :: ((f.side.toList ++ '|' :: (f.price.toList ++ ['|'])) ++
    f.marketId.toList)

/-- The market id ends where the same text ends that the key ends with. -/
theorem frame_inj {f f' : KeyFields} (h : f.WellFormed) (h' : f'.WellFormed)
    (hFrame : f.frame = f'.frame) :
    f.marketId = f'.marketId ∧ f.side = f'.side ∧ f.price = f'.price := by
  have hCount : ∀ {g : KeyFields}, g.WellFormed →
      (g.side.toList ++ '|' :: (g.price.toList ++ ['|'])).count '|' = 2 := by
    intro g hg
    rw [List.count_append, List.count_cons_self, List.count_append,
      List.count_eq_zero_of_not_mem hg.bar_notMem_side, List.count_eq_zero_of_not_mem hg.price]
    rfl
  obtain ⟨hMarket, hMiddle⟩ := Delimited.echo_inj ((hCount h).trans (hCount h').symm) hFrame
  obtain ⟨hSide, hPrice⟩ :=
    Delimited.cons_inj_left h.bar_notMem_side h'.bar_notMem_side hMiddle
  exact ⟨String.toList_inj.mp hMarket, String.toList_inj.mp hSide,
    String.toList_inj.mp (List.append_cancel_right hPrice)⟩

/-- An order id with the market id replaced by the frame. -/
theorem key_eq (f : KeyFields) :
    f.key = orderIdOf (orderbookKey f.marketId f.side f.price f.marketId) f.height f.slice := by
  simp [key, orderId, orderbookKey, orderIdOf, String.append_assoc]

/-- The frame is the key with the market in place of the id. -/
theorem frame_toList (f : KeyFields) :
    (orderbookKey f.marketId f.side f.price f.marketId).toList = f.frame := by
  simp [frame, orderbookKey_toList]

/-- The key of a well-formed order says all its fields. -/
theorem key_inj {f f' : KeyFields} (h : f.WellFormed) (h' : f'.WellFormed) (hKey : f.key = f'.key) :
    f.marketId = f'.marketId ∧ f.side = f'.side ∧ f.price = f'.price ∧
      f.height = f'.height ∧ f.slice = f'.slice := by
  rw [key_eq, key_eq] at hKey
  obtain ⟨hFrame, hHeight, hSlice⟩ := orderIdOf_inj (h.slice.trans h'.slice.symm) hKey
  have hList := congrArg String.toList hFrame
  rw [frame_toList, frame_toList] at hList
  obtain ⟨hMarket, hSide, hPrice⟩ := frame_inj h h' hList
  exact ⟨hMarket, hSide, hPrice, hHeight, hSlice⟩

/-- The book key the purge looks for: it has a price where a book key has a side. -/
def purgeKey (f : KeyFields) : String := f.marketId ++ "|" ++ f.price ++ "|" ++ f.orderId

/-- A purge key lies on no entry of a placed order: one of the two has an even number of
bars before the height, the other an odd one. -/
theorem purgeKey_ne_key {f f' : KeyFields} (h : f.WellFormed) (h' : f'.WellFormed) :
    f.purgeKey ≠ f'.key := by
  intro hSame
  have hPurge : f.purgeKey =
      orderIdOf (f.marketId ++ "|" ++ f.price ++ "|" ++ f.marketId) f.height f.slice := by
    simp [purgeKey, orderId, orderIdOf, String.append_assoc]
  rw [hPurge, key_eq] at hSame
  obtain ⟨hFront, -, -⟩ := orderIdOf_inj (h.slice.trans h'.slice.symm) hSame
  have hCount := congrArg (fun t => t.toList.count '|') hFront
  have hBar : "|".toList = ['|'] := rfl
  simp only [orderbookKey, String.toList_append, List.count_append, hBar,
    List.count_singleton_self, List.count_eq_zero_of_not_mem h.price,
    List.count_eq_zero_of_not_mem h'.price,
    List.count_eq_zero_of_not_mem h'.bar_notMem_side] at hCount
  omega

end KeyFields

section Placed

variable {m m' side side' price price' id id' : String}

/-- A book key says which placed order it belongs to. -/
theorem orderbookKey_inj (hSide : side = "BUY" ∨ side = "SELL")
    (hSide' : side' = "BUY" ∨ side' = "SELL") (hPrice : '|' ∉ price.toList)
    (hPrice' : '|' ∉ price'.toList) (hId : PlacedId m id) (hId' : PlacedId m' id')
    (h : orderbookKey m side price id = orderbookKey m' side' price' id') : id = id' := by
  obtain ⟨height, slice, hSlice, rfl⟩ := hId
  obtain ⟨height', slice', hSlice', rfl⟩ := hId'
  have hFormed : (KeyFields.mk m side price height slice).WellFormed := ⟨hSide, hPrice, hSlice⟩
  have hFormed' : (KeyFields.mk m' side' price' height' slice').WellFormed :=
    ⟨hSide', hPrice', hSlice'⟩
  obtain ⟨rfl, -, -, rfl, rfl⟩ := KeyFields.key_inj hFormed hFormed' h
  rfl

/-- The key the purge looks for belongs to no placed order. -/
theorem purgeKey_ne (hSide' : side' = "BUY" ∨ side' = "SELL") (hPrice : '|' ∉ price.toList)
    (hPrice' : '|' ∉ price'.toList) (hId : PlacedId m id) (hId' : PlacedId m' id') :
    m ++ "|" ++ price ++ "|" ++ id ≠ orderbookKey m' side' price' id' := by
  obtain ⟨height, slice, hSlice, rfl⟩ := hId
  obtain ⟨height', slice', hSlice', rfl⟩ := hId'
  have hFormed : (KeyFields.mk m "BUY" price height slice).WellFormed :=
    ⟨.inl rfl, hPrice, hSlice⟩
  have hFormed' : (KeyFields.mk m' side' price' height' slice').WellFormed :=
    ⟨hSide', hPrice', hSlice'⟩
  have hne := KeyFields.purgeKey_ne_key hFormed hFormed'
  rwa [KeyFields.purgeKey, KeyFields.key] at hne

end Placed

/-- **The key of a placed order is its own.** Two well-formed orders with the same book key
agree in every field of it, whatever their markets are called. So what is stored or removed
under the key of the one leaves the entry of the other alone. -/
theorem placedKey_inj {f f' : KeyFields} (h : f.WellFormed) (h' : f'.WellFormed) :
    (f.key = f'.key → f.marketId = f'.marketId ∧ f.side = f'.side ∧ f.price = f'.price ∧
      f.height = f'.height ∧ f.slice = f'.slice) ∧
    (f ≠ f' → ∀ (book : Store String Orderbook) (e : Orderbook),
      (book.insert f.key e)[f'.key]? = book[f'.key]? ∧
      (book.erase f.key)[f'.key]? = book[f'.key]?) := by
  refine ⟨KeyFields.key_inj h h', ?_⟩
  intro hne book e
  have hKey : f'.key ≠ f.key := by
    intro hSame
    have hAll := KeyFields.key_inj h h' hSame.symm
    refine hne ?_
    cases f
    cases f'
    rw [KeyFields.mk.injEq]
    exact hAll
  exact ⟨Store.get?_insert_ne hKey, Store.get?_erase_ne hKey⟩

/-- A market may be called like the beginning of another market's keys. -/
theorem placedKey_inj_sample :
    (KeyFields.mk "atom" "SELL" "4" 2 "cosmos").key ≠
      (KeyFields.mk "atom|SELL|4|atom-2" "SELL" "4" 2 "cosmos").key := by
  intro hKey
  have hFormed : (KeyFields.mk "atom" "SELL" "4" 2 "cosmos").WellFormed :=
    ⟨.inr rfl, by decide, by decide⟩
  have hFormed' : (KeyFields.mk "atom|SELL|4|atom-2" "SELL" "4" 2 "cosmos").WellFormed :=
    ⟨.inr rfl, by decide, by decide⟩
  have hMarket : "atom" = "atom|SELL|4|atom-2" := ((placedKey_inj hFormed hFormed').1 hKey).1
  exact absurd hMarket (by decide)

end Ganc.Dex
