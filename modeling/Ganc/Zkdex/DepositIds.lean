import Ganc.Lib.Delimited
import Ganc.Zkdex.Acceptance
import Ganc.Zkdex.Replicas

/-!
# x/zkdex — deposit ids

`Deposit` stores its record under an id made of the account, the height and
four random bytes, and does not look whether the id is in use. A `Draw` is what
an id is made of, and determines it (`Draw.id_injective`). The draws of a run
tell when its deposits are append-only: a deposit adds a record and leaves the
others alone exactly when its draw is new (`deposits_append_only_iff`).
-/

namespace Ganc.Zkdex

variable {k : Keeper}

-- ---------------------------------------------------------------------------
-- Draws
-- ---------------------------------------------------------------------------

/-- What goes into the id of a deposit. -/
structure Draw where
  creator : String
  height : Nat
  randBytes : Vector UInt8 4
deriving DecidableEq, Repr

def Draw.id (d : Draw) : String := depositIdOf d.creator d.height d.randBytes

theorem Draw.id_mk (creator : String) (height : Nat) (randBytes : Vector UInt8 4) :
    Draw.id ⟨creator, height, randBytes⟩ = depositIdOf creator height randBytes := rfl

/-- Each byte takes two digits. -/
theorem hexEncodeToString_length (src : List UInt8) :
    (hexEncodeToString src).toList.length = 2 * src.length := by
  rw [hexEncodeToString, String.toList_ofList]
  induction src with
  | nil => rfl
  | cons b src ih =>
    rw [List.flatMap_cons, List.length_append, ih, List.length_cons, List.length_cons,
      List.length_cons, List.length_nil]
    omega

/-- The bytes take eight characters and the height has no dash, so the three can
be read back. -/
theorem Draw.id_injective : Function.Injective Draw.id := by
  intro d d' h
  have hList := congrArg String.toList h
  simp only [Draw.id, depositIdOf, String.toList_append, List.append_assoc] at hList
  have hRest := List.append_cancel_left hList
  simp only [← List.append_assoc] at hRest
  obtain ⟨hHead, hHex⟩ := List.append_inj' hRest (by
    rw [hexEncodeToString_length, hexEncodeToString_length, Vector.length_toList,
      Vector.length_toList])
  have hHead := (List.append_inj' hHead rfl).1
  rw [List.append_assoc, List.append_assoc] at hHead
  obtain ⟨hCreator, hHeight⟩ := Delimited.cons_inj_right (Delimited.dash_notMem_toString d.height)
    (Delimited.dash_notMem_toString d'.height) hHead
  cases d
  cases d'
  rw [Draw.mk.injEq]
  exact ⟨String.toList_injective hCreator,
    Delimited.toString_inj (String.toList_injective hHeight),
    Vector.toList_inj.mp (hexEncodeToString_inj (String.toList_injective hHex))⟩

/-- What an accepted message has drawn. -/
def drawsOf (ctx : Context) : Msg → List Draw
  | .deposit req => match ctx.rand with
    | .ok randBytes => [⟨req.creator, ctx.height, randBytes⟩]
    | .error _ => []
  | _ => []

/-- The draws of the deposits a run accepts, in order. -/
abbrev Keeper.draws (k : Keeper) (bank : Bank) (ops : List Op) : List Draw :=
  Run.trace k.step (k.accepted drawsOf) (State.genesis bank) ops

-- ---------------------------------------------------------------------------
-- What the stores know of the draws
-- ---------------------------------------------------------------------------

structure Known (draws : List Draw) (s : State) : Prop where
  drawn : ∀ id, id ∈ s.depositRecords ↔ id ∈ draws.map Draw.id
  processed : ∀ id, id ∈ s.depositProcessed → id ∈ s.depositRecords
  size_le : s.depositRecords.size ≤ draws.length
  size_eq_iff : s.depositRecords.size = draws.length ↔ draws.Nodup

/-- The deposit records are all that the draws are about. -/
theorem Known.of_stores {draws : List Draw} {s s' : State} (h : Known draws s)
    (hRecords : ∀ id, id ∈ s'.depositRecords ↔ id ∈ s.depositRecords)
    (hSize : s'.depositRecords.size = s.depositRecords.size)
    (hProcessed : ∀ id, id ∈ s'.depositProcessed → id ∈ s.depositRecords) :
    Known (draws ++ []) s' := by
  rw [List.append_nil]
  refine ⟨?_, ?_, hSize ▸ h.size_le, hSize ▸ h.size_eq_iff⟩
  · exact fun id => (hRecords id).trans (h.drawn id)
  · exact fun id hid => (hRecords id).mpr (hProcessed id hid)

/-- A draw has a record exactly if it has been made. -/
theorem Known.mem_iff {draws : List Draw} {s : State} (h : Known draws s) {d : Draw} :
    d.id ∈ s.depositRecords ↔ d ∈ draws :=
  (h.drawn d.id).trans (List.mem_map_of_injective Draw.id_injective)

/-- A deposit makes its draw. -/
theorem Known.deposit {draws : List Draw} {s : State} (h : Known draws s) (d : Draw)
    (record : DepositRecord) (bank : Bank) :
    Known (draws ++ [d])
      { s with bank := bank, depositRecords := s.depositRecords.insert d.id record } := by
  have hKeys : ∀ id, id ∈ s.depositRecords.insert d.id record ↔
      id ∈ (draws ++ [d]).map Draw.id := by
    intro id
    rw [Store.mem_insert, h.drawn, List.map_append, List.mem_append, List.map_singleton,
      List.mem_singleton, or_comm]
  have hProcessed : ∀ id, id ∈ s.depositProcessed → id ∈ s.depositRecords.insert d.id record :=
    fun id hid => Store.mem_insert.mpr (.inr (h.processed id hid))
  have hLe := h.size_le
  have hEq := h.size_eq_iff
  by_cases hOld : d ∈ draws
  · have hSize := Store.size_insert_of_mem (v := record) (h.mem_iff.mpr hOld)
    refine ⟨hKeys, hProcessed, ?_, iff_of_false ?_ ?_⟩
    · rw [hSize, List.length_append]
      omega
    · rw [hSize, List.length_append, List.length_singleton]
      omega
    · intro hNodup
      exact (List.nodup_append.mp hNodup).2.2 d hOld d (List.mem_singleton_self d) rfl
  · have hSize := Store.size_insert_of_notMem (v := record) (mt h.mem_iff.mp hOld)
    refine ⟨hKeys, hProcessed, ?_, ?_⟩
    · rw [hSize, List.length_append, List.length_singleton]
      omega
    · rw [hSize, List.length_append, List.length_singleton, Nat.add_right_cancel_iff, hEq,
        List.nodup_append]
      constructor
      · intro hNodup
        refine ⟨hNodup, List.nodup_singleton d, ?_⟩
        rintro a ha b hb rfl
        exact hOld (List.mem_singleton.mp hb ▸ ha)
      · exact And.left

/-- Every step records the draws that it makes. -/
theorem known_step (draws : List Draw) (s : State) (op : Op) (h : Known draws s) :
    Known (draws ++ k.accepted drawsOf s op) (k.step s op) := by
  obtain ⟨ctx, msg⟩ := op
  refine accepted_induction (P := fun new s' => Known (draws ++ new) s')
    (h.of_stores (fun _ => Iff.rfl) rfl h.processed) ?_
  intro s' hEffect
  cases hEffect with
  | @deposit req _ _ randBytes bank hDeposited =>
    rw [drawsOf, hDeposited.drawn]
    exact h.deposit ⟨req.creator, ctx.height, randBytes⟩ _ bank
  | submitBatchProof hValid =>
    refine h.of_stores (fun _ => mem_markAll) (size_markAll _ _) ?_
    intro id hid
    rcases Store.mem_insertMany.mp hid with hNew | hOld
    · -- the update names stored records only
      rw [List.map_map] at hNew
      obtain ⟨depositId, hIn, rfl⟩ := List.mem_map.mp hNew
      obtain ⟨d, hd, rfl⟩ := List.mem_map.mp hIn
      obtain ⟨record, hOpen⟩ := hValid.opened d hd
      exact Store.mem_iff.mpr ⟨record, hOpen.stored⟩
    · exact h.processed id hOld
  | _ => exact h.of_stores (fun _ => Iff.rfl) rfl h.processed

/-- No draw has been made at genesis. -/
theorem known_genesis (bank : Bank) : Known [] (State.genesis bank) := by
  refine ⟨?_, ?_, ?_, ?_⟩ <;> simp [State.genesis, State.empty]

/-- In every state the records are those of the draws made. -/
theorem known_reach (k : Keeper) (bank : Bank) (ops : List Op) :
    Known (k.draws bank ops) (k.reach bank ops) :=
  Run.exec_trace known_step ops (known_genesis bank)

-- ---------------------------------------------------------------------------
-- Append-only deposits
-- ---------------------------------------------------------------------------

/-- A batch may name the record: the checks of its deposits, which are all that
`SubmitBatchProof` asks of the records, come down to those of the others. -/
def Nameable (s : State) (record : DepositRecord) : Prop :=
  ∀ ds₁ ds₂ : List (Option SettlementDeposit),
    (∀ d, some d ∈ ds₁ ++ ds₂ → d.depositId ≠ record.depositId) →
    (validateSettlementDeposits s (ds₁ ++
      some ⟨record.depositId, record.owner, record.denom, record.amount⟩ :: ds₂) = .ok () ↔
      validateSettlementDeposits s (ds₁ ++ ds₂) = .ok ())

/-- From `s` to `s'` the deposit records gain this one and stay as they are
otherwise. -/
structure Appended (s s' : State) (record : DepositRecord) : Prop where
  kept : ∀ (id : String) (r : DepositRecord), s.depositRecords[id]? = some r →
    s'.depositRecords[id]? = some r
  unknown : record.depositId ∉ s.depositRecords
  unprocessed : record.depositId ∉ s.depositProcessed
  stored : s'.depositRecords[record.depositId]? = some record
  nameable : Nameable s' record
  grown : s'.depositRecords.size = s.depositRecords.size + 1

/-- A `Deposit`, if it is accepted, is append-only. -/
def AppendsOnly (k : Keeper) (s : State) : Op → Prop
  | ⟨ctx, .deposit req⟩ =>
    ∀ s' record, k.deposit ctx s req = .ok (s', .deposit record) → Appended s s' record
  | _ => True

/-- A list of deposits passes exactly if each is open, named and listed once. -/
theorem deposits_eq_ok {s : State} {deposits : List (Option SettlementDeposit)} :
    validateSettlementDeposits s deposits = .ok () ↔ none ∉ deposits ∧
      ((deposits.filterMap id).map SettlementDeposit.depositId).Nodup ∧
      ∀ d ∈ deposits.filterMap id, d.depositId ≠ "" ∧ ∃ record, OpenDeposit s d record := by
  rw [validateSettlementDeposits, validateDeposits_eq_ok, ← nonNil_iff]
  simp only [List.not_mem_nil, not_false_eq_true, true_and]

/-- An open deposit with an id can be named by a batch. -/
theorem OpenDeposit.nameable {s : State} {record : DepositRecord}
    (h : OpenDeposit s ⟨record.depositId, record.owner, record.denom, record.amount⟩ record)
    (hId : record.depositId ≠ "") : Nameable s record := by
  intro ds₁ ds₂ hOther
  have hNew : record.depositId ∉
      ((ds₁.filterMap id) ++ ds₂.filterMap id).map SettlementDeposit.depositId := by
    intro hMem
    obtain ⟨d, hd, hEq⟩ := List.mem_map.mp hMem
    rw [← List.filterMap_append] at hd
    exact hOther d (mem_values.mp hd) hEq
  rw [deposits_eq_ok, deposits_eq_ok, List.filterMap_append, List.filterMap_append,
    List.filterMap_cons_some (by rfl), List.map_append, List.map_cons, List.nodup_middle,
    ← List.map_append, List.nodup_cons]
  constructor
  · rintro ⟨hNonNil, ⟨-, hNodup⟩, hEach⟩
    refine ⟨?_, hNodup, ?_⟩
    · intro hNil
      rcases List.mem_append.mp hNil with hLeft | hRight
      · exact hNonNil (List.mem_append_left _ hLeft)
      · exact hNonNil (List.mem_append_right _ (List.mem_cons_of_mem _ hRight))
    · intro d hd
      rcases List.mem_append.mp hd with hLeft | hRight
      · exact hEach d (List.mem_append_left _ hLeft)
      · exact hEach d (List.mem_append_right _ (List.mem_cons_of_mem _ hRight))
  · rintro ⟨hNonNil, hNodup, hEach⟩
    refine ⟨?_, ⟨hNew, hNodup⟩, ?_⟩
    · intro hNil
      rcases List.mem_append.mp hNil with hLeft | hRight
      · exact hNonNil (List.mem_append_left _ hLeft)
      · rcases List.mem_cons.mp hRight with hOwn | hRest
        · cases hOwn
        · exact hNonNil (List.mem_append_right _ hRest)
    · intro d hd
      rcases List.mem_append.mp hd with hLeft | hRight
      · exact hEach d (List.mem_append_left _ hLeft)
      · rcases List.mem_cons.mp hRight with rfl | hRest
        · exact ⟨hId, record, h⟩
        · exact hEach d (List.mem_append_right _ hRest)

/-- An id of a deposit has at least its dashes. -/
theorem depositIdOf_ne_empty (creator : String) (height : Nat) (randBytes : Vector UInt8 4) :
    depositIdOf creator height randBytes ≠ "" := by
  intro h
  have hList := congrArg String.toList h
  simp [depositIdOf, String.toList_append] at hList

/-- An accepted deposit is append-only exactly when its draw is new. -/
theorem Known.appended_iff {draws : List Draw} {s s' : State} (h : Known draws s) {ctx : Context}
    {req : MsgDeposit} {randBytes : Vector UInt8 4} {record : DepositRecord}
    (hRand : ctx.rand = .ok randBytes)
    (hOk : k.deposit ctx s req = .ok (s', .deposit record)) :
    Appended s s' record ↔ ⟨req.creator, ctx.height, randBytes⟩ ∉ draws := by
  obtain ⟨addr, coin, drawn, bank, hDeposited, rfl, hResponse⟩ := deposit_eq_ok.mp hOk
  obtain rfl := Response.deposit.inj hResponse
  obtain rfl : drawn = randBytes := Except.ok.inj (hDeposited.drawn.symm.trans hRand)
  rw [← h.mem_iff, Draw.id_mk]
  constructor
  · intro hAppended
    exact hAppended.unknown
  · intro hNew
    have hUnprocessed : depositIdOf req.creator ctx.height drawn ∉ s.depositProcessed :=
      mt (h.processed _) hNew
    have hStored : (s.depositRecords.insert (depositIdOf req.creator ctx.height drawn)
        (req.toRecord ctx.height drawn))[depositIdOf req.creator ctx.height drawn]? =
        some (req.toRecord ctx.height drawn) :=
      (Store.get?_insert ..).trans (if_pos rfl)
    refine ⟨?_, hNew, hUnprocessed, hStored, ?_, Store.size_insert_of_notMem hNew⟩
    · intro id r hr
      have hNe : id ≠ depositIdOf req.creator ctx.height drawn := by
        rintro rfl
        exact hNew (Store.mem_iff.mpr ⟨r, hr⟩)
      exact (Store.get?_insert_ne hNe).trans hr
    · have hFlag : s.isDepositProcessed (depositIdOf req.creator ctx.height drawn) = false := by
        rw [State.isDepositProcessed, Store.notMem_iff.mp hUnprocessed]
        rfl
      have hId : (req.toRecord ctx.height drawn).depositId ≠ "" :=
        depositIdOf_ne_empty req.creator ctx.height drawn
      exact OpenDeposit.nameable ⟨hStored, hFlag, rfl, rfl, rfl, rfl⟩ hId

/-- Only deposits draw. -/
theorem notMem_accepted {ctx : Context} {s : State} {msg : Msg} {d : Draw}
    (h : drawsOf ctx msg = []) : d ∉ k.accepted drawsOf s ⟨ctx, msg⟩ := by
  unfold Keeper.accepted recorded
  split
  · rw [h]
    exact List.not_mem_nil
  · exact List.not_mem_nil

/-- One message makes one draw at most. -/
theorem nodup_accepted (k : Keeper) (s : State) (op : Op) :
    (k.accepted drawsOf s op).Nodup := by
  have hDraws : (drawsOf op.ctx op.msg).Nodup := by
    unfold drawsOf
    split
    · split
      · exact List.nodup_singleton _
      · exact List.nodup_nil
    · exact List.nodup_nil
  unfold Keeper.accepted recorded
  split
  · exact hDraws
  · exact List.nodup_nil

/-- A step only appends exactly if its draw is a new one. -/
theorem Known.appendsOnly_iff {draws : List Draw} {s : State} (h : Known draws s) (op : Op) :
    AppendsOnly k s op ↔ ∀ d ∈ k.accepted drawsOf s op, d ∉ draws := by
  obtain ⟨ctx, msg⟩ := op
  cases msg with
  | deposit req =>
    cases hHandle : k.deposit ctx s req with
    | error e => simp [AppendsOnly, Keeper.accepted, Keeper.handle, hHandle, recorded]
    | ok p =>
      obtain ⟨s', r⟩ := p
      obtain ⟨addr, coin, drawn, bank, hDeposited, rfl, rfl⟩ := deposit_eq_ok.mp hHandle
      have hIff := h.appended_iff hDeposited.drawn hHandle
      simp only [AppendsOnly, Keeper.accepted, Keeper.handle, hHandle, recorded, drawsOf,
        hDeposited.drawn, List.mem_singleton, forall_eq]
      rw [← hIff]
      constructor
      · intro hAll
        exact hAll _ _ rfl
      · rintro hAppended s' record hEq
        obtain ⟨rfl, hRecord⟩ := Prod.mk.inj (Except.ok.inj hEq)
        obtain rfl := Response.deposit.inj hRecord
        exact hAppended
  | updateParams req => exact iff_of_true trivial fun d hd => absurd hd (notMem_accepted rfl)
  | submitBatchProof req => exact iff_of_true trivial fun d hd => absurd hd (notMem_accepted rfl)
  | claimWithdraw req => exact iff_of_true trivial fun d hd => absurd hd (notMem_accepted rfl)

/-- A run only appends exactly if no draw is made twice. -/
theorem steps_appendsOnly_iff (k : Keeper) (bank : Bank) (ops : List Op) :
    Run.Steps k.step (AppendsOnly k) (State.genesis bank) ops ↔ (k.draws bank ops).Nodup := by
  induction ops using List.reverseRecOn with
  | nil => exact iff_of_true trivial List.nodup_nil
  | append_singleton ops op ih =>
    have hDraws : k.draws bank (ops ++ [op]) =
        k.draws bank ops ++ k.accepted drawsOf (k.reach bank ops) op := by
      rw [Keeper.draws, Run.trace_append, Run.trace_cons, Run.trace_nil, List.append_nil]
    rw [Run.steps_append, Run.steps_cons, ih, hDraws, List.nodup_append]
    have hOp := (known_reach k bank ops).appendsOnly_iff (k := k) op
    constructor
    · rintro ⟨hNodup, hAppends, -⟩
      refine ⟨hNodup, nodup_accepted k _ op, ?_⟩
      rintro a hOld b hNew rfl
      exact hOp.mp hAppends a hNew hOld
    · rintro ⟨hNodup, -, hApart⟩
      refine ⟨hNodup, hOp.mpr ?_, trivial⟩
      intro d hNew hOld
      exact hApart d hOld d hNew rfl

/-- **When deposits are append-only.** In every reachable state, an accepted
deposit adds one record, leaves the others alone and can be named by a batch
exactly when no accepted deposit before it was made by the same account at the
same height with the same bytes. So all deposits of a run are append-only, and
there are as many records as accepted deposits, exactly when the draws of the
run are different. -/
theorem deposits_append_only_iff (k : Keeper) (bank : Bank) (ops : List Op) :
    (∀ (ctx : Context) (req : MsgDeposit) (randBytes : Vector UInt8 4) (s' : State)
      (record : DepositRecord), ctx.rand = .ok randBytes →
      k.deposit ctx (k.reach bank ops) req = .ok (s', .deposit record) →
      (Appended (k.reach bank ops) s' record ↔
        ⟨req.creator, ctx.height, randBytes⟩ ∉ k.draws bank ops)) ∧
    (Run.Steps k.step (AppendsOnly k) (State.genesis bank) ops ↔ (k.draws bank ops).Nodup) ∧
    ((k.reach bank ops).depositRecords.size = (k.draws bank ops).length ↔
      (k.draws bank ops).Nodup) := by
  have hKnown := known_reach k bank ops
  refine ⟨?_, steps_appendsOnly_iff k bank ops, hKnown.size_eq_iff⟩
  intro ctx req randBytes s' record hRand hOk
  exact hKnown.appended_iff hRand hOk

section Sample

open Ganc.Zkdex.Sample Ganc.Sample

/-- Alice deposits twice in one block and draws different bytes. -/
theorem deposits_append_only_iff_sample : ∃ s' record,
    keeper.deposit ⟨1, .ok ones⟩ (keeper.reach bank [deposits]) ⟨alice, "uatom", "50"⟩ =
      .ok (s', .deposit record) ∧ Appended (keeper.reach bank [deposits]) s' record := by
  obtain ⟨⟨s', r⟩, hOk⟩ := Result.exists_of_isOk
    (x := keeper.deposit ⟨1, .ok ones⟩ (keeper.reach bank [deposits]) ⟨alice, "uatom", "50"⟩)
    (by decide +kernel)
  obtain ⟨_, _, _, _, -, -, rfl⟩ := deposit_eq_ok.mp hOk
  have hIff := (deposits_append_only_iff keeper bank [deposits]).1 _ _ _ _ _ rfl hOk
  exact ⟨s', _, hOk, hIff.mpr (by decide +kernel)⟩

/-- With the same bytes the second deposit replaces the record of the first: two
deposits were accepted, and one record is there. -/
theorem deposit_replaced : ∃ s' record,
    keeper.deposit ⟨1, .ok zeros⟩ (keeper.reach bank [deposits]) ⟨alice, "uatom", "50"⟩ =
      .ok (s', .deposit record) ∧
    (keeper.reach bank [deposits]).depositRecords[record.depositId]? =
      some ⟨record.depositId, alice, "uatom", "100", false, 1⟩ ∧
    s'.depositRecords[record.depositId]? =
      some ⟨record.depositId, alice, "uatom", "50", false, 1⟩ ∧
    ¬ Appended (keeper.reach bank [deposits]) s' record := by
  obtain ⟨⟨s', r⟩, hOk⟩ := Result.exists_of_isOk
    (x := keeper.deposit ⟨1, .ok zeros⟩ (keeper.reach bank [deposits]) ⟨alice, "uatom", "50"⟩)
    (by decide +kernel)
  have hFirst : (keeper.reach bank [deposits]).depositRecords[depositIdOf alice 1 zeros]? =
      some ⟨depositIdOf alice 1 zeros, alice, "uatom", "100", false, 1⟩ := by
    decide +kernel
  have hAccepted := hOk
  obtain ⟨addr, coin, randBytes, bank', hDeposited, rfl, rfl⟩ := deposit_eq_ok.mp hAccepted
  obtain rfl : zeros = randBytes := Except.ok.inj hDeposited.drawn
  refine ⟨_, _, hOk, hFirst, (Store.get?_insert ..).trans (if_pos rfl), ?_⟩
  intro hAppended
  exact hAppended.unknown (Store.mem_iff.mpr ⟨_, hFirst⟩)

end Sample

end Ganc.Zkdex
