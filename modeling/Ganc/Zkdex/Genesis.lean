import Ganc.Zkdex.Sample
import Ganc.Zkdex.StepSpec

/-!
# x/zkdex — what a genesis establishes

`InitGenesis` copies five lists into five stores, one loop after the other, and
`Validate` looks at the parameters only. `Established` collects what every
message relies on and keeps; whether the imported stores meet it is a question
about the lists alone (`Consistent`, `genesis_establishes_iff`).
-/

namespace Ganc.Zkdex

-- ---------------------------------------------------------------------------
-- Validation and queries
-- ---------------------------------------------------------------------------

def Params.validate (_ : Params) : Result Unit := .ok ()

def GenesisState.validate (gs : GenesisState) : Result Unit := gs.params.validate

/-- The gRPC codes of `keeper/query.go`. -/
inductive Code
  | invalidArgument
  | notFound
deriving DecidableEq, Repr

structure Status where
  code : Code
  message : String
deriving DecidableEq, Repr

structure QueryDepositRecordRequest where
  depositId : String

structure QueryDepositProcessedRequest where
  depositId : String

namespace State

variable (s : State)

/-- The query `DepositRecord`, which answers with the flag of the other store. -/
def queryDepositRecord : Option QueryDepositRecordRequest → Except Status DepositRecord
  | none => .error ⟨.invalidArgument, "invalid request"⟩
  | some req =>
    if req.depositId = "" then .error ⟨.invalidArgument, "deposit id cannot be empty"⟩
    else match s.depositRecords[req.depositId]? with
      | none => .error ⟨.notFound, "deposit record not found"⟩
      | some record => .ok { record with processed := s.isDepositProcessed req.depositId }

/-- The query `DepositProcessed`. -/
def queryDepositProcessed : Option QueryDepositProcessedRequest → Except Status Bool
  | none => .error ⟨.invalidArgument, "invalid request"⟩
  | some req =>
    if req.depositId = "" then .error ⟨.invalidArgument, "deposit id cannot be empty"⟩
    else .ok (s.isDepositProcessed req.depositId)

end State

-- ---------------------------------------------------------------------------
-- The imported stores
-- ---------------------------------------------------------------------------

namespace GenesisState

variable (gs : GenesisState)

def depositList : List DepositRecord := gs.depositRecords.filterMap id

def withdrawList : List WithdrawRecord := gs.withdrawRecords.filterMap id

def batchList : List BatchRecord := gs.batchRecords.filterMap id

/-- No list holds a nil pointer. -/
structure NoNil : Prop where
  deposits : gs.depositRecords = gs.depositList.map some
  withdrawals : gs.withdrawRecords = gs.withdrawList.map some
  batches : gs.batchRecords = gs.batchList.map some

/-- The state the five loops leave. -/
def imported (bank : Bank) : State where
  params := some gs.params
  stateRoot := some gs.currentStateRoot
  depositRecords := gs.depositProcessed.foldl markProcessed
    ((∅ : Store String DepositRecord).insertMany (gs.depositList.map fun r => (r.depositId, r)))
  withdrawRecords := (∅ : Store String WithdrawRecord).insertMany
    (gs.withdrawList.map fun r => (r.withdrawId, r))
  nullifierUsed := (∅ : Store String Bool).insertMany (gs.nullifierUsed.map fun n => (n, true))
  depositProcessed :=
    (∅ : Store String Bool).insertMany (gs.depositProcessed.map fun id => (id, true))
  batchRecords := (∅ : Store String BatchRecord).insertMany
    (gs.batchList.map fun r => (r.batchId, r))
  bank := bank

end GenesisState

theorem filterMap_id_map_some {α : Type} (as : List α) : (as.map some).filterMap id = as := by
  rw [List.filterMap_map]
  exact List.filterMap_some

/-- A loop that writes values one after the other, each under a key of its own,
into the store that `put` puts into a state. -/
theorem foldl_write {ν α : Type} (put : Store String ν → State) (write : State → α → State)
    (entry : α → String × ν)
    (h : ∀ m a, write (put m) a = put (m.insert (entry a).1 (entry a).2)) (m : Store String ν)
    (as : List α) : as.foldl write (put m) = put (m.insertMany (as.map entry)) := by
  induction as generalizing m with
  | nil => rfl
  | cons a as ih => rw [List.foldl_cons, h, ih, List.map_cons, Store.insertMany_cons]

/-- Writing the deposits one by one writes them all. -/
theorem foldl_setDepositRecord (s : State) (rs : List DepositRecord) :
    rs.foldl (fun s record => s.setDepositRecord record.depositId record) s =
      { s with depositRecords :=
          s.depositRecords.insertMany (rs.map fun r => (r.depositId, r)) } :=
  foldl_write (fun m => { s with depositRecords := m }) _ _ (fun _ _ => rfl) _ rs

theorem foldl_setWithdrawRecord (s : State) (rs : List WithdrawRecord) :
    rs.foldl (fun s record => s.setWithdrawRecord record.withdrawId record) s =
      { s with withdrawRecords :=
          s.withdrawRecords.insertMany (rs.map fun r => (r.withdrawId, r)) } :=
  foldl_write (fun m => { s with withdrawRecords := m }) _ _ (fun _ _ => rfl) _ rs

theorem foldl_setBatchRecord (s : State) (rs : List BatchRecord) :
    rs.foldl (fun s record => s.setBatchRecord record.batchId record) s =
      { s with batchRecords := s.batchRecords.insertMany (rs.map fun r => (r.batchId, r)) } :=
  foldl_write (fun m => { s with batchRecords := m }) _ _ (fun _ _ => rfl) _ rs

theorem foldl_setNullifierUsed (s : State) (ns : List String) :
    ns.foldl State.setNullifierUsed s =
      { s with nullifierUsed := s.nullifierUsed.insertMany (ns.map fun n => (n, true)) } :=
  foldl_write (fun m => { s with nullifierUsed := m }) _ _ (fun _ _ => rfl) _ ns

/-- Setting the processed ids one by one flags their records and stores the ids. -/
theorem foldl_setDepositProcessed (s : State) (ids : List String) :
    ids.foldl State.setDepositProcessed s = { s with
      depositRecords := ids.foldl markProcessed s.depositRecords
      depositProcessed := s.depositProcessed.insertMany (ids.map fun id => (id, true)) } := by
  induction ids generalizing s with
  | nil => rfl
  | cons id ids ih =>
    rw [List.foldl_cons, ih, setDepositProcessed_eq, List.map_cons, Store.insertMany_cons]
    rfl

/-- A nil pointer is the only thing that stops the import. -/
theorem initGenesis_eq_ok {bank : Bank} {gs : GenesisState} {s : State} :
    initGenesis (State.empty bank) gs = .ok s ↔ gs.NoNil ∧ s = gs.imported bank := by
  simp only [initGenesis, Result.bind_eq_ok, mapM_deref_eq_ok, Result.pure_eq_ok,
    foldl_setDepositRecord, foldl_setWithdrawRecord, foldl_setBatchRecord,
    foldl_setNullifierUsed, foldl_setDepositProcessed]
  constructor
  · rintro ⟨ds, hDeposits, ws, hWithdrawals, bs, hBatches, rfl⟩
    have hDs : gs.depositList = ds := by
      rw [GenesisState.depositList, hDeposits, filterMap_id_map_some]
    have hWs : gs.withdrawList = ws := by
      rw [GenesisState.withdrawList, hWithdrawals, filterMap_id_map_some]
    have hBs : gs.batchList = bs := by
      rw [GenesisState.batchList, hBatches, filterMap_id_map_some]
    subst hDs hWs hBs
    exact ⟨⟨hDeposits, hWithdrawals, hBatches⟩, rfl⟩
  · rintro ⟨hNoNil, rfl⟩
    exact ⟨_, hNoNil.deposits, _, hNoNil.withdrawals, _, hNoNil.batches, rfl⟩

-- ---------------------------------------------------------------------------
-- What the messages rely on
-- ---------------------------------------------------------------------------

/-- Every entry of the lists has a place of its own in the stores: none was
overwritten by a later one. -/
structure Retained (gs : GenesisState) (s : State) : Prop where
  deposits : s.depositRecords.size = gs.depositRecords.length
  withdrawals : s.withdrawRecords.size = gs.withdrawRecords.length
  nullifiers : s.nullifierUsed.size = gs.nullifierUsed.length
  processed : s.depositProcessed.size = gs.depositProcessed.length
  batches : s.batchRecords.size = gs.batchRecords.length

structure Established (gs : GenesisState) (s : State) : Prop where
  used : ∀ (id : String) (r : WithdrawRecord), s.withdrawRecords[id]? = some r →
    s.isNullifierUsed r.nullifier = true
  once : ∀ (id id' : String) (r r' : WithdrawRecord), s.withdrawRecords[id]? = some r →
    s.withdrawRecords[id']? = some r' → r.nullifier = r'.nullifier → id = id'
  flags : ∀ (id : String) (r : DepositRecord), s.depositRecords[id]? = some r →
    (r.processed = true ↔ s.isDepositProcessed id = true)
  queries : ∀ (id : String) (r : DepositRecord), id ≠ "" → s.depositRecords[id]? = some r →
    s.queryDepositRecord (some ⟨id⟩) = .ok r ∧
      s.queryDepositProcessed (some ⟨id⟩) = .ok r.processed
  settled : ∀ (id : String) (b : BatchRecord), s.batchRecords[id]? = some b →
    ∀ depositId ∈ b.depositIds, s.isDepositProcessed depositId = true
  retained : Retained gs s

/-- What a validation of the lists would have to check. -/
structure Consistent (gs : GenesisState) : Prop where
  depositIds : (gs.depositList.map DepositRecord.depositId).Nodup
  withdrawIds : (gs.withdrawList.map WithdrawRecord.withdrawId).Nodup
  batchIds : (gs.batchList.map BatchRecord.batchId).Nodup
  nullifierUsed : gs.nullifierUsed.Nodup
  depositProcessed : gs.depositProcessed.Nodup
  nullifiers : (gs.withdrawList.map WithdrawRecord.nullifier).Nodup
  used : ∀ r ∈ gs.withdrawList, r.nullifier ∈ gs.nullifierUsed
  flags : ∀ r ∈ gs.depositList, r.processed = true → r.depositId ∈ gs.depositProcessed
  settled : ∀ b ∈ gs.batchList, ∀ depositId ∈ b.depositIds, depositId ∈ gs.depositProcessed

section Imported

variable {bank : Bank} {gs : GenesisState}

/-- The used nullifiers are those of the list. -/
theorem isNullifierUsed_imported {n : String} :
    (gs.imported bank).isNullifierUsed n = true ↔ n ∈ gs.nullifierUsed := by
  simp only [State.isNullifierUsed, GenesisState.imported, Store.get?_insertMany_const]
  by_cases hMem : n ∈ gs.nullifierUsed <;> simp [hMem]

/-- The processed deposits are those of the list. -/
theorem isDepositProcessed_imported {id : String} :
    (gs.imported bank).isDepositProcessed id = true ↔ id ∈ gs.depositProcessed := by
  simp only [State.isDepositProcessed, GenesisState.imported, Store.get?_insertMany_const]
  by_cases hMem : id ∈ gs.depositProcessed <;> simp [hMem]

/-- A store filled from a list keeps every entry exactly when their keys differ. -/
theorem size_filled {ν α : Type} {as : List α} {entry : α → String × ν} :
    ((∅ : Store String ν).insertMany (as.map entry)).size = as.length ↔
      (as.map fun a => (entry a).1).Nodup := by
  have hSize := Store.size_insertMany_eq_iff (∅ : Store String ν) (as.map entry)
  rw [List.length_map, List.map_map, Std.ExtTreeMap.size_empty, Nat.zero_add] at hSize
  refine hSize.trans (and_iff_left ?_)
  intro k _
  exact Std.ExtTreeMap.not_mem_empty

/-- Nothing of a genesis state is lost exactly if no list names an id twice. -/
theorem retained_imported (hNoNil : gs.NoNil) : Retained gs (gs.imported bank) ↔
    (gs.depositList.map DepositRecord.depositId).Nodup ∧
    (gs.withdrawList.map WithdrawRecord.withdrawId).Nodup ∧ gs.nullifierUsed.Nodup ∧
    gs.depositProcessed.Nodup ∧ (gs.batchList.map BatchRecord.batchId).Nodup := by
  have hDeposits : gs.depositRecords.length = gs.depositList.length := by
    rw [hNoNil.deposits, List.length_map]
  have hWithdrawals : gs.withdrawRecords.length = gs.withdrawList.length := by
    rw [hNoNil.withdrawals, List.length_map]
  have hBatches : gs.batchRecords.length = gs.batchList.length := by
    rw [hNoNil.batches, List.length_map]
  have hStore : (gs.imported bank).depositRecords.size =
      ((∅ : Store String DepositRecord).insertMany
        (gs.depositList.map fun r => (r.depositId, r))).size := size_markAll _ _
  constructor
  · rintro ⟨h₁, h₂, h₃, h₄, h₅⟩
    rw [hStore, hDeposits] at h₁
    rw [hWithdrawals] at h₂
    rw [hBatches] at h₅
    refine ⟨size_filled.mp h₁, size_filled.mp h₂, ?_, ?_, size_filled.mp h₅⟩
    · simpa using size_filled.mp h₃
    · simpa using size_filled.mp h₄
  · rintro ⟨h₁, h₂, h₃, h₄, h₅⟩
    refine ⟨?_, ?_, ?_, ?_, ?_⟩
    · rw [hStore, hDeposits]
      exact size_filled.mpr h₁
    · rw [hWithdrawals]
      exact size_filled.mpr h₂
    · exact size_filled.mpr (by simpa using h₃)
    · exact size_filled.mpr (by simpa using h₄)
    · rw [hBatches]
      exact size_filled.mpr h₅

/-- The deposit records after the import: those of the list, the flags raised that
`DepositProcessed` names. -/
theorem depositRecord_imported (h : (gs.depositList.map DepositRecord.depositId).Nodup)
    {id : String} {r : DepositRecord} :
    (gs.imported bank).depositRecords[id]? = some r ↔
      ∃ r₀ ∈ gs.depositList, r₀.depositId = id ∧
        r = if id ∈ gs.depositProcessed then { r₀ with processed := true } else r₀ := by
  have hGet : (gs.imported bank).depositRecords[id]? = _ := get?_markAll gs.depositProcessed _ id
  rw [hGet, Option.map_eq_some_iff]
  simp only [Store.get?_keyed_iff h, eq_comm (b := r), and_assoc]

/-- A consistent genesis establishes all that the chain relies on. -/
theorem established_of_consistent (hNoNil : gs.NoNil) (h : Consistent gs) :
    Established gs (gs.imported bank) := by
  have hFlags : ∀ (id : String) (r : DepositRecord),
      (gs.imported bank).depositRecords[id]? = some r →
      (r.processed = true ↔ (gs.imported bank).isDepositProcessed id = true) := by
    intro id r hr
    obtain ⟨r₀, hMem, rfl, rfl⟩ := (depositRecord_imported h.depositIds).mp hr
    rw [isDepositProcessed_imported]
    split
    next hIn => exact iff_of_true rfl hIn
    next hNot =>
      refine iff_of_false ?_ hNot
      intro hProcessed
      exact hNot (h.flags r₀ hMem hProcessed)
  constructor
  case used =>
    intro id r hr
    rw [isNullifierUsed_imported]
    exact h.used r ((Store.get?_keyed_iff h.withdrawIds).mp hr).1
  case once =>
    intro id id' r r' hr hr' hEq
    obtain ⟨hMem, rfl⟩ := (Store.get?_keyed_iff h.withdrawIds).mp hr
    obtain ⟨hMem', rfl⟩ := (Store.get?_keyed_iff h.withdrawIds).mp hr'
    rw [List.inj_on_of_nodup_map h.nullifiers hMem hMem' hEq]
  case flags => exact hFlags
  case queries =>
    intro id r hId hr
    have hSame : (gs.imported bank).isDepositProcessed id = r.processed :=
      Bool.eq_iff_iff.mpr (hFlags id r hr).symm
    simp only [State.queryDepositRecord, State.queryDepositProcessed, hId, if_false, hr, hSame,
      and_self]
  case settled =>
    intro id b hb depositId hIn
    rw [isDepositProcessed_imported]
    exact h.settled b ((Store.get?_keyed_iff h.batchIds).mp hb).1 depositId hIn
  case retained =>
    exact (retained_imported hNoNil).mpr
      ⟨h.depositIds, h.withdrawIds, h.nullifierUsed, h.depositProcessed, h.batchIds⟩

/-- Only a consistent genesis establishes it. -/
theorem consistent_of_established (hNoNil : gs.NoNil) (h : Established gs (gs.imported bank)) :
    Consistent gs := by
  obtain ⟨hDeposits, hWithdrawals, hNullifiers, hProcessed, hBatches⟩ :=
    (retained_imported hNoNil).mp h.retained
  have hStored : ∀ r ∈ gs.withdrawList,
      (gs.imported bank).withdrawRecords[r.withdrawId]? = some r := by
    intro r hr
    exact (Store.get?_keyed_iff hWithdrawals).mpr ⟨hr, rfl⟩
  constructor
  case depositIds => exact hDeposits
  case withdrawIds => exact hWithdrawals
  case batchIds => exact hBatches
  case nullifierUsed => exact hNullifiers
  case depositProcessed => exact hProcessed
  case nullifiers =>
    -- records with one nullifier have one id, and the ids are different
    refine List.Nodup.map_on ?_ hWithdrawals.of_map
    intro r hr r' hr' hEq
    have hIds := h.once _ _ r r' (hStored r hr) (hStored r' hr') hEq
    exact List.inj_on_of_nodup_map hWithdrawals hr hr' hIds
  case used =>
    intro r hr
    exact isNullifierUsed_imported.mp (h.used _ r (hStored r hr))
  case flags =>
    intro r hr hFlag
    by_contra hNot
    have hRecord : (gs.imported bank).depositRecords[r.depositId]? = some r :=
      (depositRecord_imported hDeposits).mpr ⟨r, hr, rfl, by rw [if_neg hNot]⟩
    exact hNot (isDepositProcessed_imported.mp ((h.flags _ r hRecord).mp hFlag))
  case settled =>
    intro b hb depositId hIn
    have hBatch : (gs.imported bank).batchRecords[b.batchId]? = some b :=
      (Store.get?_keyed_iff hBatches).mpr ⟨hb, rfl⟩
    exact isDepositProcessed_imported.mp (h.settled _ b hBatch depositId hIn)

end Imported

/-- **What a genesis establishes.** `Validate` accepts every genesis, and the import
leaves what the messages rely on exactly when a nil pointer stops it or the lists
are consistent. -/
theorem genesis_establishes_iff (bank : Bank) (gs : GenesisState) :
    gs.validate = .ok () ∧
    ((∀ s, initGenesis (State.empty bank) gs = .ok s → Established gs s) ↔
      (gs.NoNil → Consistent gs)) := by
  refine ⟨rfl, ?_, ?_⟩
  · intro h hNoNil
    exact consistent_of_established hNoNil (h _ (initGenesis_eq_ok.mpr ⟨hNoNil, rfl⟩))
  · intro h s hOk
    obtain ⟨hNoNil, rfl⟩ := initGenesis_eq_ok.mp hOk
    exact established_of_consistent hNoNil (h hNoNil)

section Sample

open Ganc.Zkdex.Sample Ganc.Sample

/-- A processed deposit and two withdrawals that the other lists do not know of, and
a batch over a deposit that is not processed. -/
def careless : GenesisState where
  params := {}
  currentStateRoot := "0xrootB"
  depositRecords := [some ⟨"dep-1", alice, "uatom", "100", true, 1⟩]
  withdrawRecords := [some ⟨"wd-1", alice, "uatom", "40", bob, "0xnullifier", false⟩,
    some ⟨"wd-2", alice, "uatom", "40", carol, "0xnullifier", false⟩,
    some ⟨"wd-2", alice, "uatom", "1", alice, "0xother", false⟩]
  nullifierUsed := ["0xother"]
  depositProcessed := ["dep-3"]
  batchRecords := [some ⟨"batch-1", "0xrootA", "0xrootB", ["dep-2"], ["wd-1"], 1⟩]

/-- The same, so that two withdrawals share their nullifier. -/
def shared : GenesisState := { careless with
  withdrawRecords := careless.withdrawRecords.take 2 }

/-- The genesis is valid and imported, and every clause fails: an unused nullifier
of a withdrawal, a nullifier shared by two, a deposit the queries call unprocessed,
a batch over an unprocessed deposit, an overwritten withdrawal. -/
theorem careless_imported :
    (∃ s, careless.validate = .ok () ∧ initGenesis (State.empty bank) careless = .ok s ∧
      ¬ Established careless s ∧
      (s.withdrawRecords["wd-1"]?.map WithdrawRecord.nullifier) = some "0xnullifier" ∧
      s.isNullifierUsed "0xnullifier" = false ∧
      (s.depositRecords["dep-1"]?.map DepositRecord.processed) = some true ∧
      s.queryDepositProcessed (some ⟨"dep-1"⟩) = .ok false ∧
      (s.batchRecords["batch-1"]?.map BatchRecord.depositIds) = some ["dep-2"] ∧
      s.isDepositProcessed "dep-2" = false ∧
      (s.withdrawRecords["wd-2"]?.map WithdrawRecord.amount) = some "1") ∧
    (∃ s, shared.validate = .ok () ∧ initGenesis (State.empty bank) shared = .ok s ∧
      (s.withdrawRecords["wd-1"]?.map WithdrawRecord.nullifier) =
        s.withdrawRecords["wd-2"]?.map WithdrawRecord.nullifier) := by
  refine ⟨⟨_, rfl, rfl, ?_, ?_⟩, _, rfl, rfl, ?_⟩
  · intro h
    have hUsed := h.used "wd-1" ⟨"wd-1", alice, "uatom", "40", bob, "0xnullifier", false⟩
      (by decide +kernel)
    revert hUsed
    decide +kernel
  · decide +kernel
  · decide +kernel

end Sample

end Ganc.Zkdex
