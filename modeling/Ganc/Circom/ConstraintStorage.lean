import Ganc.Circom.Algebra
import Ganc.Lib.LittleEndian

/-!
# circom — the constraint storage

`circom_algebra/src/constraint_storage` and `constant_tracking`: constraints are
kept compressed, every coefficient as the number of its bytes in a table in
which the same bytes stand only once. The storage refines a list of constraints
(`ConstraintStorage.run_refines`): whatever is added, replaced and extracted,
and whatever the table has come to hold, what is read is what the list has.

The bytes of a big integer are a parameter (`SignedBytes`). `none` is a panic:
a coefficient whose number is not in the table.
-/

set_option linter.unusedSectionVars false

namespace Ganc.Circom

-- ---------------------------------------------------------------------------
-- Constants
-- ---------------------------------------------------------------------------

/-- The constants in the order of their numbers, and the way back. -/
structure ConstantTracker (C : Type) [Ord C] [Std.TransOrd C] where
  lookup : Store C Nat
  constants : List C
  indexed : ∀ (constant : C) (id : Nat),
    lookup[constant]? = some id ↔ constants[id]? = some constant

namespace ConstantTracker

variable {C : Type} [Ord C] [Std.TransOrd C] [Std.LawfulEqOrd C] [DecidableEq C]

def new : ConstantTracker C := ⟨∅, [], fun _ _ => by simp⟩

def getId (tracker : ConstantTracker C) (constant : C) : Option Nat := tracker.lookup[constant]?

theorem indexed_push (tracker : ConstantTracker C) {constant : C}
    (h : tracker.getId constant = none) (constant' : C) (id : Nat) :
    (tracker.lookup.insert constant tracker.constants.length)[constant']? = some id ↔
      (tracker.constants ++ [constant])[id]? = some constant' := by
  have hFresh : ∀ id' : Nat, tracker.constants[id']? ≠ some constant := by
    intro id' hStored
    exact absurd (h.symm.trans ((tracker.indexed constant id').mpr hStored)) nofun
  rw [Store.get?_insert, List.getElem?_append, List.getElem?_singleton]
  split
  next hEq =>
    subst hEq
    split
    next hLess => exact iff_of_false (fun hId => by injection hId; omega) (hFresh id)
    next => grind
  next hne =>
    rw [tracker.indexed]
    split
    next => exact Iff.rfl
    next hMore =>
      rw [List.getElem?_eq_none (by omega)]
      grind

/-- A constant that is in the table keeps its number. -/
def insert (tracker : ConstantTracker C) (constant : C) : Nat × ConstantTracker C :=
  match h : tracker.getId constant with
  | some id => (id, tracker)
  | none => (tracker.constants.length,
      ⟨tracker.lookup.insert constant tracker.constants.length, tracker.constants ++ [constant],
        tracker.indexed_push h⟩)

def getConstant (tracker : ConstantTracker C) (id : Nat) : Option C := tracker.constants[id]?

def nextId (tracker : ConstantTracker C) : Nat := tracker.constants.length

variable {tracker tracker' tracker'' : ConstantTracker C}

/-- No constant is stored twice. -/
theorem nodup_constants (tracker : ConstantTracker C) : tracker.constants.Nodup := by
  rw [List.nodup_iff_injective_get]
  intro i j hEq
  have hi := (tracker.indexed _ _).mpr (List.getElem?_eq_getElem i.isLt)
  have hj := (tracker.indexed _ _).mpr (List.getElem?_eq_getElem j.isLt)
  have hEq' : tracker.constants[i.val] = tracker.constants[j.val] := hEq
  rw [hEq', hj] at hi
  exact Fin.ext (Option.some.inj hi).symm

/-- Every number keeps its constant. -/
def Extends (tracker tracker' : ConstantTracker C) : Prop :=
  tracker.constants <+: tracker'.constants

theorem extends_refl (tracker : ConstantTracker C) : tracker.Extends tracker := List.prefix_rfl

theorem Extends.trans (h : tracker.Extends tracker') (h' : tracker'.Extends tracker'') :
    tracker.Extends tracker'' := List.IsPrefix.trans h h'

/-- Ids stay valid while the tracker grows. -/
theorem Extends.getConstant (h : tracker.Extends tracker') {id : Nat} {constant : C}
    (hStored : tracker.getConstant id = some constant) :
    tracker'.getConstant id = some constant := by
  obtain ⟨rest, hRest⟩ := h
  rw [ConstantTracker.getConstant] at hStored ⊢
  rw [← hRest, List.getElem?_append_left (List.getElem?_eq_some_iff.mp hStored).1, hStored]

/-- A constant is found under the id it has been given. -/
theorem insert_spec (tracker : ConstantTracker C) (constant : C) :
    tracker.Extends (tracker.insert constant).2 ∧
      (tracker.insert constant).2.getConstant (tracker.insert constant).1 = some constant ∧
      ∀ c ∈ (tracker.insert constant).2.constants, c = constant ∨ c ∈ tracker.constants := by
  rw [insert]
  split
  next id hId =>
    exact ⟨extends_refl tracker, (tracker.indexed constant id).mp hId, fun _ hIn => .inr hIn⟩
  next hNone =>
    refine ⟨List.prefix_append _ _, List.getElem?_concat_length, ?_⟩
    intro c hIn
    rw [List.mem_append, List.mem_singleton] at hIn
    exact hIn.symm

end ConstantTracker

-- ---------------------------------------------------------------------------
-- Compressed constraints
-- ---------------------------------------------------------------------------

/-- Big integers as bytes with a sign, the least significant byte first. -/
structure SignedBytes where
  toSignedBytesLe : Int → List UInt8
  fromSignedBytesLe : List UInt8 → Int

/-- The bytes of an integer are read back as the integer. -/
def SignedBytes.Lawful (bytes : SignedBytes) : Prop :=
  ∀ x, bytes.fromSignedBytesLe (bytes.toSignedBytesLe x) = x

abbrev FieldTracker := ConstantTracker (List UInt8)

/-- The numbers of the coefficients, with the signals. -/
abbrev CompressedExpr := List (Nat × Nat)

structure CompressedConstraint where
  a : CompressedExpr
  b : CompressedExpr
  c : CompressedExpr

section Logic

variable (bytes : SignedBytes)

def codeEntry (coded : CompressedExpr × FieldTracker) (entry : Nat × Int) :
    CompressedExpr × FieldTracker :=
  let inserted := coded.2.insert (bytes.toSignedBytesLe entry.2)
  (coded.1 ++ [(inserted.1, entry.1)], inserted.2)

def codeExpression (order : HashOrder) (expr : Coefficients Nat) (tracker : FieldTracker) :
    CompressedExpr × FieldTracker :=
  (order.arrange expr.toList).foldl (codeEntry bytes) ([], tracker)

def codeConstraint (order : HashOrder) (constraint : Constraint Nat) (tracker : FieldTracker) :
    CompressedConstraint × FieldTracker :=
  let a := codeExpression bytes order constraint.a tracker
  let b := codeExpression bytes order constraint.b a.2
  let c := codeExpression bytes order constraint.c b.2
  (⟨a.1, b.1, c.1⟩, c.2)

def decodeEntry (tracker : FieldTracker) (decodedExpr : Coefficients Nat) (entry : Nat × Nat) :
    Option (Coefficients Nat) := do
  let rawCoeff ← tracker.getConstant entry.1
  return decodedExpr.insert entry.2 (bytes.fromSignedBytesLe rawCoeff)

def decodeExpr (cExpr : CompressedExpr) (tracker : FieldTracker) : Option (Coefficients Nat) :=
  cExpr.foldlM (decodeEntry bytes tracker) ∅

def decodeConstraint (constraint : CompressedConstraint) (tracker : FieldTracker) :
    Option (Constraint Nat) := do
  let a ← decodeExpr bytes constraint.a tracker
  let b ← decodeExpr bytes constraint.b tracker
  let c ← decodeExpr bytes constraint.c tracker
  return ⟨a, b, c⟩

end Logic

structure ConstraintStorage where
  fieldTracker : FieldTracker
  constraints : List CompressedConstraint

namespace ConstraintStorage

def new : ConstraintStorage := ⟨ConstantTracker.new, []⟩

variable (bytes : SignedBytes)

def addConstraint (order : HashOrder) (storage : ConstraintStorage)
    (constraint : Constraint Nat) : Nat × ConstraintStorage :=
  let (compressed, fieldTracker) := codeConstraint bytes order constraint storage.fieldTracker
  (storage.constraints.length, ⟨fieldTracker, storage.constraints ++ [compressed]⟩)

/-- The inner option is the result. -/
def readConstraint (storage : ConstraintStorage) (id : Nat) : Option (Option (Constraint Nat)) :=
  match storage.constraints[id]? with
  | some compressed => (decodeConstraint bytes compressed storage.fieldTracker).map some
  | none => some none

def replace (order : HashOrder) (storage : ConstraintStorage) (id : Nat)
    (constraint : Constraint Nat) : ConstraintStorage :=
  if id < storage.constraints.length then
    let (compressed, fieldTracker) := codeConstraint bytes order constraint storage.fieldTracker
    ⟨fieldTracker, storage.constraints.set id compressed⟩
  else storage

/-- The loop over the old constraints: what is removed, and what stays. -/
def extractLoop (tracker : FieldTracker) (filter : Constraint Nat → Bool) :
    List CompressedConstraint → Option (List (Constraint Nat) × List CompressedConstraint)
  | [] => some ([], [])
  | c :: old => do
    let decoded ← decodeConstraint bytes c tracker
    let (removed, constraints) ← extractLoop tracker filter old
    if filter decoded then return (decoded :: removed, constraints)
    else return (removed, c :: constraints)

def extractWith (storage : ConstraintStorage) (filter : Constraint Nat → Bool) :
    Option (List (Constraint Nat) × ConstraintStorage) := do
  let (removed, constraints) ←
    extractLoop bytes storage.fieldTracker filter storage.constraints
  return (removed, ⟨storage.fieldTracker, constraints⟩)

def getIds (storage : ConstraintStorage) : List Nat := List.range storage.constraints.length

def noConstants (storage : ConstraintStorage) : Nat := storage.fieldTracker.nextId

end ConstraintStorage

-- ---------------------------------------------------------------------------
-- What is coded is decoded
-- ---------------------------------------------------------------------------

section Coding

variable {bytes : SignedBytes} {tracker tracker' : FieldTracker}

/-- A decoded expression stays so while the tracker grows. -/
theorem decodeExpr_mono (h : tracker.Extends tracker') {cExpr : CompressedExpr}
    {expr : Coefficients Nat} (hOk : decodeExpr bytes cExpr tracker = some expr) :
    decodeExpr bytes cExpr tracker' = some expr := by
  have hLoop : ∀ (entries : CompressedExpr) (decoded expr : Coefficients Nat),
      entries.foldlM (decodeEntry bytes tracker) decoded = some expr →
        entries.foldlM (decodeEntry bytes tracker') decoded = some expr := by
    intro entries
    induction entries with
    | nil => exact fun _ _ hOk => hOk
    | cons entry entries ih =>
      intro decoded expr hOk
      rw [List.foldlM_cons, Option.bind_eq_bind, Option.bind_eq_some_iff] at hOk
      obtain ⟨decoded', hEntry, hRest⟩ := hOk
      rw [decodeEntry, Option.bind_eq_bind, Option.bind_eq_some_iff] at hEntry
      obtain ⟨rawCoeff, hStored, hInserted⟩ := hEntry
      rw [List.foldlM_cons, decodeEntry, h.getConstant hStored]
      exact (congrArg (Option.bind · _) hInserted).trans (ih _ _ hRest)
  exact hLoop cExpr ∅ expr hOk

/-- A decoded constraint stays so while the tracker grows. -/
theorem decodeConstraint_mono (h : tracker.Extends tracker') {compressed : CompressedConstraint}
    {constraint : Constraint Nat}
    (hOk : decodeConstraint bytes compressed tracker = some constraint) :
    decodeConstraint bytes compressed tracker' = some constraint := by
  simp only [decodeConstraint, Option.bind_eq_bind, Option.bind_eq_some_iff] at hOk ⊢
  obtain ⟨a, ha, b, hb, c, hc, hEq⟩ := hOk
  exact ⟨a, decodeExpr_mono h ha, b, decodeExpr_mono h hb, c, decodeExpr_mono h hc, hEq⟩

/-- Inserting the entries of a map, in any order, gives the map. -/
theorem insertMany_arrange (order : HashOrder) (expr : Coefficients Nat) :
    (∅ : Coefficients Nat).insertMany (order.arrange expr.toList) = expr := by
  have hPerm := order.perm expr.toList
  have hNodup : ((order.arrange expr.toList).map Prod.fst).Nodup :=
    (hPerm.map Prod.fst).nodup_iff.mpr (Store.nodup_keys_toList expr)
  refine Std.ExtTreeMap.ext_getElem? ?_
  intro signal
  refine Option.ext ?_
  intro value
  constructor
  · intro hStored
    rcases Store.get?_of_insertMany hStored with hIn | ⟨-, hEmpty⟩
    · exact Store.mem_toList.mp (hPerm.mem_iff.mp hIn)
    · simp at hEmpty
  · intro hStored
    exact Store.get?_insertMany_of_mem hNodup
      (hPerm.mem_iff.mpr (Store.mem_toList.mpr hStored))

/-- One entry more is coded. -/
theorem foldl_codeEntry (hLaw : bytes.Lawful) (entries : List (Nat × Int))
    (coded : CompressedExpr × FieldTracker) :
    coded.2.Extends (entries.foldl (codeEntry bytes) coded).2 ∧
      (∃ rest, (entries.foldl (codeEntry bytes) coded).1 = coded.1 ++ rest ∧
        ∀ decoded, rest.foldlM (decodeEntry bytes (entries.foldl (codeEntry bytes) coded).2)
          decoded = some (decoded.insertMany entries)) ∧
      ∀ raw ∈ (entries.foldl (codeEntry bytes) coded).2.constants, raw ∈ coded.2.constants ∨
        ∃ entry ∈ entries, raw = bytes.toSignedBytesLe entry.2 := by
  induction entries generalizing coded with
  | nil => exact ⟨coded.2.extends_refl, ⟨[], (List.append_nil _).symm, fun _ => rfl⟩, fun _ => .inl⟩
  | cons entry entries ih =>
    obtain ⟨hExtends, hStored, hConstants⟩ :=
      coded.2.insert_spec (bytes.toSignedBytesLe entry.2)
    obtain ⟨hExtends', ⟨rest, hRest, hDecode⟩, hConstants'⟩ := ih (codeEntry bytes coded entry)
    refine ⟨hExtends.trans hExtends',
      ⟨((coded.2.insert (bytes.toSignedBytesLe entry.2)).1, entry.1) :: rest, ?_, ?_⟩, ?_⟩
    · rw [List.foldl_cons, hRest, codeEntry, List.append_assoc, List.singleton_append]
    · intro decoded
      have hEntry : decodeEntry bytes (entries.foldl (codeEntry bytes)
          (codeEntry bytes coded entry)).2 decoded
          ((coded.2.insert (bytes.toSignedBytesLe entry.2)).1, entry.1) =
            some (decoded.insert entry.1 entry.2) := by
        rw [decodeEntry, hExtends'.getConstant hStored, Option.bind_eq_bind, Option.bind_some, hLaw]
        rfl
      rw [List.foldl_cons, List.foldlM_cons, hEntry, Store.insertMany_cons, ← hDecode]
      rfl
    · intro raw hIn
      rcases hConstants' raw hIn with hOld | ⟨entry', hEntry, hEq⟩
      · rcases hConstants raw hOld with hNew | hOld
        · exact .inr ⟨entry, List.mem_cons_self, hNew⟩
        · exact .inl hOld
      · exact .inr ⟨entry', List.mem_cons_of_mem entry hEntry, hEq⟩

/-- The bytes of the coefficients of an expression. -/
def rawCoefficients (bytes : SignedBytes) (expr : Coefficients Nat) : List (List UInt8) :=
  expr.toList.map fun entry => bytes.toSignedBytesLe entry.2

/-- A coded expression is decoded to itself, and brings in its own coefficients only. -/
theorem codeExpression_spec (hLaw : bytes.Lawful) (order : HashOrder) (expr : Coefficients Nat)
    (tracker : FieldTracker) :
    tracker.Extends (codeExpression bytes order expr tracker).2 ∧
      decodeExpr bytes (codeExpression bytes order expr tracker).1
        (codeExpression bytes order expr tracker).2 = some expr ∧
      ∀ raw ∈ (codeExpression bytes order expr tracker).2.constants, raw ∈ tracker.constants ∨
        raw ∈ rawCoefficients bytes expr := by
  obtain ⟨hExtends, ⟨rest, hRest, hDecode⟩, hConstants⟩ :=
    foldl_codeEntry hLaw (order.arrange expr.toList) ([], tracker)
  refine ⟨hExtends, ?_, ?_⟩
  · rw [decodeExpr, codeExpression, hRest, List.nil_append, hDecode, insertMany_arrange]
  · intro raw hIn
    refine (hConstants raw hIn).imp_right ?_
    rintro ⟨entry, hEntry, rfl⟩
    exact List.mem_map_of_mem ((order.perm expr.toList).mem_iff.mp hEntry)

/-- The bytes of the coefficients of a constraint. -/
def Constraint.raw (bytes : SignedBytes) (constraint : Constraint Nat) : List (List UInt8) :=
  rawCoefficients bytes constraint.a ++ rawCoefficients bytes constraint.b ++
    rawCoefficients bytes constraint.c

/-- A coded constraint is decoded to itself, and brings in its own coefficients only. -/
theorem codeConstraint_spec (hLaw : bytes.Lawful) (order : HashOrder)
    (constraint : Constraint Nat) (tracker : FieldTracker) :
    tracker.Extends (codeConstraint bytes order constraint tracker).2 ∧
      decodeConstraint bytes (codeConstraint bytes order constraint tracker).1
        (codeConstraint bytes order constraint tracker).2 = some constraint ∧
      ∀ raw ∈ (codeConstraint bytes order constraint tracker).2.constants,
        raw ∈ tracker.constants ∨ raw ∈ constraint.raw bytes := by
  obtain ⟨hExtendsA, hDecodeA, hConstantsA⟩ := codeExpression_spec hLaw order constraint.a tracker
  obtain ⟨hExtendsB, hDecodeB, hConstantsB⟩ := codeExpression_spec hLaw order constraint.b
    (codeExpression bytes order constraint.a tracker).2
  obtain ⟨hExtendsC, hDecodeC, hConstantsC⟩ := codeExpression_spec hLaw order constraint.c
    (codeExpression bytes order constraint.b (codeExpression bytes order constraint.a tracker).2).2
  refine ⟨(hExtendsA.trans hExtendsB).trans hExtendsC, ?_, ?_⟩
  · simp only [decodeConstraint, codeConstraint, hDecodeC, decodeExpr_mono hExtendsC hDecodeB,
      decodeExpr_mono (hExtendsB.trans hExtendsC) hDecodeA, Option.bind_eq_bind, Option.bind_some]
    rfl
  · intro raw hIn
    rw [Constraint.raw, List.mem_append, List.mem_append]
    rcases hConstantsC raw hIn with hIn | hC
    · rcases hConstantsB raw hIn with hIn | hB
      · exact (hConstantsA raw hIn).imp_right fun hA => .inl (.inl hA)
      · exact .inr (.inl (.inr hB))
    · exact .inr (.inr hC)

end Coding

-- ---------------------------------------------------------------------------
-- The storage as a list
-- ---------------------------------------------------------------------------

namespace ConstraintStorage

variable {bytes : SignedBytes} {storage : ConstraintStorage} {constraints : List (Constraint Nat)}

/-- What the storage holds, decoded. -/
def Represents (bytes : SignedBytes) (storage : ConstraintStorage)
    (constraints : List (Constraint Nat)) : Prop :=
  List.Forall₂ (fun compressed constraint =>
    decodeConstraint bytes compressed storage.fieldTracker = some constraint)
    storage.constraints constraints

theorem represents_new : Represents bytes new [] := .nil

theorem Represents.length (h : Represents bytes storage constraints) :
    storage.constraints.length = constraints.length := List.Forall₂.length_eq h

/-- The ids are the positions of the list. -/
theorem Represents.getIds (h : Represents bytes storage constraints) :
    storage.getIds = List.range constraints.length := by
  rw [ConstraintStorage.getIds, h.length]

/-- Reading an id reads that position. -/
theorem Represents.readConstraint (h : Represents bytes storage constraints) (id : Nat) :
    storage.readConstraint bytes id = some constraints[id]? := by
  rw [ConstraintStorage.readConstraint]
  split
  next compressed hStored =>
    obtain ⟨hLess, rfl⟩ := List.getElem?_eq_some_iff.mp hStored
    have hDecode := List.Forall₂.get h hLess (h.length ▸ hLess)
    rw [List.get_eq_getElem, List.get_eq_getElem] at hDecode
    rw [hDecode, Option.map_some, List.getElem?_eq_getElem]
  next hNone =>
    rw [List.getElem?_eq_none_iff, h.length] at hNone
    rw [List.getElem?_eq_none hNone]

/-- The table grows, and nothing that is stored changes. -/
theorem Represents.mono (h : Represents bytes storage constraints) {tracker : FieldTracker}
    (hExtends : storage.fieldTracker.Extends tracker) :
    Represents bytes ⟨tracker, storage.constraints⟩ constraints :=
  List.Forall₂.imp (fun _ _ hOk => decodeConstraint_mono hExtends hOk) h

/-- Adding appends to the list. -/
theorem Represents.addConstraint (h : Represents bytes storage constraints)
    (hLaw : bytes.Lawful) (order : HashOrder) (constraint : Constraint Nat) :
    (storage.addConstraint bytes order constraint).1 = constraints.length ∧
      Represents bytes (storage.addConstraint bytes order constraint).2
        (constraints ++ [constraint]) := by
  obtain ⟨hExtends, hDecode, -⟩ :=
    codeConstraint_spec hLaw order constraint storage.fieldTracker
  refine ⟨h.length, ?_⟩
  exact List.rel_append (h.mono hExtends) (.cons hDecode .nil)

/-- Replacing sets that position. -/
theorem Represents.replace (h : Represents bytes storage constraints) (hLaw : bytes.Lawful)
    (order : HashOrder) (id : Nat) (constraint : Constraint Nat) :
    Represents bytes (storage.replace bytes order id constraint)
      (constraints.set id constraint) := by
  rw [ConstraintStorage.replace]
  split
  next hLess =>
    obtain ⟨hExtends, hDecode, -⟩ :=
      codeConstraint_spec hLaw order constraint storage.fieldTracker
    have hMono := h.mono hExtends
    have hLess' : id < constraints.length := h.length ▸ hLess
    rw [Represents, List.forall₂_iff_get] at hMono ⊢
    refine ⟨by simpa using h.length, ?_⟩
    intro i hi hi'
    rw [List.get_eq_getElem, List.get_eq_getElem, List.getElem_set, List.getElem_set]
    split
    next => exact hDecode
    next =>
      rw [List.length_set] at hi hi'
      exact hMono.2 i hi hi'
  next hMore =>
    rw [List.set_eq_of_length_le (by rw [← h.length]; omega)]
    exact h

/-- The loop decodes every constraint, and keeps those that do not pass the filter. -/
theorem extractLoop_spec {tracker : FieldTracker} (filter : Constraint Nat → Bool)
    {old : List CompressedConstraint} (h : List.Forall₂ (fun compressed constraint =>
      decodeConstraint bytes compressed tracker = some constraint) old constraints) :
    ∃ rest, extractLoop bytes tracker filter old = some (constraints.filter filter, rest) ∧
      List.Forall₂ (fun compressed constraint =>
        decodeConstraint bytes compressed tracker = some constraint) rest
        (constraints.filter fun constraint => !filter constraint) := by
  induction h with
  | nil => exact ⟨[], rfl, .nil⟩
  | @cons compressed constraint old constraints hDecode _ ih =>
    obtain ⟨rest, hRest, hForall⟩ := ih
    cases hFilter : filter constraint with
    | true =>
      refine ⟨rest, ?_, ?_⟩
      · rw [extractLoop, hDecode, Option.bind_eq_bind, Option.bind_some, hRest,
          Option.bind_eq_bind, Option.bind_some, List.filter_cons_of_pos hFilter]
        simp only [hFilter, if_true]
        rfl
      · rw [List.filter_cons_of_neg (by simp [hFilter])]
        exact hForall
    | false =>
      refine ⟨compressed :: rest, ?_, ?_⟩
      · rw [extractLoop, hDecode, Option.bind_eq_bind, Option.bind_some, hRest,
          Option.bind_eq_bind, Option.bind_some, List.filter_cons_of_neg (by simp [hFilter])]
        simp only [hFilter, Bool.false_eq_true, if_false]
        rfl
      · rw [List.filter_cons_of_pos (by simp [hFilter])]
        exact .cons hDecode hForall

/-- Extracting splits the list by the filter. -/
theorem Represents.extractWith (h : Represents bytes storage constraints)
    (filter : Constraint Nat → Bool) : ∃ storage',
      storage.extractWith bytes filter = some (constraints.filter filter, storage') ∧
      storage'.fieldTracker = storage.fieldTracker ∧
      Represents bytes storage' (constraints.filter fun constraint => !filter constraint) := by
  obtain ⟨rest, hLoop, hForall⟩ := extractLoop_spec filter h
  refine ⟨⟨storage.fieldTracker, rest⟩, ?_, rfl, hForall⟩
  rw [ConstraintStorage.extractWith, hLoop]
  rfl

-- ---------------------------------------------------------------------------
-- Runs
-- ---------------------------------------------------------------------------

/-- What can be done to a storage; a hash map is gone through anew every time. -/
inductive Command
  | add (order : HashOrder) (constraint : Constraint Nat)
  | replace (order : HashOrder) (id : Nat) (constraint : Constraint Nat)
  | extractWith (filter : Constraint Nat → Bool)

/-- What a command answers. -/
inductive Answer
  | id (id : Nat)
  | unit
  | removed (constraints : List (Constraint Nat))

def step (bytes : SignedBytes) (storage : ConstraintStorage) :
    Command → Option (ConstraintStorage × Answer)
  | .add order constraint =>
    let (id, storage) := storage.addConstraint bytes order constraint
    some (storage, .id id)
  | .replace order id constraint => some (storage.replace bytes order id constraint, .unit)
  | .extractWith filter => do
    let (removed, storage) ← storage.extractWith bytes filter
    return (storage, .removed removed)

/-- The commands one after another, with their answers. -/
def run (bytes : SignedBytes) (storage : ConstraintStorage) :
    List Command → Option (ConstraintStorage × List Answer)
  | [] => some (storage, [])
  | command :: commands => do
    let (storage, answer) ← storage.step bytes command
    let (storage, answers) ← run bytes storage commands
    return (storage, answer :: answers)

/-- The same on a plain list. -/
def stepList (constraints : List (Constraint Nat)) :
    Command → List (Constraint Nat) × Answer
  | .add _ constraint => (constraints ++ [constraint], .id constraints.length)
  | .replace _ id constraint => (constraints.set id constraint, .unit)
  | .extractWith filter =>
    (constraints.filter fun constraint => !filter constraint,
      .removed (constraints.filter filter))

def runList (constraints : List (Constraint Nat)) :
    List Command → List (Constraint Nat) × List Answer
  | [] => (constraints, [])
  | command :: commands =>
    let next := stepList constraints command
    let rest := runList next.1 commands
    (rest.1, next.2 :: rest.2)

/-- The bytes of the coefficients that a command brings in. -/
def Command.raw (bytes : SignedBytes) : Command → List (List UInt8)
  | .add _ constraint => constraint.raw bytes
  | .replace _ _ constraint => constraint.raw bytes
  | .extractWith _ => []

/-- Every command does to the list what it says. -/
theorem step_refines (hLaw : bytes.Lawful) (h : Represents bytes storage constraints)
    (command : Command) : ∃ storage',
      storage.step bytes command = some (storage', (stepList constraints command).2) ∧
      Represents bytes storage' (stepList constraints command).1 ∧
      storage.fieldTracker.Extends storage'.fieldTracker ∧
      ∀ raw ∈ storage'.fieldTracker.constants,
        raw ∈ storage.fieldTracker.constants ∨ raw ∈ command.raw bytes := by
  cases command with
  | add order constraint =>
    obtain ⟨hId, hRep⟩ := h.addConstraint hLaw order constraint
    obtain ⟨hExtends, -, hRaw⟩ := codeConstraint_spec hLaw order constraint storage.fieldTracker
    refine ⟨_, ?_, hRep, hExtends, hRaw⟩
    rw [step, stepList, ← hId]
  | replace order id constraint =>
    refine ⟨_, rfl, h.replace hLaw order id constraint, ?_⟩
    obtain ⟨hExtends, -, hRaw⟩ := codeConstraint_spec hLaw order constraint storage.fieldTracker
    rw [ConstraintStorage.replace]
    split
    · exact ⟨hExtends, hRaw⟩
    · exact ⟨ConstantTracker.extends_refl _, fun _ hIn => .inl hIn⟩
  | extractWith filter =>
    obtain ⟨storage', hOk, hSame, hRep⟩ := h.extractWith filter
    refine ⟨storage', ?_, hRep, ?_, ?_⟩
    · rw [step, hOk]
      rfl
    · rw [hSame]
      exact ConstantTracker.extends_refl _
    · rw [hSame]
      exact fun _ hIn => .inl hIn

/-- Every run of commands does to the list what it says. -/
theorem run_represents (hLaw : bytes.Lawful) (h : Represents bytes storage constraints)
    (commands : List Command) : ∃ storage',
      storage.run bytes commands = some (storage', (runList constraints commands).2) ∧
      Represents bytes storage' (runList constraints commands).1 ∧
      storage.fieldTracker.Extends storage'.fieldTracker ∧
      ∀ raw ∈ storage'.fieldTracker.constants,
        raw ∈ storage.fieldTracker.constants ∨ ∃ command ∈ commands, raw ∈ command.raw bytes := by
  induction commands generalizing storage constraints with
  | nil => exact ⟨storage, rfl, h, ConstantTracker.extends_refl _, fun _ hIn => .inl hIn⟩
  | cons command commands ih =>
    obtain ⟨storage₁, hStep, hRep, hExtends, hRaw⟩ := step_refines hLaw h command
    obtain ⟨storage₂, hRun, hRep', hExtends', hRaw'⟩ := ih hRep
    refine ⟨storage₂, ?_, hRep', hExtends.trans hExtends', ?_⟩
    · simp only [run, hStep, Option.bind_eq_bind, Option.bind_some, hRun]
      rfl
    · intro raw hIn
      rcases hRaw' raw hIn with hOld | ⟨later, hLater, hNew⟩
      · exact (hRaw raw hOld).imp_right fun hNew => ⟨command, List.mem_cons_self, hNew⟩
      · exact .inr ⟨later, List.mem_cons_of_mem command hLater, hNew⟩

/-- **The storage is a list.** After any commands, from an empty storage, nothing has panicked,
every answer is the one a plain list gives, and so is every constraint that is read. The table
holds no bytes twice, none that no command has brought in, and no number changes its meaning. -/
theorem run_refines (hLaw : bytes.Lawful) (commands later : List Command) :
    ∃ storage storage', new.run bytes commands = some (storage, (runList [] commands).2) ∧
      storage.run bytes later =
        some (storage', (runList (runList [] commands).1 later).2) ∧
      (∀ id, storage.readConstraint bytes id = some (runList [] commands).1[id]?) ∧
      storage.getIds = List.range (runList [] commands).1.length ∧
      storage.fieldTracker.constants.Nodup ∧
      (∀ raw ∈ storage.fieldTracker.constants, ∃ command ∈ commands, raw ∈ command.raw bytes) ∧
      ∀ id raw, storage.fieldTracker.getConstant id = some raw →
        storage'.fieldTracker.getConstant id = some raw := by
  obtain ⟨storage, hRun, hRep, -, hRaw⟩ := run_represents hLaw represents_new commands
  obtain ⟨storage', hRun', -, hExtends, -⟩ := run_represents hLaw hRep later
  refine ⟨storage, storage', hRun, hRun', hRep.readConstraint, hRep.getIds,
    storage.fieldTracker.nodup_constants, ?_, fun id raw => hExtends.getConstant⟩
  intro raw hIn
  exact (hRaw raw hIn).resolve_left List.not_mem_nil

end ConstraintStorage

-- ---------------------------------------------------------------------------
-- Two's complement
-- ---------------------------------------------------------------------------

namespace Sample

open LittleEndian

/-- The bytes of a natural number, and one more if the last would say it is negative. -/
def unsignedBytes (n : Nat) : List UInt8 :=
  if (digits n).getLast?.any (· < 128) then digits n else digits n ++ [0]

/-- The complement of every byte. -/
def complement (raw : List UInt8) : List UInt8 := raw.map fun byte => 255 - byte

/-- Two's complement, as short as it can be. -/
def signedBytes : SignedBytes where
  toSignedBytesLe
    | .ofNat n => unsignedBytes n
    | .negSucc n => complement (unsignedBytes n)
  fromSignedBytesLe raw :=
    if raw.getLast?.all (· < 128) then value raw else .negSucc (value (complement raw))

/-- The bytes have the value, and the last has no sign bit. -/
theorem unsignedBytes_spec (n : Nat) : value (unsignedBytes n) = n ∧
    ∃ last, (unsignedBytes n).getLast? = some last ∧ last < 128 := by
  rw [unsignedBytes]
  split
  next hSmall =>
    rw [Option.any_eq_true] at hSmall
    obtain ⟨last, hLast, hLess⟩ := hSmall
    exact ⟨value_digits n, last, hLast, by simpa using hLess⟩
  next =>
    refine ⟨(value_append_zeros (digits n) 1).trans (value_digits n), 0, ?_, by decide⟩
    rw [List.getLast?_concat]

theorem toNat_complement (byte : UInt8) : (255 - byte).toNat = 255 - byte.toNat :=
  UInt8.toNat_sub_of_le _ _ (UInt8.le_iff_toNat_le.mpr (Nat.le_of_lt_succ byte.toNat_lt))

/-- Complementing twice gives the bytes back. -/
theorem complement_complement (raw : List UInt8) : complement (complement raw) = raw := by
  rw [complement, complement, List.map_map]
  refine (List.map_congr_left ?_).trans (List.map_id raw)
  intro byte _
  refine UInt8.toNat_inj.mp ?_
  show (255 - (255 - byte)).toNat = byte.toNat
  have hLess := byte.toNat_lt
  rw [toNat_complement, toNat_complement]
  omega

/-- The coding of the sample is undone by its decoding. -/
theorem signedBytes_lawful : signedBytes.Lawful := by
  intro x
  cases x with
  | ofNat n =>
    obtain ⟨hValue, last, hLast, hLess⟩ := unsignedBytes_spec n
    show (if (unsignedBytes n).getLast?.all (· < 128) then _ else _) = _
    rw [hLast, if_pos (by simpa using hLess)]
    exact congrArg Int.ofNat hValue
  | negSucc n =>
    obtain ⟨hValue, last, hLast, hLess⟩ := unsignedBytes_spec n
    show (if (complement (unsignedBytes n)).getLast?.all (· < 128) then _ else _) = _
    have hNegative : ¬ 255 - last < 128 := by
      have hByte : last.toNat < 128 := hLess
      rw [UInt8.lt_iff_toNat_lt, toNat_complement]
      show ¬ 255 - last.toNat < 128
      omega
    rw [complement, List.getLast?_map, hLast, if_neg (by simpa using hNegative)]
    show Int.negSucc (value (complement (complement (unsignedBytes n)))) = _
    rw [complement_complement, hValue]

/-- A constraint with a coefficient that is negative, stored twice. -/
def commands : List ConstraintStorage.Command :=
  let order : HashOrder := ⟨List.reverse, List.reverse_perm⟩
  [.add order ⟨∅, ∅, .ofList [(0, 200), (1, -1)] compare⟩, .add order Constraint.empty,
    .replace order 1 ⟨∅, ∅, .ofList [(2, -1)] compare⟩, .extractWith fun c => 1 ∈ c.c]

end Sample

open Sample in
theorem ConstraintStorage.run_refines_sample :
    ∃ storage storage',
      ConstraintStorage.new.run signedBytes commands =
        some (storage, (ConstraintStorage.runList [] commands).2) ∧
      storage.run signedBytes commands = some (storage',
        (ConstraintStorage.runList (ConstraintStorage.runList [] commands).1 commands).2) ∧
      (∀ id, storage.readConstraint signedBytes id =
        some (ConstraintStorage.runList [] commands).1[id]?) ∧
      storage.getIds = List.range (ConstraintStorage.runList [] commands).1.length ∧
      storage.fieldTracker.constants.Nodup ∧
      (∀ raw ∈ storage.fieldTracker.constants,
        ∃ command ∈ commands, raw ∈ command.raw signedBytes) ∧
      ∀ id raw, storage.fieldTracker.getConstant id = some raw →
        storage'.fieldTracker.getConstant id = some raw :=
  ConstraintStorage.run_refines signedBytes_lawful commands commands

end Ganc.Circom
