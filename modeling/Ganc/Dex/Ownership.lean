import Ganc.Dex.Sample
import Ganc.Dex.StepSpec

/-!
# x/dex — who can change a market record

`CreateMarket`, `UpdateMarket` and `DeleteMarket` keep a record to its creator.
`RegisterPairs` does not look at the record it replaces, whoever sends it, and
leaves one that nobody owns. `market_ownership` says that nothing else stands
between a creator and the ownership of a record.
-/

namespace Ganc.Dex

variable {k : Keeper}

-- ---------------------------------------------------------------------------
-- Records and their owners
-- ---------------------------------------------------------------------------

/-- The account that sends the message. -/
def Op.signer : Op → Option String
  | .deliver _ (.updateParams msg) => some msg.authority
  | .deliver _ (.createMarket msg) => some msg.creator
  | .deliver _ (.updateMarket msg) => some msg.creator
  | .deliver _ (.deleteMarket msg) => some msg.creator
  | .deliver _ (.createOrder msg) => some msg.creator
  | .deliver _ (.updateOrder msg) => some msg.creator
  | .deliver _ (.deleteOrder msg) => some msg.creator
  | .deliver _ (.registerPairs msg) => some msg.creator
  | .deliver _ (.placeOrder msg) => some msg.creator
  | .deliver _ (.cleanOrders msg) => some msg.creator
  | .endBlock => none

/-- The record under `id` names `c` as its creator. -/
def OwnedBy (c id : String) (s : State) : Prop :=
  ∃ m, s.market[id]? = some m ∧ m.creator = c

def Changes (k : Keeper) (id : String) (s : State) (op : Op) : Prop :=
  (k.step s op).market[id]? ≠ s.market[id]?

/-- `c` deletes the record. -/
def DeletedBy (k : Keeper) (c id : String) (s : State) (op : Op) : Prop :=
  op.signer = some c ∧ (k.step s op).market[id]? = none

/-- A `RegisterPairs` of the id. -/
def Registers (id : String) : Op → Prop
  | .deliver _ (.registerPairs msg) => pairId msg.baseDenom msg.quoteDenom = id
  | _ => False

/-- A `RegisterPairs` of the id is sent by `c`, or writes the record that is
there already. -/
def RegistersOwn (c id : String) (s : State) : Op → Prop
  | .deliver _ (.registerPairs msg) => pairId msg.baseDenom msg.quoteDenom = id →
      msg.creator = c ∨ s.market[id]? = some msg.toMarket
  | _ => True

/-- `UpdateMarket` and `DeleteMarket` of the id are open to `c`. -/
def Manages (k : Keeper) (c id : String) (s : State) : Prop :=
  (∀ (ctx : Context) (msg : MsgUpdateMarket), msg.creator = c → msg.index = id →
    ∃ s' r, k.handle ctx s (.updateMarket msg) = .ok (s', r)) ∧
  (∀ (ctx : Context) (msg : MsgDeleteMarket), msg.creator = c → msg.index = id →
    ∃ s' r, k.handle ctx s (.deleteMarket msg) = .ok (s', r))

-- ---------------------------------------------------------------------------
-- One step
-- ---------------------------------------------------------------------------

section Step

variable {c id : String} {s : State} {op : Op}

/-- A stored record is changed by its creator, or by a `RegisterPairs`. -/
theorem write_cases (hCodec : ∀ addr, k.sdk.stringToBytes "" ≠ .ok addr) (op : Op) {m : Market}
    (hStored : s.market[id]? = some m) :
    (k.step s op).market[id]? = s.market[id]? ∨
      (op.signer = some m.creator ∧ m.creator ≠ "" ∧ ¬ Registers id op ∧
        ((k.step s op).market[id]? = none ∨ OwnedBy m.creator id (k.step s op))) ∨
      (∃ ctx msg, op = .deliver ctx (.registerPairs msg) ∧ Registers id op ∧
        (k.step s op).market[id]? = some msg.toMarket) := by
  -- the message of a creator has passed the address codec
  have hSigned : ∀ {t}, (∃ addr, k.sdk.stringToBytes t = .ok addr) → t ≠ "" := by
    rintro t ⟨addr, hAddr⟩ rfl
    exact hCodec addr hAddr
  have hWrite := market_step k s op id
  unfold OwnedBy
  generalize (k.step s op).market[id]? = after at hWrite ⊢
  rcases hWrite with hSame | hWrite
  · exact .inl hSame
  cases hWrite with
  | created hId hFresh =>
    rw [hStored] at hFresh
    cases hFresh
  | updated hId hOld hOwner hCreator =>
    obtain rfl := Option.some.inj (hStored.symm.trans hOld)
    exact .inr (.inl ⟨congrArg some hOwner, hOwner ▸ hSigned hCreator, not_false,
      .inr ⟨_, rfl, hOwner⟩⟩)
  | deleted hId hOld hOwner hCreator =>
    obtain rfl := Option.some.inj (hStored.symm.trans hOld)
    exact .inr (.inl ⟨congrArg some hOwner, hOwner ▸ hSigned hCreator, not_false, .inl rfl⟩)
  | registered hId => exact .inr (.inr ⟨_, _, rfl, hId, rfl⟩)

/-- A `RegisterPairs` leaves a record without a creator. -/
theorem registers_step (hOp : Registers id op) : OwnedBy "" id (k.step s op) := by
  cases op with
  | endBlock => exact hOp.elim
  | deliver ctx msg =>
    cases msg with
    | registerPairs msg =>
      obtain rfl : pairId msg.baseDenom msg.quoteDenom = id := hOp
      exact ⟨msg.toMarket, Std.ExtTreeMap.getElem?_insert_self, rfl⟩
    | _ => exact hOp.elim

/-- Only its owner's deletion or a registration takes a market from its owner. -/
theorem owned_step (hCodec : ∀ addr, k.sdk.stringToBytes "" ≠ .ok addr)
    (hOwned : OwnedBy c id s) (hKept : ¬ DeletedBy k c id s op) (hOp : ¬ Registers id op) :
    OwnedBy c id (k.step s op) := by
  obtain ⟨m, hStored, rfl⟩ := hOwned
  rcases write_cases hCodec op hStored with
    hSame | ⟨hSigner, -, -, hGone | hOwned⟩ | ⟨_, _, -, hRegisters, -⟩
  · exact ⟨m, hSame.trans hStored, rfl⟩
  · exact absurd ⟨hSigner, hGone⟩ hKept
  · exact hOwned
  · exact absurd hRegisters hOp

/-- A record without a creator stays one: nobody can sign for the empty string. -/
theorem ownerless_step (hCodec : ∀ addr, k.sdk.stringToBytes "" ≠ .ok addr)
    (hOwned : OwnedBy "" id s) : OwnedBy "" id (k.step s op) := by
  obtain ⟨m, hStored, hCreator⟩ := hOwned
  rcases write_cases hCodec op hStored with
    hSame | ⟨-, hNonempty, -⟩ | ⟨_, _, -, hRegisters, -⟩
  · exact ⟨m, hSame.trans hStored, hCreator⟩
  · exact absurd hCreator hNonempty
  · exact registers_step hRegisters

/-- Without a deletion by the owner, a market stays with its owner or with nobody. -/
theorem held_step (hCodec : ∀ addr, k.sdk.stringToBytes "" ≠ .ok addr)
    (hKept : ¬ DeletedBy k c id s op) (hHeld : OwnedBy c id s ∨ OwnedBy "" id s) :
    OwnedBy c id (k.step s op) ∨ OwnedBy "" id (k.step s op) := by
  rcases hHeld with hOwned | hOwned
  · by_cases hOp : Registers id op
    · exact .inr (registers_step hOp)
    · exact .inl (owned_step hCodec hOwned hKept hOp)
  · exact .inr (ownerless_step hCodec hOwned)

/-- As long as the record is `c`'s or nobody's, others change it with a
`RegisterPairs` or not at all. -/
theorem changes_iff (hCodec : ∀ addr, k.sdk.stringToBytes "" ≠ .ok addr)
    (hHeld : OwnedBy c id s ∨ OwnedBy "" id s) :
    (Changes k id s op → op.signer = some c) ↔ RegistersOwn c id s op := by
  obtain ⟨m, hStored, hCreator⟩ : ∃ m, s.market[id]? = some m ∧
      (m.creator = c ∨ m.creator = "") := by
    rcases hHeld with ⟨m, hStored, hCreator⟩ | ⟨m, hStored, hCreator⟩
    · exact ⟨m, hStored, .inl hCreator⟩
    · exact ⟨m, hStored, .inr hCreator⟩
  constructor
  · intro h
    cases op with
    | endBlock => trivial
    | deliver ctx msg =>
      cases msg with
      | registerPairs msg =>
        intro hId
        by_cases hSame : s.market[id]? = some msg.toMarket
        · exact .inr hSame
        · refine .inl (Option.some.inj (h ?_))
          intro hEq
          refine hSame (hEq.symm.trans ?_)
          subst hId
          exact Std.ExtTreeMap.getElem?_insert_self
      | _ => trivial
  · intro hOwn hChanges
    rcases write_cases hCodec op hStored with
      hSame | ⟨hSigner, hNonempty, -⟩ | ⟨ctx, msg, rfl, hRegisters, hAfter⟩
    · exact absurd hSame hChanges
    · rw [hSigner, hCreator.resolve_right hNonempty]
    · rcases hOwn hRegisters with hSender | hSame
      · exact congrArg some hSender
      · exact absurd (hAfter.trans hSame.symm) hChanges

end Step

-- ---------------------------------------------------------------------------
-- The right of a creator
-- ---------------------------------------------------------------------------

/-- A creator on record is an address, or nobody. -/
def Addressed (k : Keeper) (s : State) : Prop :=
  ∀ (id : String) (m : Market), s.market[id]? = some m →
    m.creator = "" ∨ ∃ addr, k.sdk.stringToBytes m.creator = .ok addr

/-- Every step keeps the owners addresses, or empty. -/
theorem addressed_step (s : State) (op : Op) (h : Addressed k s) : Addressed k (k.step s op) := by
  intro id m hm
  have hWrite := market_step k s op id
  rw [hm] at hWrite
  rcases hWrite with hSame | hWrite
  · exact h id m hSame.symm
  cases hWrite with
  | created hId hFresh hCreator => exact .inr hCreator
  | updated hId hOld hOwner hCreator => exact .inr hCreator
  | registered hId => exact .inl rfl

/-- The owner passes the check. -/
theorem checkOwner_isOk {ν : Type} {m : Store String ν} {creatorOf : ν → String}
    {creator index : String} {old : ν} {addr : AccAddress}
    (hAddr : k.sdk.stringToBytes creator = .ok addr) (hOld : m[index]? = some old)
    (hOwner : creator = creatorOf old) : k.checkOwner m creatorOf creator index = .ok () := by
  simp only [Keeper.checkOwner, Keeper.checkCreator, hAddr, hOld, Result.bind_eq_ok,
    Result.require_eq_ok, Result.ofOption_eq_ok]
  exact ⟨(), trivial, old, rfl, hOwner⟩

/-- An address can manage a market exactly if it owns it. -/
theorem manages_iff {c id : String} {s : State} (hNonempty : c ≠ "") (h : Addressed k s) :
    Manages k c id s ↔ OwnedBy c id s := by
  constructor
  · rintro ⟨-, hDelete⟩
    obtain ⟨s', r, hOk⟩ := hDelete ⟨0, fun l => l, fun _ => .refl _⟩ ⟨c, id⟩ rfl rfl
    obtain ⟨_, hCheck, -⟩ := Result.bind_eq_ok.mp hOk
    obtain ⟨old, hOld, hOwner⟩ := checkOwner_eq_ok hCheck
    exact ⟨old, hOld, hOwner.symm⟩
  · rintro ⟨m, hStored, rfl⟩
    obtain ⟨addr, hAddr⟩ := (h id m hStored).resolve_left hNonempty
    have hCheck : k.checkOwner s.market Market.creator m.creator id = .ok () :=
      checkOwner_isOk hAddr hStored rfl
    constructor
    · rintro ctx msg hCreator rfl
      exact ⟨_, _, Result.bind_eq_ok.mpr ⟨(), hCreator ▸ hCheck, rfl⟩⟩
    · rintro ctx msg hCreator rfl
      exact ⟨_, _, Result.bind_eq_ok.mpr ⟨(), hCreator ▸ hCheck, rfl⟩⟩

-- ---------------------------------------------------------------------------
-- Runs
-- ---------------------------------------------------------------------------

/-- The record is still `c`'s at the end exactly when the run has no
`RegisterPairs` of its id. -/
theorem owned_run {c id : String} {s : State} {ops : List Op} (hNonempty : c ≠ "")
    (hCodec : ∀ addr, k.sdk.stringToBytes "" ≠ .ok addr) (hOwned : OwnedBy c id s)
    (hKept : Run.Steps k.step (fun s op => ¬ DeletedBy k c id s op) s ops) :
    OwnedBy c id (Run.exec k.step s ops) ↔
      Run.Steps k.step (fun _ op => ¬ Registers id op) s ops := by
  induction ops generalizing s with
  | nil => exact iff_of_true hOwned trivial
  | cons op ops ih =>
    rw [Run.exec_cons, Run.steps_cons]
    by_cases hOp : Registers id op
    · refine iff_of_false ?_ fun h => h.1 hOp
      rintro ⟨m, hStored, hCreator⟩
      obtain ⟨m', hStored', hNobody⟩ := Run.exec_invariant (I := OwnedBy "" id)
        (fun _ _ h => ownerless_step hCodec h) ops (registers_step (k := k) (s := s) hOp)
      obtain rfl := Option.some.inj (hStored.symm.trans hStored')
      exact hNonempty (hCreator.symm.trans hNobody)
    · rw [ih (owned_step hCodec hOwned hKept.1 hOp) hKept.2]
      exact (and_iff_right hOp).symm

/-- **Market ownership.** From a reachable state in which `c` owns the record, and
along every run in which `c` does not delete it: all changes of the record come
from `c` exactly when each `RegisterPairs` of its id does, or writes what is
there already; and `c` can still update and delete it at the end exactly when
there was none. -/
theorem market_ownership (hCodec : ∀ addr, k.sdk.stringToBytes "" ≠ .ok addr) {bank : Bank}
    {pre ops : List Op} {c id : String} (hNonempty : c ≠ "")
    (hOwned : OwnedBy c id (k.reach bank pre))
    (hKept : Run.Steps k.step (fun s op => ¬ DeletedBy k c id s op) (k.reach bank pre) ops) :
    (Run.Steps k.step (fun s op => Changes k id s op → op.signer = some c)
        (k.reach bank pre) ops ↔
      Run.Steps k.step (RegistersOwn c id) (k.reach bank pre) ops) ∧
    (Manages k c id (k.reach bank (pre ++ ops)) ↔
      Run.Steps k.step (fun _ op => ¬ Registers id op) (k.reach bank pre) ops) := by
  refine ⟨?_, ?_⟩
  · exact Run.steps_iff (I := fun s => OwnedBy c id s ∨ OwnedBy "" id s)
      (fun _ _ hKept hHeld => held_step hCodec hKept hHeld)
      (fun _ _ _ hHeld => changes_iff hCodec hHeld) hKept (.inl hOwned)
  · have hEmpty : Addressed k (State.empty bank) := by
      intro id' m hm
      simp [State.empty] at hm
    have hAddressed : Addressed k (k.reach bank (pre ++ ops)) :=
      Run.exec_invariant addressed_step (pre ++ ops) hEmpty
    rw [manages_iff hNonempty hAddressed, Keeper.reach, Run.exec_append]
    exact owned_run hNonempty hCodec hOwned hKept

section Sample

open Ganc.Dex.Sample Ganc.Sample

/-- Alice lists a market of her own. -/
def lists : Op := .deliver (block 1)
  (.createMarket ⟨alice, "uatom-uusdt", "uatom", "uusdt", "1", "1", "ACTIVE"⟩)

/-- The codec of the sample refuses the empty string. -/
theorem sample_codec : ∀ addr, keeper.sdk.stringToBytes "" ≠ .ok addr := by
  have hRefused : keeper.sdk.stringToBytes "" = .error "decoding bech32 failed" := by
    decide +kernel
  intro addr hAddr
  rw [hRefused] at hAddr
  cases hAddr

theorem alice_owns : OwnedBy alice "uatom-uusdt" (keeper.reach bank [lists]) := by
  have hStored : (keeper.reach bank [lists]).market["uatom-uusdt"]? =
      some ⟨"uatom-uusdt", "uatom", "uusdt", "1", "1", "ACTIVE", alice⟩ := by
    decide +kernel
  exact ⟨_, hStored, rfl⟩

/-- Alice's market after Bob has registered another pair. -/
theorem market_ownership_sample :
    Manages keeper alice "uatom-uusdt"
      (keeper.reach bank ([lists] ++ [register bob "uosmo" "uusdt"])) := by
  have hKept : Run.Steps keeper.step (fun s op => ¬ DeletedBy keeper alice "uatom-uusdt" s op)
      (keeper.reach bank [lists]) [register bob "uosmo" "uusdt"] := by
    refine ⟨?_, trivial⟩
    rintro ⟨hSigner, -⟩
    exact absurd (Option.some.inj hSigner) (by decide)
  refine (market_ownership sample_codec (by decide) alice_owns hKept).2.mpr ⟨?_, trivial⟩
  show ¬ pairId "uosmo" "uusdt" = "uatom-uusdt"
  decide

/-- Bob registers the pair of Alice's market: the record changes, and it is no
longer hers to update. -/
theorem market_taken :
    OwnedBy alice "uatom-uusdt" (keeper.reach bank [lists]) ∧
    Changes keeper "uatom-uusdt" (keeper.reach bank [lists]) (register bob "uatom" "uusdt") ∧
    (register bob "uatom" "uusdt").signer ≠ some alice ∧
    response (keeper.handle (block 3) (keeper.reach bank [lists, register bob "uatom" "uusdt"])
      (.deleteMarket ⟨alice, "uatom-uusdt"⟩)) =
        .error (.error .unauthorized ["incorrect owner"]) := by
  refine ⟨alice_owns, ?_, by decide, by decide +kernel⟩
  unfold Changes
  decide +kernel

end Sample

end Ganc.Dex
