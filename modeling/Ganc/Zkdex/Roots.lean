import Ganc.Zkdex.History
import Ganc.Zkdex.Sample

/-!
# x/zkdex — the stored root as a compare-and-set register

`SubmitBatchProof` compares the old root of an update with the stored one and
stores the new root. Only the present value is remembered, so nothing keeps a
later batch from storing an earlier root again. `root_serialisation` is what
the comparison does give: a batch in between must have brought a root back
before it can be named a second time.
-/

namespace Ganc.Zkdex

-- ---------------------------------------------------------------------------
-- Chains of roots
-- ---------------------------------------------------------------------------

/-- A batch names the root the batch before it left. -/
theorem Chained.adjacent {root last : String} {bs : List BatchRecord} (h : Chained root bs last)
    {n : Nat} {b b' : BatchRecord} (hb : bs[n]? = some b) (hb' : bs[n + 1]? = some b') :
    b'.oldStateRoot = b.newStateRoot := by
  induction bs generalizing root n with
  | nil => cases hb
  | cons a bs ih =>
    cases n with
    | succ n => exact ih h.2 hb hb'
    | zero =>
      obtain rfl := Option.some.inj hb
      cases bs with
      | nil => cases hb'
      | cons c bs =>
        obtain rfl := Option.some.inj hb'
        exact h.2.1

/-- How often a root is named, and how often it is stored: each batch that names
it uses up one time that it was stored. -/
theorem Chained.count_named {root last : String} {bs : List BatchRecord}
    (h : Chained root bs last) (r : String) :
    (bs.map BatchRecord.oldStateRoot).count r + (if last = r then 1 else 0) =
      (if root = r then 1 else 0) + (bs.map BatchRecord.newStateRoot).count r := by
  induction bs generalizing root with
  | nil =>
    obtain rfl := h
    simp
  | cons b bs ih =>
    obtain ⟨hOld, hRest⟩ := h
    have hTail := ih hRest
    simp only [List.map_cons, List.count_cons, beq_iff_eq, hOld]
    omega

-- ---------------------------------------------------------------------------
-- Runs
-- ---------------------------------------------------------------------------

/-- **Root serialisation.** Along every run from the default genesis, when two
accepted batches name the same root, an accepted batch from the earlier one on
and before the later one stores that root again; and a root is named at most as
often as it was stored, the genesis included. -/
theorem root_serialisation (k : Keeper) (bank : Bank) (ops : List Op) :
    (∀ (i j : Nat) (b b' : BatchRecord), i < j →
      (k.batches (State.genesis bank) ops)[i]? = some b →
      (k.batches (State.genesis bank) ops)[j]? = some b' →
      b.oldStateRoot = b'.oldStateRoot →
      ∃ (l : Nat) (c : BatchRecord), i ≤ l ∧ l < j ∧
        (k.batches (State.genesis bank) ops)[l]? = some c ∧
        c.newStateRoot = b.oldStateRoot) ∧
    (∀ r : String,
      ((k.batches (State.genesis bank) ops).map BatchRecord.oldStateRoot).count r ≤
        ("0xrootA" ::
          (k.batches (State.genesis bank) ops).map BatchRecord.newStateRoot).count r) := by
  have hChained := (history_reach k bank ops).chained
  refine ⟨?_, ?_⟩
  · intro i j b b' hij _ hb' hEq
    -- the batch right before the later one stored the root it names
    obtain ⟨l, rfl⟩ : ∃ l, j = l + 1 := ⟨j - 1, by omega⟩
    have hLength := (List.getElem?_eq_some_iff.mp hb').1
    have hc := List.getElem?_eq_getElem (Nat.lt_of_succ_lt hLength)
    refine ⟨l, _, by omega, by omega, hc, ?_⟩
    rw [hEq]
    exact (hChained.adjacent hc hb').symm
  · intro r
    have hCount := hChained.count_named r
    rw [List.count_cons]
    simp only [beq_iff_eq]
    omega

section Sample

open Ganc.Zkdex.Sample Ganc.Sample

/-- The bundle of a batch that leads back to the genesis root. -/
def returnBundle : AgreementProofBundle :=
  ⟨"0xproof", ["0xrootB", "0xrootA", "0xd", "0xw", "0xn", "0xo"]⟩

/-- A batch of one withdrawal for Bob. -/
def credit (batchId oldStateRoot newStateRoot nullifier : String) : SettlementUpdate where
  batchId := batchId
  oldStateRoot := oldStateRoot
  newStateRoot := newStateRoot
  deposits := []
  withdrawals := [some ⟨"wd-" ++ batchId, alice, "uatom", "1", bob, "0xhash", nullifier⟩]

/-- From the genesis root away, back, and away again. -/
def roundTrip : List Op := [
  ⟨⟨1, .ok zeros⟩, .submitBatchProof
    ⟨carol, credit "b1" "0xrootA" "0xrootB" "0x1", commitments, encoded bundle⟩⟩,
  ⟨⟨2, .ok zeros⟩, .submitBatchProof
    ⟨carol, credit "b2" "0xrootB" "0xrootA" "0x2", commitments, encoded returnBundle⟩⟩,
  ⟨⟨3, .ok zeros⟩, .submitBatchProof
    ⟨carol, credit "b3" "0xrootA" "0xrootB" "0x3", commitments, encoded bundle⟩⟩]

/-- The genesis root is named by the first batch and by the third. -/
theorem root_named_twice : ¬ ∀ (k : Keeper) (bank : Bank) (ops : List Op),
    ((k.batches (State.genesis bank) ops).map BatchRecord.oldStateRoot).Nodup := by
  intro hOnce
  have hRoots : (({ keeper with json := reading [bundle, returnBundle] } : Keeper).batches
      (State.genesis bank) roundTrip).map BatchRecord.oldStateRoot =
      ["0xrootA", "0xrootB", "0xrootA"] := by
    decide +kernel
  have hNodup := hOnce { keeper with json := reading [bundle, returnBundle] } bank roundTrip
  rw [hRoots] at hNodup
  exact absurd hNodup (by decide)

end Sample

end Ganc.Zkdex
