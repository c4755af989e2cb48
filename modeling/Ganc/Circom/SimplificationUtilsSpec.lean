import Ganc.Circom.AlgebraSpec
import Ganc.Circom.SimplificationUtils
import Ganc.Lib.Elimination
import Ganc.Lib.Fuel

/-!
# circom — the two ways to eliminate signals

A list of linear constraints over a prime field is turned into substitutions.
Both heuristics keep one invariant: the constraints say what the substitutions
made so far and the constraints set aside say, together with the constraints
that have not been treated. A conflict replaces a constraint by another one
with the same meaning, in which a signal has given way to signals that were
eliminated later; so the loop ends, and in the order of elimination no
substitution mentions what is treated after it.

* `substitutionProcess3_spec` — the greatest signal first;
* `substitutionProcess4_spec` — the signals that occur once, then the one with
  the least occurrences in the constraints that have not been treated.
-/

set_option linter.unusedSectionVars false

namespace Ganc.Circom

open Fuel

variable {p : Nat} [Fact p.Prime] {forbidden : SignalSet Nat} {U : Nat → Prop}

theorem field_pos : 0 < (p : Int) := Int.natCast_pos.mpr (Fact.out : p.Prime).pos

-- ---------------------------------------------------------------------------
-- The invariant
-- ---------------------------------------------------------------------------

/-- A linear constraint of the signals in `U`. -/
structure Given (p : Nat) (U : Nat → Prop) (c : Constraint Nat) : Prop where
  linear : c.Linear p
  signals : ∀ t ∈ c.c, t = constantCoefficient ∨ U t

/-- A constraint that is set aside: there is nothing to solve it for. -/
structure SetAside (p : Nat) (forbidden : SignalSet Nat) (U : Nat → Prop) (c : Constraint Nat) :
    Prop extends Given p U c where
  fixed : ∀ t ∈ c.c, t ∈ forbidden

/-- What is stored for a signal that has been eliminated. -/
structure Eliminated (p : Nat) (forbidden : SignalSet Nat) (U : Nat → Prop) (signal : Nat)
    (entry : Int × Substitution Nat) : Prop where
  from_ : entry.2.from_ = signal
  free : signal ∉ forbidden
  known : U signal
  solves : Solves p entry.1 entry.2
  signals : ∀ t ∈ entry.2.to_, t = constantCoefficient ∨ U t

/-- What the substitutions and the constraints set aside say. -/
def Says (w : Nat → ZMod p) (substitutions : SHNotNormalized) (lconst : List (Constraint Nat)) :
    Prop :=
  (∀ (signal : Nat) (entry : Int × Substitution Nat), substitutions[signal]? = some entry →
    SolvesAt w entry.1 entry.2) ∧
    ∀ c ∈ lconst, c.Holds w

/-- A constraint in the list is one more thing that is said. -/
theorem says_append {w : Nat → ZMod p} {substitutions : SHNotNormalized}
    {lconst : List (Constraint Nat)} {c : Constraint Nat} :
    Says w substitutions (lconst ++ [c]) ↔ c.Holds w ∧ Says w substitutions lconst := by
  rw [Says, Says, List.forall_mem_append, List.forall_mem_singleton]
  tauto

/-- A substitution is one more thing that is said. -/
theorem says_insert {w : Nat → ZMod p} {substitutions : SHNotNormalized}
    {lconst : List (Constraint Nat)} {signal : Nat} {entry : Int × Substitution Nat}
    (hNone : substitutions[signal]? = none) :
    Says w (substitutions.insert signal entry) lconst ↔
      SolvesAt w entry.1 entry.2 ∧ Says w substitutions lconst := by
  constructor
  · rintro ⟨hEntries, hConst⟩
    refine ⟨hEntries signal entry Std.ExtTreeMap.getElem?_insert_self, ?_, hConst⟩
    intro signal' entry' hStored
    refine hEntries signal' entry' ?_
    rw [Store.get?_insert_ne, hStored]
    rintro rfl
    rw [hNone] at hStored
    cases hStored
  · rintro ⟨hSolves, hEntries, hConst⟩
    refine ⟨?_, hConst⟩
    intro signal' entry' hStored
    rw [Store.get?_insert] at hStored
    split at hStored
    next => exact Option.some.inj hStored ▸ hSolves
    next => exact hEntries signal' entry' hStored

-- ---------------------------------------------------------------------------
-- One step
-- ---------------------------------------------------------------------------

/-- A constraint solved for one of its signals. -/
theorem Given.eliminated {work : Constraint Nat} (h : Given p U work)
    (hZero : constantCoefficient ∈ forbidden) {out : Nat} (hIn : out ∈ work.c)
    (hFree : out ∉ forbidden) : ∃ entry : Int × Substitution Nat,
      work.clearSignalFromLinearNotNormalized out p = some entry ∧
      Eliminated p forbidden U out entry ∧
      (∀ t ∈ entry.2.to_, t = constantCoefficient ∨ t ∈ work.c ∧ t ≠ out) ∧
      ∀ w : Nat → ZMod p, work.Holds w ↔ SolvesAt w entry.1 entry.2 := by
  have hne : out ≠ constantCoefficient := by
    rintro rfl
    exact hFree hZero
  obtain ⟨coefficient, s, hOk, hFrom, hSolves, hKeys, hHolds⟩ := h.linear.clearSignal hIn hne
  refine ⟨(coefficient, s), hOk, ⟨hFrom, hFree, (h.signals out hIn).resolve_left hne, hSolves, ?_⟩,
    hKeys, hHolds⟩
  intro t ht
  exact (hKeys t ht).elim .inl fun hBoth => h.signals t hBoth.1

/-- A conflict is resolved: given what is stored, the new constraint says what the old one
said, without the signal. -/
theorem mergeConflict_spec {out : Nat} {entry stored : Int × Substitution Nat}
    (hNew : Eliminated p forbidden U out entry) (hOld : Eliminated p forbidden U out stored) :
    ∃ work, mergeConflict entry.1 entry.2 stored p = some work ∧ Given p U work ∧
      (∀ t ∈ work.c, t = constantCoefficient ∨ t ∈ entry.2.to_ ∨ t ∈ stored.2.to_) ∧
      ∀ w : Nat → ZMod p, w constantCoefficient = 1 → SolvesAt w stored.1 stored.2 →
        (work.Holds w ↔ SolvesAt w entry.1 entry.2) := by
  let S : Nat → Prop := fun t => t ∈ entry.2.to_ ∨ t ∈ stored.2.to_
  have hZero : (((p : Int) : Int) : ZMod p) = 0 := ModularArithmetic.cast_field
  have hInLeft : ∀ t, t ∈ entry.2.to_ → t = constantCoefficient ∨ S t := fun t ht => .inr (.inl ht)
  have hInRight : ∀ t, t ∈ stored.2.to_ → t = constantCoefficient ∨ S t :=
    fun t ht => .inr (.inr ht)
  have hLeft := ((ArithmeticExpression.denotes_hashmapIntoArith (R := ZMod p)
    entry.2.to_).mono hInLeft).mul_number hZero stored.1
  have hRight := ((ArithmeticExpression.denotes_hashmapIntoArith (R := ZMod p)
    stored.2.to_).mono hInRight).mul_number hZero entry.1
  obtain ⟨merge, hMerge, hDenotes⟩ := hLeft.sub hZero hRight
  obtain ⟨k, hForm, hLinear, hOccurs, hHolds⟩ := hDenotes.constraint hZero field_pos
  have hKeys : ∀ t ∈ k.removeZeroValueCoefficients.c,
      t = constantCoefficient ∨ t ∈ entry.2.to_ ∨ t ∈ stored.2.to_ :=
    fun t ht => hOccurs t (.inr (.inr (Coefficients.mem_of_mem_removeZeroValue ht)))
  refine ⟨k.removeZeroValueCoefficients, ?_, ⟨hLinear, ?_⟩, hKeys, ?_⟩
  · have hMergeConflict : mergeConflict entry.1 entry.2 stored p =
        (ArithmeticExpression.sub
          (ArithmeticExpression.mul (.number stored.1)
            (ArithmeticExpression.hashmapIntoArith entry.2.to_) p)
          (ArithmeticExpression.mul (.number entry.1)
            (ArithmeticExpression.hashmapIntoArith stored.2.to_) p) p).bind fun merge =>
          (ArithmeticExpression.transformExpressionToConstraintForm merge p).bind fun work =>
            some work.removeZeroValueCoefficients := rfl
    rw [hMergeConflict, hMerge, Option.bind_some, hForm, Option.bind_some]
  · intro t ht
    rcases hKeys t ht with hConstant | hTo | hTo
    · exact .inl hConstant
    · exact hNew.signals t hTo
    · exact hOld.signals t hTo
  · intro w hOne hStored
    -- `stored.1 * out = stored.2` turns `entry.1 * out = entry.2`, times `stored.1`,
    -- into the merged equation
    have hStored' : (stored.1 : ZMod p) * w out = stored.2.to_.eval w := by
      rw [← hOld.from_]
      exact hStored
    have hUnit := hOld.solves.coefficient
    rw [hHolds w hOne, SolvesAt, hNew.from_, sub_eq_zero, ← hStored']
    constructor
    · intro hEq
      refine mul_left_cancel₀ hUnit ?_
      rw [hEq]
      ring
    · intro hEq
      rw [← hEq]
      ring

-- ---------------------------------------------------------------------------
-- The greatest signal first
-- ---------------------------------------------------------------------------

/-- The first heuristic takes the last signal that can be taken. -/
theorem takeSignal3_eq (signals : SignalDefinition) (work : Constraint Nat) :
    takeSignal3 signals work = (work.c.keys.filter signals.canBeTaken).max? := by
  have hFold : ∀ (keys : List Nat) (ret : Option Nat), keys.foldl (fun ret k =>
      if signals.canBeTaken k then some (ret.elim k fun v => max k v) else ret) ret =
        (ret.toList ++ keys.filter signals.canBeTaken).max? := by
    intro keys
    induction keys with
    | nil =>
      rintro (_ | v)
      · rfl
      · rfl
    | cons k keys ih =>
      intro ret
      rw [List.foldl_cons, ih, List.filter_cons]
      split
      next =>
        cases ret with
        | none => rfl
        | some v =>
          rw [Option.elim_some, max_comm k v]
          rfl
      next => rfl
  exact hFold work.c.keys none

/-- The signal taken is free, and the last of the free ones. -/
theorem takeSignal3_spec (signals : SignalDefinition) (work : Constraint Nat) :
    (takeSignal3 signals work = none → ∀ t ∈ work.c, t ∈ signals.forbidden) ∧
    ∀ out, takeSignal3 signals work = some out → out ∈ work.c ∧ out ∉ signals.forbidden ∧
      ∀ t ∈ work.c, t ∉ signals.forbidden → t ≤ out := by
  have hMem : ∀ t, t ∈ work.c.keys.filter signals.canBeTaken ↔
      t ∈ work.c ∧ t ∉ signals.forbidden := by
    intro t
    rw [List.mem_filter, Std.ExtTreeMap.mem_keys, SignalDefinition.canBeTaken, decide_eq_true_eq]
  rw [takeSignal3_eq]
  refine ⟨?_, ?_⟩
  · intro hNone t ht
    by_contra hFree
    have hIn := (hMem t).mpr ⟨ht, hFree⟩
    rw [List.max?_eq_none_iff.mp hNone] at hIn
    exact absurd hIn List.not_mem_nil
  · intro out hSome
    obtain ⟨hOut, hMax⟩ := List.max?_eq_some_iff.mp hSome
    exact ⟨((hMem out).mp hOut).1, ((hMem out).mp hOut).2,
      fun t ht hFree => hMax t ((hMem t).mpr ⟨ht, hFree⟩)⟩

/-- The invariant of the first heuristic: a signal is greater than those that replace it. -/
structure Keeps3 (p : Nat) (forbidden : SignalSet Nat) (U : Nat → Prop) (s : Process3) : Prop where
  fixed : s.signals.forbidden = forbidden
  entries : ∀ (signal : Nat) (entry : Int × Substitution Nat),
    s.substitutions[signal]? = some entry → Eliminated p forbidden U signal entry
  descending : ∀ (signal : Nat) (entry : Int × Substitution Nat),
    s.substitutions[signal]? = some entry → ∀ t ∈ entry.2.to_, t ∉ forbidden → t < signal
  lconst : ∀ c ∈ s.lconst, SetAside p forbidden U c

/-- Treating a constraint ends, and it is then said besides what was said before. -/
theorem treatConstraint3_spec (hZero : constantCoefficient ∈ forbidden) {s : Process3}
    {work : Constraint Nat} (h : Keeps3 p forbidden U s) (hWork : Given p U work) :
    ∃ s', Settles (fun fuel => treatConstraint3 p fuel s work) s' ∧ Keeps3 p forbidden U s' ∧
      ∀ w : Nat → ZMod p, w constantCoefficient = 1 →
        (Says w s'.substitutions s'.lconst ↔ work.Holds w ∧ Says w s.substitutions s.lconst) := by
  -- on a bound for the signals that may be taken
  obtain ⟨bound, hBound⟩ : ∃ bound, ∀ t ∈ work.c, t ∉ forbidden → t < bound := by
    refine ⟨work.c.keys.sum + 1, fun t ht _ => Nat.lt_succ_of_le ?_⟩
    exact List.le_sum_of_mem (Std.ExtTreeMap.mem_keys.mpr ht)
  induction bound using Nat.strong_induction_on generalizing s work with
  | _ bound ih =>
  by_cases hEmpty : work.isEmpty = true
  · refine ⟨s, settles_succ (g := fun _ => some s) ?_ (settles_of_eq fun _ => rfl), h, ?_⟩
    · intro fuel
      rw [treatConstraint3, if_pos hEmpty]
    · intro w _
      exact (and_iff_right (Constraint.holds_of_isEmpty hEmpty)).symm
  obtain ⟨hNone, hSome⟩ := takeSignal3_spec s.signals work
  rw [h.fixed] at hNone hSome
  cases hTake : takeSignal3 s.signals work with
  | none =>
    refine ⟨{ s with lconst := s.lconst ++ [work] }, settles_succ (g := fun _ => some _) ?_
      (settles_of_eq fun _ => rfl), ⟨h.fixed, h.entries, h.descending, ?_⟩, ?_⟩
    · intro fuel
      rw [treatConstraint3, if_neg hEmpty, hTake]
    · exact List.forall_mem_append.mpr
        ⟨h.lconst, List.forall_mem_singleton.mpr ⟨hWork, hNone hTake⟩⟩
    · exact fun w _ => says_append
  | some out =>
    obtain ⟨hIn, hFree, hMax⟩ := hSome out hTake
    obtain ⟨entry, hClear, hNew, hKeys, hHolds⟩ := hWork.eliminated hZero hIn hFree
    have hBelow : ∀ t ∈ entry.2.to_, t ∉ forbidden → t < out := by
      intro t ht hFree'
      rcases hKeys t ht with rfl | ⟨hMem, hne⟩
      · exact absurd hZero hFree'
      · exact lt_of_le_of_ne (hMax t hMem hFree') hne
    cases hStored : s.substitutions[out]? with
    | none =>
      refine ⟨{ s with
          signals := s.signals.delete out
          substitutions := s.substitutions.insert out entry },
        settles_succ (g := fun _ => some _) ?_ (settles_of_eq fun _ => rfl),
        ⟨h.fixed, ?_, ?_, h.lconst⟩, ?_⟩
      · intro fuel
        rw [treatConstraint3, if_neg hEmpty, hTake]
        simp only [hClear, Option.bind_eq_bind, Option.bind_some, hNew.from_, hStored]
        rfl
      · intro signal entry' hEntry
        rw [Store.get?_insert] at hEntry
        split at hEntry
        next hEq => exact hEq ▸ Option.some.inj hEntry ▸ hNew
        next => exact h.entries signal entry' hEntry
      · intro signal entry' hEntry
        rw [Store.get?_insert] at hEntry
        split at hEntry
        next hEq => exact hEq ▸ Option.some.inj hEntry ▸ hBelow
        next => exact h.descending signal entry' hEntry
      · intro w _
        rw [says_insert hStored, hHolds w]
    | some stored =>
      obtain ⟨work', hMerge, hWork', hKeys', hHolds'⟩ :=
        mergeConflict_spec hNew (h.entries out stored hStored)
      have hLess : ∀ t ∈ work'.c, t ∉ forbidden → t < out := by
        intro t ht hFree'
        rcases hKeys' t ht with rfl | hTo | hTo
        · exact absurd hZero hFree'
        · exact hBelow t hTo hFree'
        · exact h.descending out stored hStored t hTo hFree'
      obtain ⟨s', hSettles, hKeeps, hSays⟩ := ih out (hBound out hIn hFree)
        (s := { s with signals := s.signals.delete out })
        ⟨h.fixed, h.entries, h.descending, h.lconst⟩ hWork' hLess
      refine ⟨s', settles_succ ?_ hSettles, hKeeps, ?_⟩
      · intro fuel
        rw [treatConstraint3, if_neg hEmpty, hTake]
        simp only [hClear, Option.bind_eq_bind, Option.bind_some, hNew.from_, hStored, hMerge]
      · intro w hOne
        rw [hSays w hOne, hHolds w]
        exact and_congr_left fun hSays' => hHolds' w hOne (hSays'.1 out stored hStored)

/-- The first process ends, and then the constraints are said besides what was said before. -/
theorem substitutionProcess3_spec (hZero : constantCoefficient ∈ forbidden)
    {constraints : List (Constraint Nat)} (hGiven : ∀ c ∈ constraints, Given p U c)
    {s : Process3} (h : Keeps3 p forbidden U s) :
    ∃ s', Settles (fun fuel => substitutionProcess3 p fuel s constraints) s' ∧
      Keeps3 p forbidden U s' ∧ ∀ w : Nat → ZMod p, w constantCoefficient = 1 →
        (Says w s'.substitutions s'.lconst ↔
          (∀ c ∈ constraints, c.Holds w) ∧ Says w s.substitutions s.lconst) := by
  let Inv : Process3 → List (Constraint Nat) → Prop := fun s' rest =>
    Keeps3 p forbidden U s' ∧ (∀ c ∈ rest, Given p U c) ∧
      ∀ w : Nat → ZMod p, w constantCoefficient = 1 →
        ((∀ c ∈ rest, c.Holds w) ∧ Says w s'.substitutions s'.lconst ↔
          (∀ c ∈ constraints, c.Holds w) ∧ Says w s.substitutions s.lconst)
  have hStep : ∀ s₁ work rest, Inv s₁ (work :: rest) →
      ∃ s₂, Settles (fun fuel => treatConstraint3 p fuel s₁ work) s₂ ∧ Inv s₂ rest := by
    rintro s₁ work rest ⟨hKeeps, hRest, hSays⟩
    rw [List.forall_mem_cons] at hRest
    obtain ⟨s₂, hSettles, hKeeps₂, hSays₂⟩ := treatConstraint3_spec hZero hKeeps hRest.1
    refine ⟨s₂, hSettles, hKeeps₂, hRest.2, ?_⟩
    intro w hOne
    rw [← hSays w hOne, hSays₂ w hOne, List.forall_mem_cons]
    tauto
  have hInit : Inv s constraints.reverse := by
    refine ⟨h, fun c hc => hGiven c (List.mem_reverse.mp hc), ?_⟩
    simp
  obtain ⟨s', hSettles, hKeeps, -, hSays⟩ := exists_settles_foldlM _ Inv _ _ hStep hInit
  refine ⟨s', hSettles, hKeeps, ?_⟩
  intro w hOne
  rw [← hSays w hOne]
  simp

-- ---------------------------------------------------------------------------
-- Occurrences
-- ---------------------------------------------------------------------------

/-- In how many of the constraints a signal occurs. -/
def occurrences (constraints : List (Constraint Nat)) (k : Nat) : Nat :=
  constraints.countP fun c => k ∈ c.c

theorem nodup_keys (h : Coefficients Nat) : h.keys.Nodup :=
  Std.ExtTreeMap.nodup_keys

namespace SignalsInformation

/-- All occurrences, with their positions. -/
def visits (constraints : List (Constraint Nat)) : List (Nat × Nat) :=
  constraints.zipIdx.flatMap fun constraint => constraint.1.c.keys.map fun k => (k, constraint.2)

/-- A signal is visited once for each constraint it occurs in. -/
theorem countP_visits (constraints : List (Constraint Nat)) (k : Nat) :
    (visits constraints).countP (fun visit => visit.1 = k) = occurrences constraints k := by
  have hOne : ∀ c : Constraint Nat,
      c.c.keys.countP (fun t => t = k) = if k ∈ c.c then 1 else 0 := by
    intro c
    have hCount : c.c.keys.countP (fun t => t = k) = c.c.keys.count k := by
      rw [List.count]
      exact List.countP_congr fun t _ => by simp
    rw [hCount, (nodup_keys c.c).count]
    simp only [Std.ExtTreeMap.mem_keys]
  have hFrom : ∀ (cs : List (Constraint Nat)) (i : Nat),
      ((cs.zipIdx i).flatMap fun constraint =>
        constraint.1.c.keys.map fun t => (t, constraint.2)).countP (fun visit => visit.1 = k) =
        occurrences cs k := by
    intro cs
    induction cs with
    | nil => exact fun _ => rfl
    | cons c cs ih =>
      intro i
      rw [List.zipIdx_cons, List.flatMap_cons, List.countP_append, ih, List.countP_map,
        occurrences, occurrences, List.countP_cons, Nat.add_comm]
      refine congrArg _ ((hOne c).trans ?_)
      simp only [decide_eq_true_eq]
  exact hFrom constraints 0

/-- A visit is of a constraint with the signal. -/
theorem mem_visits {constraints : List (Constraint Nat)} {k pos : Nat}
    (h : (k, pos) ∈ visits constraints) : ∃ c, constraints[pos]? = some c ∧ k ∈ c.c := by
  obtain ⟨⟨c, i⟩, hIn, hKey⟩ := List.mem_flatMap.mp h
  obtain ⟨t, ht, hEq⟩ := List.mem_map.mp hKey
  obtain ⟨rfl, rfl⟩ := Prod.mk.inj hEq
  exact ⟨c, List.mem_zipIdx_iff_getElem?.mp hIn, Std.ExtTreeMap.mem_keys.mp ht⟩

/-- What the counting loop has found after some visits. -/
structure Tally (forbidden : SignalSet Nat) (visited : List (Nat × Nat))
    (counts : Store Nat Nat × Store Nat Nat) : Prop where
  ocurrences : ∀ k : Nat, counts.1[k]? =
    if k ∉ forbidden ∧ 0 < visited.countP (fun visit => visit.1 = k) then
      some (visited.countP fun visit => visit.1 = k)
    else none
  rep : ∀ k : Nat, k ∈ counts.1 → ∃ pos, counts.2[k]? = some pos
  position : ∀ k pos : Nat, counts.2[k]? = some pos → (k, pos) ∈ visited

/-- One more visit is counted, unless its signal is forbidden. -/
theorem Tally.count {signals : SignalDefinition4} {visited : List (Nat × Nat)}
    {counts : Store Nat Nat × Store Nat Nat} (h : Tally signals.forbidden visited counts)
    (k pos : Nat) :
    Tally signals.forbidden (visited ++ [(k, pos)])
      (SignalsInformation.count signals pos counts k) := by
  obtain ⟨signalToOcurrences, signalToRep⟩ := counts
  have hCount : ∀ t, (visited ++ [(k, pos)]).countP (fun visit => visit.1 = t) =
      visited.countP (fun visit => visit.1 = t) + if k = t then 1 else 0 := by
    intro t
    rw [List.countP_append, List.countP_singleton]
    simp only [decide_eq_true_eq]
  have hOld : ∀ t i, signalToRep[t]? = some i → (t, i) ∈ visited ++ [(k, pos)] :=
    fun t i hStored => List.mem_append_left _ (h.position t i hStored)
  by_cases hTaken : k ∈ signals.forbidden
  · have hSame : SignalsInformation.count signals pos (signalToOcurrences, signalToRep) k =
        (signalToOcurrences, signalToRep) := by
      simp [SignalsInformation.count, SignalDefinition4.canBeTaken, hTaken]
    rw [hSame]
    refine ⟨?_, h.rep, hOld⟩
    intro t
    rw [h.ocurrences t, hCount]
    by_cases hEq : k = t
    · subst hEq
      simp [hTaken]
    · rw [if_neg hEq, Nat.add_zero]
  · have hTake : signals.canBeTaken k = true := by
      simp [SignalDefinition4.canBeTaken, hTaken]
    cases hStored : signalToOcurrences[k]? with
    | none =>
      have hNew : SignalsInformation.count signals pos (signalToOcurrences, signalToRep) k =
          (signalToOcurrences.insert k 1, signalToRep.insert k pos) := by
        simp only [SignalsInformation.count, hTake, if_true, hStored]
      have hNever : visited.countP (fun visit => visit.1 = k) = 0 := by
        have hFound := h.ocurrences k
        rw [hStored] at hFound
        by_contra hPos
        rw [if_pos ⟨hTaken, Nat.pos_of_ne_zero hPos⟩] at hFound
        cases hFound
      rw [hNew]
      refine ⟨?_, ?_, ?_⟩
      · intro t
        rw [hCount]
        show (signalToOcurrences.insert k 1)[t]? = _
        rw [Store.get?_insert]
        by_cases hEq : t = k
        · subst hEq
          simp [hNever, hTaken]
        · rw [if_neg hEq, if_neg (Ne.symm hEq), Nat.add_zero]
          exact h.ocurrences t
      · intro t ht
        rcases Store.mem_insert.mp ht with rfl | hIn
        · exact ⟨pos, Std.ExtTreeMap.getElem?_insert_self⟩
        · exact Store.exists_get?_insert k pos (h.rep t hIn)
      · intro t i hRep
        have hRep' : (signalToRep.insert k pos)[t]? = some i := hRep
        rw [Store.get?_insert] at hRep'
        split at hRep'
        next hEq =>
          obtain rfl := Option.some.inj hRep'
          exact hEq ▸ List.mem_append_right _ (List.mem_singleton_self _)
        next => exact hOld t i hRep'
    | some prevOcu =>
      have hMore : SignalsInformation.count signals pos (signalToOcurrences, signalToRep) k =
          (signalToOcurrences.insert k (prevOcu + 1), signalToRep) := by
        simp only [SignalsInformation.count, hTake, if_true, hStored]
      have hPrev : visited.countP (fun visit => visit.1 = k) = prevOcu := by
        have hFound := h.ocurrences k
        rw [hStored] at hFound
        split at hFound
        · exact (Option.some.inj hFound).symm
        · cases hFound
      rw [hMore]
      refine ⟨?_, ?_, hOld⟩
      · intro t
        rw [hCount]
        show (signalToOcurrences.insert k (prevOcu + 1))[t]? = _
        rw [Store.get?_insert]
        by_cases hEq : t = k
        · subst hEq
          simp [hPrev, hTaken]
        · rw [if_neg hEq, if_neg (Ne.symm hEq), Nat.add_zero]
          exact h.ocurrences t
      · intro t ht
        rcases Store.mem_insert.mp ht with rfl | hIn
        · exact h.rep t (Store.mem_iff.mpr ⟨prevOcu, hStored⟩)
        · exact h.rep t hIn

/-- The result of the counting: exact occurrences, and where the signals with one are. -/
structure Census (forbidden : SignalSet Nat) (constraints : List (Constraint Nat))
    (info : SignalsInformation) (uniques : Store Nat Nat) : Prop where
  ocurrences : ∀ k : Nat, info.signalToOcurrences[k]? =
    if k ∉ forbidden ∧ 0 < occurrences constraints k then some (occurrences constraints k) else none
  uniques : ∀ k pos : Nat, uniques[k]? = some pos → k ∉ forbidden ∧ occurrences constraints k = 1 ∧
    ∃ c, constraints[pos]? = some c ∧ k ∈ c.c

/-- The census counts every free signal, and finds those that occur once. -/
theorem new_spec (constraints : List (Constraint Nat)) (signals : SignalDefinition4) :
    ∃ info uniques, new constraints signals = some (info, uniques) ∧
      Census signals.forbidden constraints info uniques := by
  have hTally : Tally signals.forbidden (visits constraints) (counts constraints signals) := by
    have hFlat : counts constraints signals = (visits constraints).foldl
        (fun counts visit => count signals visit.2 counts visit.1) (∅, ∅) := by
      rw [counts, visits, List.foldl_flatMap]
      simp only [List.foldl_map]
    rw [hFlat]
    induction visits constraints using List.reverseRecOn with
    | nil => exact ⟨fun k => by simp, fun k hIn => absurd hIn Std.ExtTreeMap.not_mem_empty,
        fun k pos hStored => by simp at hStored⟩
    | append_singleton visited visit ih =>
      rw [List.foldl_append]
      exact ih.count visit.1 visit.2
  have hOcurrences := hTally.ocurrences
  simp only [countP_visits] at hOcurrences
  obtain ⟨uniques, hOk, -, hUniques⟩ := exists_foldlM
    (insertUnique (counts constraints signals).2)
    (fun uniques rest => (∀ kv ∈ rest, (counts constraints signals).1[kv.1]? = some kv.2) ∧
      ∀ k pos : Nat, uniques[k]? = some pos → (counts constraints signals).1[k]? = some 1 ∧
        (counts constraints signals).2[k]? = some pos)
    ∅ (counts constraints signals).1.toList
    (by
      rintro uniques ⟨k, n⟩ rest ⟨hRest, hUniques⟩
      rw [List.forall_mem_cons] at hRest
      by_cases hOne : n = 1
      · subst hOne
        obtain ⟨pos, hRep⟩ := hTally.rep k (Store.mem_iff.mpr ⟨1, hRest.1⟩)
        refine ⟨uniques.insert k pos, ?_, hRest.2, ?_⟩
        · simp only [insertUnique, if_true, hRep]
          rfl
        · intro k' pos' hStored
          rw [Store.get?_insert] at hStored
          split at hStored
          next hEq =>
            obtain rfl := Option.some.inj hStored
            exact hEq ▸ ⟨hRest.1, hRep⟩
          next => exact hUniques k' pos' hStored
      · exact ⟨uniques, if_neg hOne, hRest.2, hUniques⟩)
    ⟨fun kv hkv => Store.mem_toList.mp hkv, fun k pos hStored => by simp at hStored⟩
  refine ⟨⟨(counts constraints signals).1⟩, uniques, ?_, hOcurrences, ?_⟩
  · rw [new]
    exact congrArg (Option.bind · _) hOk
  · intro k pos hStored
    obtain ⟨hOne, hRep⟩ := hUniques k pos hStored
    have hFound := hOcurrences k
    rw [hOne] at hFound
    split at hFound
    next hBoth =>
      exact ⟨hBoth.1, (Option.some.inj hFound).symm, mem_visits (hTally.position k pos hRep)⟩
    next => cases hFound

end SignalsInformation

/-- The counts are those of the constraints that have not been treated. -/
def CountsOf (forbidden : SignalSet Nat) (info : SignalsInformation)
    (rest : List (Constraint Nat)) : Prop :=
  ∀ k v : Nat, info.signalToOcurrences[k]? = some v → k ∉ forbidden ∧ v = occurrences rest k

/-- Removing a constraint leaves the counts of the others. -/
theorem SignalsInformation.removeConstraint_spec {signals : SignalDefinition4}
    {info : SignalsInformation} {work : Constraint Nat} {rest : List (Constraint Nat)}
    (h : CountsOf signals.forbidden info (work :: rest)) :
    ∃ info', info.removeConstraint work signals = some info' ∧
      CountsOf signals.forbidden info' rest ∧
      ∀ k, k ∈ info'.signalToOcurrences ↔ k ∈ info.signalToOcurrences := by
  -- each of the signals is counted down once
  obtain ⟨counts, hOk, -, -, hCounts⟩ := exists_foldlM
    (removeOcurrence signals)
    (fun counts keys => keys.Nodup ∧ (∀ k ∈ keys, k ∈ work.c) ∧
      ∀ k : Nat, counts[k]? = info.signalToOcurrences[k]?.map fun v =>
        if k ∈ work.c ∧ k ∉ keys then v - 1 else v)
    info.signalToOcurrences work.c.keys
    (by
      rintro counts k keys ⟨hNodup, hKeys, hCounts⟩
      rw [List.nodup_cons] at hNodup
      rw [List.forall_mem_cons] at hKeys
      have hOthers : ∀ t, t ≠ k → (t ∈ work.c ∧ t ∉ k :: keys ↔ t ∈ work.c ∧ t ∉ keys) := by
        intro t hne
        rw [List.mem_cons, not_or, and_iff_right hne]
      have hAtKey := hCounts k
      have hHead : ¬ (k ∈ work.c ∧ k ∉ k :: keys) := fun hBoth => hBoth.2 List.mem_cons_self
      simp only [if_neg hHead, Option.map_id'] at hAtKey
      cases hStored : counts[k]? with
      | none =>
        refine ⟨counts, ?_, hNodup.2, hKeys.2, ?_⟩
        · rw [removeOcurrence, hStored]
          exact ite_self _
        · intro t
          by_cases hEq : t = k
          · subst hEq
            rw [hStored, ← hAtKey, hStored]
            rfl
          · rw [hCounts t]
            simp only [hOthers t hEq]
      | some v =>
        obtain ⟨hFree, hCount⟩ := h k v (hAtKey.symm.trans hStored)
        have hPos : v ≠ 0 := by
          rw [hCount, occurrences, List.countP_cons, if_pos (by simpa using hKeys.1)]
          omega
        refine ⟨counts.insert k (v - 1), ?_, hNodup.2, hKeys.2, ?_⟩
        · rw [removeOcurrence, if_pos (by simpa [SignalDefinition4.canBeTaken] using hFree),
            hStored]
          exact if_neg hPos
        · intro t
          rw [Store.get?_insert]
          by_cases hEq : t = k
          · subst hEq
            rw [if_pos rfl, ← hAtKey, hStored, Option.map_some, if_pos ⟨hKeys.1, hNodup.1⟩]
          · rw [if_neg hEq, hCounts t]
            simp only [hOthers t hEq])
    ⟨nodup_keys work.c, fun k hk => Std.ExtTreeMap.mem_keys.mp hk, fun k => by simp⟩
  refine ⟨⟨counts⟩, ?_, ?_, ?_⟩
  · rw [removeConstraint]
    exact congrArg (Option.bind · _) hOk
  · intro k v hStored
    have hAt := (hCounts k).symm.trans hStored
    rw [Option.map_eq_some_iff] at hAt
    obtain ⟨old, hOld, rfl⟩ := hAt
    obtain ⟨hFree, rfl⟩ := h k old hOld
    refine ⟨hFree, ?_⟩
    rw [occurrences, List.countP_cons, occurrences]
    by_cases hIn : k ∈ work.c
    · simp [hIn]
    · simp [hIn]
  · intro k
    rw [Store.mem_iff, Store.mem_iff, hCounts k]
    simp

-- ---------------------------------------------------------------------------
-- The rarest signal first
-- ---------------------------------------------------------------------------

/-- One signal in the search for the rarest: it is skipped, or taken at once, or the search goes on
with it or with the choice before. -/
theorem takeSignal4Loop_cons {signals : SignalDefinition4} {info : SignalsInformation} {k : Nat}
    (keys : List Nat) (best : Option (Nat × Nat))
    (hKnown : k ∉ signals.forbidden → k ∉ signals.deletedSymbols → k ∈ info.signalToOcurrences) :
    (k ∈ signals.forbidden ∧ takeSignal4Loop signals info (k :: keys) best =
        takeSignal4Loop signals info keys best) ∨
    (k ∉ signals.forbidden ∧ k ∈ signals.deletedSymbols ∧
      takeSignal4Loop signals info (k :: keys) best = some (some k)) ∨
    (k ∉ signals.forbidden ∧ k ∉ signals.deletedSymbols ∧
      ∃ b, takeSignal4Loop signals info (k :: keys) best =
          takeSignal4Loop signals info keys (some b) ∧ (best = some b ∨ b.1 = k)) := by
  by_cases hForbidden : k ∈ signals.forbidden
  · refine .inl ⟨hForbidden, ?_⟩
    rw [takeSignal4Loop, if_neg (by simpa [SignalDefinition4.canBeTaken] using hForbidden)]
  have hTake : signals.canBeTaken k = true := by
    simpa [SignalDefinition4.canBeTaken] using hForbidden
  by_cases hDeleted : k ∈ signals.deletedSymbols
  · refine .inr (.inl ⟨hForbidden, hDeleted, ?_⟩)
    rw [takeSignal4Loop, if_pos hTake,
      if_pos (by simpa [SignalDefinition4.isDeleted] using hDeleted)]
  refine .inr (.inr ⟨hForbidden, hDeleted, ?_⟩)
  obtain ⟨newOcurrences, hStored⟩ := Store.mem_iff.mp (hKnown hForbidden hDeleted)
  have hNot : ¬ signals.isDeleted k = true := by
    simpa [SignalDefinition4.isDeleted] using hDeleted
  rw [takeSignal4Loop, if_pos hTake, if_neg hNot, hStored]
  cases best with
  | none => exact ⟨(k, newOcurrences), rfl, .inr rfl⟩
  | some b =>
    show ∃ b', (if newOcurrences < b.2 then _ else _) = _ ∧ _
    by_cases hRarer : newOcurrences < b.2
    · exact ⟨(k, newOcurrences), if_pos hRarer, .inr rfl⟩
    by_cases hTie : newOcurrences = b.2 ∧ b.1 < k
    · exact ⟨(k, b.2), (if_neg hRarer).trans (if_pos hTie), .inr rfl⟩
    · exact ⟨b, (if_neg hRarer).trans (if_neg hTie), .inl rfl⟩

/-- What the search over `keys` gives: nothing if there was no choice before and all of them are
forbidden, else a free signal of the constraint, and one that has been deleted if `keys` has
such a one. -/
structure Picks4 (signals : SignalDefinition4) (work : Constraint Nat) (keys : List Nat)
    (best : Option (Nat × Nat)) (taken : Option Nat) : Prop where
  ofNone : taken = none → best = none ∧ ∀ t ∈ keys, t ∈ signals.forbidden
  ofSome : ∀ out, taken = some out → out ∈ work.c ∧ out ∉ signals.forbidden ∧
    (out ∈ signals.deletedSymbols ∨
      ∀ t ∈ keys, t ∉ signals.forbidden → t ∉ signals.deletedSymbols)

/-- A signal that is not free changes nothing. -/
theorem Picks4.skip {signals : SignalDefinition4} {work : Constraint Nat} {k : Nat}
    {keys : List Nat} {best : Option (Nat × Nat)} {taken : Option Nat}
    (h : Picks4 signals work keys best taken) (hForbidden : k ∈ signals.forbidden) :
    Picks4 signals work (k :: keys) best taken where
  ofNone hNone := ⟨(h.ofNone hNone).1, List.forall_mem_cons.mpr ⟨hForbidden, (h.ofNone hNone).2⟩⟩
  ofSome out hOut := by
    obtain ⟨hIn, hFree, hOr⟩ := h.ofSome out hOut
    refine ⟨hIn, hFree, hOr.imp_right fun hAll => List.forall_mem_cons.mpr ⟨?_, hAll⟩⟩
    exact fun hNot => absurd hForbidden hNot

/-- A free signal that has not been deleted leaves some choice. -/
theorem Picks4.goOn {signals : SignalDefinition4} {work : Constraint Nat} {k : Nat}
    {keys : List Nat} {best : Option (Nat × Nat)} {b : Nat × Nat} {taken : Option Nat}
    (h : Picks4 signals work keys (some b) taken) (hNew : k ∉ signals.deletedSymbols) :
    Picks4 signals work (k :: keys) best taken where
  ofNone hNone := absurd (h.ofNone hNone).1 (Option.some_ne_none b)
  ofSome out hOut := by
    obtain ⟨hIn, hFree, hOr⟩ := h.ofSome out hOut
    exact ⟨hIn, hFree, hOr.imp_right fun hAll => List.forall_mem_cons.mpr ⟨fun _ => hNew, hAll⟩⟩

/-- The search over signals of the constraint. -/
theorem takeSignal4Loop_spec {signals : SignalDefinition4} {info : SignalsInformation}
    {work : Constraint Nat} (keys : List Nat) (hKeys : ∀ t ∈ keys, t ∈ work.c)
    (hKnown : ∀ t ∈ keys, t ∉ signals.forbidden → t ∉ signals.deletedSymbols →
      t ∈ info.signalToOcurrences) :
    ∀ best : Option (Nat × Nat), (∀ b, best = some b → b.1 ∈ work.c ∧ b.1 ∉ signals.forbidden) →
      ∃ taken, takeSignal4Loop signals info keys best = some taken ∧
        Picks4 signals work keys best taken := by
  induction keys with
  | nil =>
    intro best hBest
    refine ⟨best.map Prod.fst, rfl, fun hNone => ⟨Option.map_eq_none_iff.mp hNone, by simp⟩, ?_⟩
    intro out hOut
    obtain ⟨b, hSome, rfl⟩ := Option.map_eq_some_iff.mp hOut
    exact ⟨(hBest b hSome).1, (hBest b hSome).2, .inr (by simp)⟩
  | cons k keys ih =>
    intro best hBest
    rw [List.forall_mem_cons] at hKeys hKnown
    have hRest := ih hKeys.2 hKnown.2
    rcases takeSignal4Loop_cons keys best hKnown.1 with
      ⟨hForbidden, hEq⟩ | ⟨hFree, hDeleted, hEq⟩ | ⟨hFree, hNew, b, hEq, hFrom⟩
    · obtain ⟨taken, hOk, hPicks⟩ := hRest best hBest
      exact ⟨taken, hEq.trans hOk, hPicks.skip hForbidden⟩
    · refine ⟨some k, hEq, fun hNone => absurd hNone (Option.some_ne_none k), ?_⟩
      intro out hOut
      obtain rfl := Option.some.inj hOut
      exact ⟨hKeys.1, hFree, .inl hDeleted⟩
    · obtain ⟨taken, hOk, hPicks⟩ := hRest (some b) (by
        intro b' hSome
        obtain rfl := Option.some.inj hSome
        rcases hFrom with hOld | hHere
        · exact hBest b hOld
        · exact hHere ▸ ⟨hKeys.1, hFree⟩)
      exact ⟨taken, hEq.trans hOk, hPicks.goOn hNew⟩

/-- The signal taken is free, and one that has been deleted if there is such a one. -/
theorem takeSignal4_spec (order : HashOrder) {signals : SignalDefinition4}
    {info : SignalsInformation} {work : Constraint Nat}
    (hKnown : ∀ t ∈ work.c, t ∉ signals.forbidden → t ∉ signals.deletedSymbols →
      t ∈ info.signalToOcurrences) :
    ∃ taken, takeSignal4 order signals info work = some taken ∧
      (taken = none → ∀ t ∈ work.c, t ∈ signals.forbidden) ∧
      ∀ out, taken = some out → out ∈ work.c ∧ out ∉ signals.forbidden ∧
        (out ∈ signals.deletedSymbols ∨
          ∀ t ∈ work.c, t ∉ signals.forbidden → t ∉ signals.deletedSymbols) := by
  have hMem : ∀ t, t ∈ order.arrange work.c.keys ↔ t ∈ work.c :=
    fun t => (order.perm work.c.keys).mem_iff.trans Std.ExtTreeMap.mem_keys
  obtain ⟨taken, hOk, hPicks⟩ := takeSignal4Loop_spec (order.arrange work.c.keys)
    (fun t ht => (hMem t).mp ht) (fun t ht => hKnown t ((hMem t).mp ht)) none
    (fun b hb => absurd hb.symm (Option.some_ne_none b))
  refine ⟨taken, hOk, fun hEmpty t ht => (hPicks.ofNone hEmpty).2 t ((hMem t).mpr ht), ?_⟩
  intro out hOut
  obtain ⟨hIn, hFree, hOr⟩ := hPicks.ofSome out hOut
  exact ⟨hIn, hFree, hOr.imp_right fun hAll t ht => hAll t ((hMem t).mpr ht)⟩

/-- The invariant of the second heuristic: no substitution mentions a signal that was
eliminated before. -/
structure Keeps4 (p : Nat) (forbidden : SignalSet Nat) (U : Nat → Prop) (s : Process4) : Prop where
  fixed : s.signals.forbidden = forbidden
  deleted : ∀ k, k ∈ s.signals.deletedSymbols ↔ k ∈ s.signals.orderSignals
  stored : ∀ k, k ∈ s.substitutions ↔ k ∈ s.signals.orderSignals
  nodup : s.signals.orderSignals.Nodup
  entries : ∀ (signal : Nat) (entry : Int × Substitution Nat),
    s.substitutions[signal]? = some entry → Eliminated p forbidden U signal entry
  ordered : s.signals.orderSignals.Pairwise fun newer older =>
    ∀ entry : Int × Substitution Nat, s.substitutions[newer]? = some entry → older ∉ entry.2.to_
  lconst : ∀ c ∈ s.lconst, SetAside p forbidden U c
  known : ∀ k, k ∉ forbidden → U k → k ∉ s.signals.orderSignals →
    k ∈ s.infoOcurrences.signalToOcurrences

/-- A signal that has been taken is not forbidden. -/
theorem Keeps4.free {s : Process4} (h : Keeps4 p forbidden U s) {k : Nat}
    (hIn : k ∈ s.signals.orderSignals) : k ∉ forbidden := by
  obtain ⟨entry, hStored⟩ := Store.mem_iff.mp ((h.stored k).mpr hIn)
  exact (h.entries k entry hStored).free

/-- Only the occurrences change, not the signals that have one. -/
theorem Keeps4.recount {s : Process4} (h : Keeps4 p forbidden U s) {info : SignalsInformation}
    (hSame : ∀ k, k ∈ info.signalToOcurrences ↔ k ∈ s.infoOcurrences.signalToOcurrences) :
    Keeps4 p forbidden U { s with infoOcurrences := info } :=
  ⟨h.fixed, h.deleted, h.stored, h.nodup, h.entries, h.ordered, h.lconst,
    fun k hFree hU hNew => (hSame k).mpr (h.known k hFree hU hNew)⟩

/-- One more signal is eliminated, and its substitution mentions none of the others. -/
theorem Keeps4.eliminate {s : Process4} (h : Keeps4 p forbidden U s) {out : Nat}
    {entry : Int × Substitution Nat} (hNew : Eliminated p forbidden U out entry)
    (hFresh : out ∉ s.signals.orderSignals)
    (hTo : ∀ t ∈ entry.2.to_, t ∉ s.signals.orderSignals) :
    Keeps4 p forbidden U { s with
      signals := s.signals.delete out
      infoOcurrences := s.infoOcurrences.removeSignal out
      substitutions := s.substitutions.insert out entry } := by
  refine ⟨h.fixed, ?_, ?_, List.nodup_cons.mpr ⟨hFresh, h.nodup⟩, ?_, ?_, h.lconst, ?_⟩
  · intro k
    show k ∈ s.signals.deletedSymbols.insert out ↔ k ∈ out :: s.signals.orderSignals
    rw [Std.ExtTreeSet.mem_insert, List.mem_cons, Std.compare_eq_iff_eq, h.deleted, eq_comm]
  · intro k
    show k ∈ s.substitutions.insert out entry ↔ k ∈ out :: s.signals.orderSignals
    rw [Store.mem_insert, List.mem_cons, h.stored]
  · intro signal entry' hEntry
    rw [Store.get?_insert] at hEntry
    split at hEntry
    next hEq => exact hEq ▸ Option.some.inj hEntry ▸ hNew
    next => exact h.entries signal entry' hEntry
  · refine List.pairwise_cons.mpr ⟨?_, h.ordered.imp_of_mem ?_⟩
    · intro older hOlder entry' hEntry
      obtain rfl := Option.some.inj (Std.ExtTreeMap.getElem?_insert_self.symm.trans hEntry)
      exact fun hMem => hTo older hMem hOlder
    · intro newer older hNewer _ hOrdered entry' hEntry
      refine hOrdered entry' ?_
      rw [← hEntry]
      refine (Store.get?_insert_ne ?_).symm
      rintro rfl
      exact hFresh hNewer
  · intro k hFree hU hNot
    rw [SignalDefinition4.delete, List.mem_cons, not_or] at hNot
    exact Store.mem_erase.mpr ⟨hNot.1, h.known k hFree hU hNot.2⟩

/-- The eliminated signals that are mentioned, the earlier ones counting more than all the
later ones together. -/
def cost (mentioned : Nat → Prop) [DecidablePred mentioned] : List Nat → Nat
  | [] => 0
  | k :: older => (if mentioned k then 1 else 0) + 2 * cost mentioned older

/-- With fewer signals to come the cost is no higher. -/
theorem cost_le {M M' : Nat → Prop} [DecidablePred M] [DecidablePred M'] (eliminated : List Nat)
    (h : ∀ k ∈ eliminated, M' k → M k) : cost M' eliminated ≤ cost M eliminated := by
  induction eliminated with
  | nil => exact le_refl 0
  | cons k older ih =>
    rw [List.forall_mem_cons] at h
    have hOlder := ih h.2
    rw [cost, cost]
    by_cases hM' : M' k
    · rw [if_pos hM', if_pos (h.1 hM')]
      omega
    · rw [if_neg hM']
      omega

/-- A signal gives way to signals that were eliminated later. -/
theorem cost_lt {M M' : Nat → Prop} [DecidablePred M] [DecidablePred M'] {eliminated : List Nat}
    {out : Nat} (hIn : out ∈ eliminated) (hOut : M out) (hOut' : ¬ M' out)
    (hOlder : eliminated.Pairwise fun newer older => newer = out → M' older → M older) :
    cost M' eliminated < cost M eliminated := by
  induction eliminated with
  | nil => exact absurd hIn List.not_mem_nil
  | cons k older ih =>
    rw [List.pairwise_cons] at hOlder
    rw [cost, cost]
    by_cases hEq : k = out
    · have hRest := cost_le older fun t ht => hOlder.1 t ht hEq
      rw [hEq, if_neg hOut', if_pos hOut]
      omega
    · have hRest := ih ((List.mem_cons.mp hIn).resolve_left (Ne.symm hEq)) hOlder.2
      split <;> split <;> omega

/-- A constraint of forbidden signals is set aside. -/
theorem Keeps4.setAside {s : Process4} (h : Keeps4 p forbidden U s) {work : Constraint Nat}
    (hWork : SetAside p forbidden U work) :
    Keeps4 p forbidden U { s with lconst := s.lconst ++ [work] } :=
  ⟨h.fixed, h.deleted, h.stored, h.nodup, h.entries, h.ordered,
    List.forall_mem_append.mpr ⟨h.lconst, List.forall_mem_singleton.mpr hWork⟩, h.known⟩

/-- Merging a constraint, solved for `out`, with what is stored for `out` costs something: `out`
is gone, and the eliminated signals that come in were eliminated after it. -/
theorem Keeps4.merge_cost_lt {s : Process4} (h : Keeps4 p forbidden U s)
    (hZero : constantCoefficient ∈ forbidden) {work work' : Constraint Nat} {out : Nat}
    {entry stored : Int × Substitution Nat} (hIn : out ∈ work.c)
    (hNew : Eliminated p forbidden U out entry)
    (hKeys : ∀ t ∈ entry.2.to_, t = constantCoefficient ∨ t ∈ work.c ∧ t ≠ out)
    (hStored : s.substitutions[out]? = some stored)
    (hKeys' : ∀ t ∈ work'.c, t = constantCoefficient ∨ t ∈ entry.2.to_ ∨ t ∈ stored.2.to_) :
    cost (fun k => k ∈ work'.c) s.signals.orderSignals <
      cost (fun k => k ∈ work.c) s.signals.orderSignals := by
  have hOld := h.entries out stored hStored
  refine cost_lt ((h.stored out).mp (Store.mem_iff.mpr ⟨stored, hStored⟩)) hIn ?_ ?_
  · intro hMem
    rcases hKeys' out hMem with rfl | hTo | hTo
    · exact hNew.free hZero
    · exact (hNew.from_ ▸ hNew.solves.notMem) hTo
    · exact (hOld.from_ ▸ hOld.solves.notMem) hTo
  · refine h.ordered.imp_of_mem ?_
    rintro newer older _ hOlder hOrdered rfl hMem
    rcases hKeys' older hMem with rfl | hTo | hTo
    · exact absurd hZero (h.free hOlder)
    · rcases hKeys older hTo with rfl | hBoth
      · exact absurd hZero (h.free hOlder)
      · exact hBoth.1
    · exact absurd hTo (hOrdered stored hStored)

/-- Treating a constraint ends, and it is then said besides what was said before. -/
theorem treatConstraint4_spec (order : HashOrder) (hZero : constantCoefficient ∈ forbidden)
    {s : Process4} {work : Constraint Nat} (h : Keeps4 p forbidden U s)
    (hWork : Given p U work) :
    ∃ s', Settles (fun fuel => treatConstraint4 order p fuel s work) s' ∧
      Keeps4 p forbidden U s' ∧
      (∀ k v : Nat, s'.infoOcurrences.signalToOcurrences[k]? = some v →
        s.infoOcurrences.signalToOcurrences[k]? = some v) ∧
      ∀ w : Nat → ZMod p, w constantCoefficient = 1 →
        (Says w s'.substitutions s'.lconst ↔ work.Holds w ∧ Says w s.substitutions s.lconst) := by
  -- on the cost of the eliminated signals in the constraint
  generalize hCost : cost (fun k => k ∈ work.c) s.signals.orderSignals = n
  induction n using Nat.strong_induction_on generalizing work with
  | _ n ih =>
  by_cases hEmpty : work.isEmpty = true
  · refine ⟨s, settles_succ (g := fun _ => some s) ?_ (settles_of_eq fun _ => rfl), h,
      fun _ _ hStored => hStored, ?_⟩
    · intro fuel
      rw [treatConstraint4, if_pos hEmpty]
    · intro w _
      exact (and_iff_right (Constraint.holds_of_isEmpty hEmpty)).symm
  have hNotZero : ∀ t ∈ work.c, t ∉ forbidden → U t := by
    intro t ht hFree
    refine (hWork.signals t ht).resolve_left ?_
    rintro rfl
    exact hFree hZero
  have hKnown : ∀ t ∈ work.c, t ∉ s.signals.forbidden → t ∉ s.signals.deletedSymbols →
      t ∈ s.infoOcurrences.signalToOcurrences := by
    rw [h.fixed]
    intro t ht hFree hNew
    exact h.known t hFree (hNotZero t ht hFree) fun hIn => hNew ((h.deleted t).mpr hIn)
  obtain ⟨taken, hTake, hNone, hSome⟩ := takeSignal4_spec order hKnown
  rw [h.fixed] at hNone hSome
  cases taken with
  | none =>
    refine ⟨{ s with lconst := s.lconst ++ [work] }, settles_succ (g := fun _ => some _) ?_
      (settles_of_eq fun _ => rfl), h.setAside ⟨hWork, hNone rfl⟩, fun _ _ hStored => hStored,
        fun w _ => says_append⟩
    intro fuel
    rw [treatConstraint4, if_neg hEmpty, hTake]
    rfl
  | some out =>
    obtain ⟨hIn, hFree, hChoice⟩ := hSome out rfl
    obtain ⟨entry, hClear, hNew, hKeys, hHolds⟩ := hWork.eliminated hZero hIn hFree
    cases hStored : s.substitutions[out]? with
    | none =>
      have hFresh : out ∉ s.signals.orderSignals := by
        rw [← h.stored]
        exact Store.notMem_iff.mpr hStored
      have hTo : ∀ t ∈ entry.2.to_, t ∉ s.signals.orderSignals := by
        intro t ht hOrder
        rcases hKeys t ht with rfl | ⟨hMem, -⟩
        · exact h.free hOrder hZero
        · have hDeleted := (h.deleted t).mpr hOrder
          rcases hChoice with hOut | hAll
          · exact hFresh ((h.deleted out).mp hOut)
          · exact hAll t hMem (h.free hOrder) hDeleted
      refine ⟨_, settles_succ (g := fun _ => some _) ?_ (settles_of_eq fun _ => rfl),
        h.eliminate hNew hFresh hTo, fun k v hCount => (Store.get?_of_erase hCount).2, ?_⟩
      · intro fuel
        rw [treatConstraint4, if_neg hEmpty, hTake]
        simp only [hClear, Option.bind_eq_bind, Option.bind_some, hNew.from_, hStored]
        rfl
      · intro w _
        rw [says_insert hStored, hHolds w]
    | some stored =>
      have hOld := h.entries out stored hStored
      obtain ⟨work', hMerge, hWork', hKeys', hHolds'⟩ := mergeConflict_spec hNew hOld
      have hLess : cost (fun k => k ∈ work'.c) s.signals.orderSignals < n :=
        hCost ▸ h.merge_cost_lt hZero hIn hNew hKeys hStored hKeys'
      obtain ⟨s', hSettles, hKeeps, hInfo, hSays⟩ := ih _ hLess hWork' rfl
      refine ⟨s', settles_succ ?_ hSettles, hKeeps, hInfo, ?_⟩
      · intro fuel
        rw [treatConstraint4, if_neg hEmpty, hTake]
        simp only [hClear, Option.bind_eq_bind, Option.bind_some, hNew.from_, hStored, hMerge]
      · intro w hOne
        rw [hSays w hOne, hHolds w]
        exact and_congr_left fun hSays' => hHolds' w hOne (hSays'.1 out stored hStored)

theorem CountsOf.sub {info info' : SignalsInformation} {rest : List (Constraint Nat)}
    (h : CountsOf forbidden info rest) (hSub : ∀ k v : Nat,
      info'.signalToOcurrences[k]? = some v → info.signalToOcurrences[k]? = some v) :
    CountsOf forbidden info' rest :=
  fun k v hStored => h k v (hSub k v hStored)

/-- The next constraint is treated, and its signals are no longer counted. -/
theorem treatNext4_spec (order : HashOrder) (hZero : constantCoefficient ∈ forbidden)
    {s : Process4} {work : Constraint Nat} {rest : List (Constraint Nat)}
    (h : Keeps4 p forbidden U s) (hCounts : CountsOf forbidden s.infoOcurrences (work :: rest))
    (hWork : Given p U work) :
    ∃ s', Settles (fun fuel => treatNext4 order p fuel s work) s' ∧ Keeps4 p forbidden U s' ∧
      CountsOf forbidden s'.infoOcurrences rest ∧
      ∀ w : Nat → ZMod p, w constantCoefficient = 1 →
        (Says w s'.substitutions s'.lconst ↔ work.Holds w ∧ Says w s.substitutions s.lconst) := by
  have hCountsOf : CountsOf s.signals.forbidden s.infoOcurrences (work :: rest) := by
    rwa [h.fixed]
  obtain ⟨info, hRemove, hCounts', hSame⟩ := SignalsInformation.removeConstraint_spec hCountsOf
  obtain ⟨s', hSettles, hKeeps, hSub, hSays⟩ :=
    treatConstraint4_spec order hZero (h.recount hSame) hWork
  rw [h.fixed] at hCounts'
  refine ⟨s', hSettles.congr ?_, hKeeps, hCounts'.sub hSub, hSays⟩
  intro fuel
  rw [treatNext4, hRemove]
  rfl

section Uniques

variable {vec : List (Constraint Nat)} {index : Nat} {work : Constraint Nat}

/-- A constraint that is taken out is counted apart. -/
theorem occurrences_set (hAt : vec[index]? = some work) (k : Nat) :
    occurrences vec k = occurrences (work :: vec.set index Constraint.empty) k := by
  obtain ⟨hLess, rfl⟩ := List.getElem?_eq_some_iff.mp hAt
  have hPos : (if k ∈ vec[index].c then 1 else 0) ≤ vec.countP fun c => k ∈ c.c := by
    split
    next hIn =>
      exact List.countP_pos_iff.mpr ⟨vec[index], List.getElem_mem hLess, by simpa using hIn⟩
    next => exact Nat.zero_le _
  rw [occurrences, occurrences, List.countP_cons, List.countP_set hLess]
  simp only [decide_eq_true_eq]
  have hNone : k ∉ (Constraint.empty : Constraint Nat).c := Std.ExtTreeMap.not_mem_empty
  rw [if_neg hNone]
  omega

theorem forall_mem_set {P : Constraint Nat → Prop} (hAt : vec[index]? = some work)
    (hEmpty : P Constraint.empty) :
    (∀ c ∈ vec, P c) ↔ P work ∧ ∀ c ∈ vec.set index Constraint.empty, P c := by
  obtain ⟨hLess, rfl⟩ := List.getElem?_eq_some_iff.mp hAt
  constructor
  · intro hAll
    refine ⟨hAll _ (List.getElem_mem hLess), ?_⟩
    intro c hc
    rcases List.mem_or_eq_of_mem_set hc with hIn | rfl
    · exact hAll c hIn
    · exact hEmpty
  · rintro ⟨hWork, hRest⟩ c hc
    obtain ⟨j, hj, rfl⟩ := List.getElem_of_mem hc
    by_cases hEq : index = j
    · subst hEq
      exact hWork
    · refine hRest _ (List.mem_iff_getElem?.mpr ⟨j, ?_⟩)
      rw [List.getElem?_set_ne hEq, List.getElem?_eq_getElem hj]

/-- While the signals with one occurrence are taken: the constraints that are left mention
none of the eliminated signals. -/
structure TakesUniques (p : Nat) (forbidden : SignalSet Nat) (constraints : List (Constraint Nat))
    (s : Process4 × List (Constraint Nat)) : Prop where
  keeps : Keeps4 p forbidden (fun t => ∃ c ∈ constraints, t ∈ c.c) s.1
  counts : CountsOf forbidden s.1.infoOcurrences s.2
  left : ∀ (i : Nat) (c : Constraint Nat), s.2[i]? = some c →
    c = Constraint.empty ∨ constraints[i]? = some c
  length : s.2.length = constraints.length
  fewer : ∀ k, occurrences s.2 k ≤ occurrences constraints k
  fresh : ∀ t ∈ s.1.signals.orderSignals, ∀ c ∈ s.2, t ∉ c.c
  holds : ∀ w : Nat → ZMod p, w constantCoefficient = 1 →
    ((∀ c ∈ s.2, c.Holds w) ∧ Says w s.1.substitutions s.1.lconst ↔ ∀ c ∈ constraints, c.Holds w)

/-- A constraint is solved for a signal that occurs nowhere else. -/
theorem treatUnique_spec (hZero : constantCoefficient ∈ forbidden)
    {constraints : List (Constraint Nat)} (hLinear : ∀ c ∈ constraints, c.Linear p)
    {s : Process4 × List (Constraint Nat)} (h : TakesUniques p forbidden constraints s)
    {signal : Nat} (hFree : signal ∉ forbidden) (hOne : occurrences constraints signal = 1)
    (hHere : ∃ c, constraints[index]? = some c ∧ signal ∈ c.c) :
    ∃ s', treatUnique p s (signal, index) = some s' ∧ TakesUniques p forbidden constraints s' := by
  obtain ⟨process, vec⟩ := s
  obtain ⟨work, hAtFirst, hIn⟩ := hHere
  have hMem := List.mem_of_getElem? hAtFirst
  obtain ⟨actual, hAt⟩ : ∃ actual, vec[index]? = some actual := by
    have hLess : index < vec.length := h.length ▸ (List.getElem?_eq_some_iff.mp hAtFirst).1
    exact ⟨vec[index], List.getElem?_eq_getElem hLess⟩
  have hUnique : treatUnique p (process, vec) (signal, index) =
      if actual.isEmpty then some (process, vec)
      else (process.infoOcurrences.removeConstraint actual process.signals).bind
        fun infoOcurrences => (treatUniqueConstraint4 { process with infoOcurrences } actual signal
          p).bind fun process => some (process, vec.set index Constraint.empty) := by
    rw [treatUnique]
    simp only [hAt]
    rfl
  by_cases hEmpty : actual.isEmpty = true
  · exact ⟨(process, vec), by rw [hUnique, if_pos hEmpty], h⟩
  -- the constraint has not been used, so it is the one the signal occurs in
  obtain rfl : actual = work := by
    rcases h.left index actual hAt with rfl | hSame
    · exact absurd rfl hEmpty
    · exact Option.some.inj (hSame.symm.trans hAtFirst)
  have hActual := List.mem_of_getElem? hAt
  have hGiven : Given p (fun t => ∃ c ∈ constraints, t ∈ c.c) actual :=
    ⟨hLinear actual hMem, fun t ht => .inr ⟨actual, hMem, ht⟩⟩
  obtain ⟨entry, hClear, hNew, hKeys, hHolds⟩ := hGiven.eliminated hZero hIn hFree
  have hFresh : signal ∉ process.signals.orderSignals :=
    fun hOrder => h.fresh signal hOrder actual hActual hIn
  have hTo : ∀ t ∈ entry.2.to_, t ∉ process.signals.orderSignals := by
    intro t ht hOrder
    rcases hKeys t ht with rfl | ⟨hMem', -⟩
    · exact h.keeps.free hOrder hZero
    · exact h.fresh t hOrder actual hActual hMem'
  have hCounts : CountsOf process.signals.forbidden process.infoOcurrences
      (actual :: vec.set index Constraint.empty) := by
    intro k v hStored
    rw [h.keeps.fixed, ← occurrences_set hAt]
    exact h.counts k v hStored
  obtain ⟨info, hRemove, hCounts', hSame⟩ := SignalsInformation.removeConstraint_spec hCounts
  rw [h.keeps.fixed] at hCounts'
  have hKeeps := (h.keeps.recount hSame).eliminate hNew hFresh hTo
  refine ⟨(_, vec.set index Constraint.empty), ?_, hKeeps,
    hCounts'.sub fun k v hStored => (Store.get?_of_erase hStored).2, ?_, ?_, ?_, ?_, ?_⟩
  · rw [hUnique, if_neg hEmpty, hRemove, Option.bind_some, treatUniqueConstraint4]
    simp only [hClear, Option.bind_eq_bind, Option.bind_some, hNew.from_]
    rfl
  · intro i c hc
    by_cases hEq : index = i
    · subst hEq
      refine .inl (Option.some.inj (hc.symm.trans ?_))
      exact List.getElem?_set_self (List.getElem?_eq_some_iff.mp hAt).1
    · exact h.left i c ((List.getElem?_set_ne hEq).symm.trans hc)
  · exact List.length_set.trans h.length
  · intro k
    refine le_trans ?_ (h.fewer k)
    show occurrences (vec.set index Constraint.empty) k ≤ occurrences vec k
    rw [occurrences_set hAt k, occurrences, occurrences, List.countP_cons]
    exact Nat.le_add_right _ _
  · intro t ht c hc hMem'
    rcases List.mem_cons.mp ht with rfl | hOrder
    · have hFewer := h.fewer t
      have hAll := occurrences_set hAt t
      rw [occurrences, occurrences, List.countP_cons, if_pos (by simpa using hIn)] at hAll
      have hThere : 0 < (vec.set index Constraint.empty).countP fun c => t ∈ c.c :=
        List.countP_pos_iff.mpr ⟨c, hc, by simpa using hMem'⟩
      rw [hOne, occurrences, hAll] at hFewer
      omega
    · rcases List.mem_or_eq_of_mem_set hc with hOld | rfl
      · exact h.fresh t hOrder c hOld hMem'
      · exact Std.ExtTreeMap.not_mem_empty hMem'
  · intro w hw
    have hNone : process.substitutions[signal]? = none := by
      rw [← Store.notMem_iff, h.keeps.stored]
      exact hFresh
    rw [← h.holds w hw, says_insert hNone, ← hHolds w,
      forall_mem_set (P := fun c => c.Holds w) hAt (Constraint.holds_of_isEmpty rfl)]
    show (∀ c ∈ vec.set index Constraint.empty, c.Holds w) ∧ _ ↔ _
    tauto

end Uniques

/-- The second process ends, and what is said then is what the constraints say. -/
theorem substitutionProcess4_spec (order : HashOrder) (hZero : constantCoefficient ∈ forbidden)
    {constraints : List (Constraint Nat)} (hLinear : ∀ c ∈ constraints, c.Linear p) :
    ∃ s', Settles (fun fuel => substitutionProcess4 order p fuel ⟨∅, forbidden, []⟩ ∅ constraints)
        s' ∧
      Keeps4 p forbidden (fun t => ∃ c ∈ constraints, t ∈ c.c) s' ∧
      ∀ w : Nat → ZMod p, w constantCoefficient = 1 →
        (Says w s'.substitutions s'.lconst ↔ ∀ c ∈ constraints, c.Holds w) := by
  let U : Nat → Prop := fun t => ∃ c ∈ constraints, t ∈ c.c
  obtain ⟨info, uniques, hNew, hCensus⟩ :=
    SignalsInformation.new_spec constraints ⟨∅, forbidden, []⟩
  have hFound : ∀ k v : Nat, info.signalToOcurrences[k]? = some v →
      k ∉ forbidden ∧ v = occurrences constraints k := by
    intro k v hStored
    rw [hCensus.ocurrences] at hStored
    split at hStored
    next hBoth => exact ⟨hBoth.1, (Option.some.inj hStored).symm⟩
    next => cases hStored
  have hInit : TakesUniques p forbidden constraints
      (⟨⟨∅, forbidden, []⟩, ∅, [], info⟩, constraints) := by
    refine ⟨⟨rfl, fun k => ?_, fun k => ?_, List.nodup_nil, ?_, List.Pairwise.nil, ?_, ?_⟩, hFound,
      fun i c hc => .inr hc, rfl, fun k => le_refl _, ?_, ?_⟩
    · exact iff_of_false Std.ExtTreeSet.not_mem_empty List.not_mem_nil
    · exact iff_of_false Std.ExtTreeMap.not_mem_empty List.not_mem_nil
    · intro signal entry hEntry
      simp at hEntry
    · exact fun c hc => absurd hc List.not_mem_nil
    · rintro k hFree ⟨c, hc, hk⟩ -
      refine Store.mem_iff.mpr ⟨_, (hCensus.ocurrences k).trans (if_pos ⟨hFree, ?_⟩)⟩
      exact List.countP_pos_iff.mpr ⟨c, hc, by simpa using hk⟩
    · exact fun t ht => absurd ht List.not_mem_nil
    · simp [Says]
  obtain ⟨⟨process, vec⟩, hUniques, hTakes, -⟩ := exists_foldlM (treatUnique p)
    (fun s rest => TakesUniques p forbidden constraints s ∧
      ∀ unique ∈ rest, uniques[unique.1]? = some unique.2) _ uniques.toList
    (by
      rintro s ⟨signal, index⟩ rest ⟨hTakes, hRest⟩
      rw [List.forall_mem_cons] at hRest
      obtain ⟨hFree, hOne, hHere⟩ := hCensus.uniques signal index hRest.1
      obtain ⟨s', hOk, hTakes'⟩ := treatUnique_spec hZero hLinear hTakes hFree hOne hHere
      exact ⟨s', hOk, hTakes', hRest.2⟩)
    ⟨hInit, fun unique hIn => Store.mem_toList.mp hIn⟩
  have hGiven : ∀ c ∈ vec.reverse, Given p U c := by
    intro c hc
    obtain ⟨i, hi⟩ := List.mem_iff_getElem?.mp (List.mem_reverse.mp hc)
    rcases hTakes.left i c hi with rfl | hFirst
    · have hNothing : ∀ t : Nat, t ∉ (Constraint.empty : Constraint Nat).c :=
        fun t => Std.ExtTreeMap.not_mem_empty
      refine ⟨⟨rfl, rfl, ?_⟩, fun t ht => absurd ht (hNothing t)⟩
      exact fun t v hStored => absurd (Store.mem_iff.mpr ⟨v, hStored⟩) (hNothing t)
    · have hMem := List.mem_of_getElem? hFirst
      exact ⟨hLinear c hMem, fun t ht => .inr ⟨c, hMem, ht⟩⟩
  let Inv : Process4 → List (Constraint Nat) → Prop := fun s rest =>
    Keeps4 p forbidden U s ∧ CountsOf forbidden s.infoOcurrences rest ∧
      (∀ c ∈ rest, Given p U c) ∧ ∀ w : Nat → ZMod p, w constantCoefficient = 1 →
        ((∀ c ∈ rest, c.Holds w) ∧ Says w s.substitutions s.lconst ↔
          ∀ c ∈ constraints, c.Holds w)
  have hStep : ∀ s₁ work rest, Inv s₁ (work :: rest) →
      ∃ s₂, Settles (fun fuel => treatNext4 order p fuel s₁ work) s₂ ∧ Inv s₂ rest := by
    rintro s₁ work rest ⟨hKeeps, hCounts, hRest, hSays⟩
    rw [List.forall_mem_cons] at hRest
    obtain ⟨s₂, hSettles, hKeeps₂, hCounts₂, hSays₂⟩ :=
      treatNext4_spec order hZero hKeeps hCounts hRest.1
    refine ⟨s₂, hSettles, hKeeps₂, hCounts₂, hRest.2, ?_⟩
    intro w hOne
    rw [← hSays w hOne, hSays₂ w hOne, List.forall_mem_cons]
    tauto
  have hStart : Inv process vec.reverse := by
    refine ⟨hTakes.keeps, ?_, hGiven, ?_⟩
    · intro k v hStored
      rw [occurrences, (List.reverse_perm vec).countP_eq]
      exact hTakes.counts k v hStored
    · intro w hOne
      rw [← hTakes.holds w hOne]
      simp
  obtain ⟨s', hSettles, hKeeps, -, -, hSays⟩ := exists_settles_foldlM _ Inv _ _ hStep hStart
  refine ⟨s', hSettles.congr ?_, hKeeps, ?_⟩
  · intro fuel
    rw [substitutionProcess4, hNew]
    simp only [Option.bind_eq_bind, Option.bind_some, hUniques]
  · intro w hOne
    rw [← hSays w hOne]
    simp

end Ganc.Circom
