import Ganc.Circom.Rounds

/-!
# circom — equalities, constants, linear constraints

The three blocks of `simplification` before the rounds. The constraints that
are not linear are not touched by them: the substitutions are collected, and
applied at the end in one pass over the circuit, those for signals that cannot
occur being left out (`Restricts`). What the circuit would be after every block
is tracked with them as if they had been applied (`Staged`).
-/

set_option linter.unusedSectionVars false

namespace Ganc.Circom

open Elimination Fuel ConstraintStorage

variable {p : Nat} [Fact p.Prime] {forbidden : SignalSet Nat} {consistent : Prop}
variable {encoding : DAGEncoding} {iters : List EncodingIterator}

-- ---------------------------------------------------------------------------
-- The circuit
-- ---------------------------------------------------------------------------

/-- All subcircuits of the encoded circuit. -/
def Unfolds (encoding : DAGEncoding) (iters : List EncodingIterator) : Prop :=
  ∃ root, EncodingIterator.new encoding = some root ∧
    Preorder.subtrees (EncodingIterator.edges encoding) (EncodingIterator.next encoding)
      encoding.nodes.length root = some iters

/-- The constraints of the circuit that are not linear. -/
def nonLinears (iters : List EncodingIterator) : List (Constraint Nat) :=
  iters.flatMap EncodingIterator.nonLinear

/-- A visit is a loop over the iterators. -/
theorem Unfolds.visit (h : Unfolds encoding iters) {σ : Type}
    (f : σ → EncodingIterator → Option σ) (s : σ) :
    EncodingIterator.visit encoding f s = iters.foldlM f s := by
  obtain ⟨root, hRoot, hTrees⟩ := h
  rw [EncodingIterator.visit, hRoot, Option.bind_eq_bind, Option.bind_some, Preorder.preorder_eq,
    hTrees, Option.bind_some]

-- ---------------------------------------------------------------------------
-- Relevant signals
-- ---------------------------------------------------------------------------

/-- The signal under the equalities. -/
def renamed (renames : SEncoded) (t : Nat) : Nat := (unwrappedSignal renames t).getD t

/-- A signal is relevant if it has not been deleted, under its new name. -/
theorem mem_foldl_relevantSignal (renames deletes : SEncoded) (signals : List Nat)
    (relevant : SignalSet Nat) (t : Nat) :
    t ∈ signals.foldl (relevantSignal renames deletes) relevant ↔
      t ∈ relevant ∨ (t ∉ deletes ∧ ∃ u ∈ signals, renamed renames u = t) := by
  induction signals generalizing relevant with
  | nil => simp
  | cons u signals ih =>
    have hFirst : t ∈ relevantSignal renames deletes relevant u ↔
        t ∈ relevant ∨ (t ∉ deletes ∧ renamed renames u = t) := by
      rw [relevantSignal]
      show t ∈ (if renamed renames u ∈ deletes then relevant
        else relevant.insert (renamed renames u)) ↔ _
      split
      next hIn =>
        refine (or_iff_left ?_).symm
        rintro ⟨hNot, rfl⟩
        exact hNot hIn
      next hNot =>
        rw [mem_insert_set, or_comm]
        refine or_congr_right ⟨?_, fun hEq => hEq.2.symm⟩
        rintro rfl
        exact ⟨hNot, rfl⟩
    rw [List.foldl_cons, ih, hFirst]
    simp only [List.mem_cons, exists_eq_or_imp]
    tauto

/-- The relevant signals are those of constraints that are not linear. -/
theorem buildRelevantSet_spec (h : Unfolds encoding iters) (renames deletes : SEncoded) :
    ∃ relevant, buildRelevantSet encoding renames deletes = some relevant ∧
      ∀ t, t ∈ relevant ↔ t ∉ deletes ∧
        ∃ u, u ≠ constantCoefficient ∧ Mentions (nonLinears iters) u ∧ renamed renames u = t := by
  have hFold : ∀ (its : List EncodingIterator) (relevant : SignalSet Nat),
      its.foldlM (relevantSignals renames deletes) relevant =
        some (((nonLinears its).flatMap fun c => c.takeClonedSignals.toList).foldl
          (relevantSignal renames deletes) relevant) := by
    intro its
    induction its with
    | nil => exact fun _ => rfl
    | cons it its ih =>
      intro relevant
      rw [List.foldlM_cons, relevantSignals, Option.bind_eq_bind, Option.bind_some, ih, nonLinears,
        nonLinears, List.flatMap_cons, List.flatMap_append, List.foldl_append]
  refine ⟨_, (h.visit _ _).trans (hFold iters ∅), ?_⟩
  intro t
  have hNone : t ∉ (∅ : SignalSet Nat) := Std.ExtTreeSet.not_mem_empty
  rw [mem_foldl_relevantSignal, or_iff_right hNone]
  refine and_congr_right fun _ => exists_congr fun u => ?_
  rw [← and_assoc]
  refine and_congr_left fun _ => ?_
  rw [List.mem_flatMap]
  constructor
  · rintro ⟨c, hc, hu⟩
    rw [Std.ExtTreeSet.mem_toList, Constraint.mem_takeClonedSignals] at hu
    exact ⟨hu.1, c, hc, hu.2⟩
  · rintro ⟨hne, c, hc, hu⟩
    refine ⟨c, hc, ?_⟩
    rw [Std.ExtTreeSet.mem_toList, Constraint.mem_takeClonedSignals]
    exact ⟨hne, hu⟩

-- ---------------------------------------------------------------------------
-- Substitutions that are left out
-- ---------------------------------------------------------------------------

variable {enc part : SEncoded} {c c' : Constraint Nat} {R R' T T' : List (Constraint Nat)}

/-- Some of the encoded substitutions. -/
def Restricts (enc part : SEncoded) : Prop :=
  ∀ (k : Nat) (e : ArithmeticExpression Nat), part[k]? = some e → enc[k]? = some e

/-- A part of a closed encoding is closed. -/
theorem Restricts.closed (h : Restricts enc part) (hClosed : enc.Closed) : part.Closed := by
  have hMem : ∀ {k}, k ∈ part → k ∈ enc := by
    intro k hk
    obtain ⟨e, hStored⟩ := Store.mem_iff.mp hk
    exact Store.mem_iff.mpr ⟨e, h k e hStored⟩
  exact ⟨fun hIn => hClosed.constant (hMem hIn),
    fun k e hStored => hClosed.affine k e (h k e hStored),
    fun k e hStored t ht hIn => hClosed.apart k e (h k e hStored) t ht (hMem hIn)⟩

/-- Those that are left out are not needed for the signals of the constraint. -/
theorem Restricts.substituted (h : Restricts enc part) (hSub : Substituted p part c c')
    (hEnough : ∀ t, c.Occurs t → t ∈ enc → t ∈ part) : Substituted p enc c c' := by
  refine ⟨hSub.reduced, ?_, ?_⟩
  · exact fun w hOne hEnc => hSub.holds w hOne fun k e hStored => hEnc k e (h k e hStored)
  · intro t ht
    rcases hSub.occurs t ht with hEq | ⟨hOld, hNot⟩ | ⟨k, e, hk, hStored, hOccurs⟩
    · exact .inl hEq
    · exact .inr (.inl ⟨hOld, fun hIn => hNot (hEnough t hOld hIn)⟩)
    · exact .inr (.inr ⟨k, e, hk, h k e hStored, hOccurs⟩)

/-- The substitutions of the relevant signals remain. -/
theorem get?_removeNotRelevant (substitutions : SEncoded) (relevant : SignalSet Nat) (k : Nat)
    (e : ArithmeticExpression Nat) : (removeNotRelevant substitutions relevant)[k]? = some e ↔
      substitutions[k]? = some e ∧ k ∈ relevant := by
  rw [removeNotRelevant, Std.ExtTreeMap.getElem?_filter', Option.filter_eq_some_iff]
  simp

/-- The substitutions for relevant signals, encoded. -/
theorem Splits.restricts_filter {D kept : List (Constraint Nat)} {subs : List (Substitution Nat)}
    (h : Splits p forbidden D subs kept) (relevant : SignalSet Nat) :
    let part := buildEncodedFastSubstitutions (subs.filter fun sub => sub.from_ ∈ relevant)
    Restricts (buildEncodedFastSubstitutions subs) part ∧
      ∀ k ∈ buildEncodedFastSubstitutions subs, k ∈ relevant → k ∈ part := by
  have hEnc := encodes_build subs
  have hPart := encodes_build (subs.filter fun sub => sub.from_ ∈ relevant)
  refine ⟨?_, ?_⟩
  · intro k e hStored
    obtain ⟨s, hs, rfl, rfl⟩ := hPart.entries k e hStored
    have hMem := List.mem_of_mem_filter hs
    obtain ⟨e', hStored'⟩ := Store.mem_iff.mp ((hEnc.keys s.from_).mpr ⟨s, hMem, rfl⟩)
    obtain ⟨s', hs', hSame, rfl⟩ := hEnc.entries s.from_ e' hStored'
    obtain rfl := List.inj_on_of_nodup_map h.separate.nodup hs' hMem hSame
    exact hStored'
  · intro k hk hRelevant
    obtain ⟨s, hs, rfl⟩ := (hEnc.keys k).mp hk
    exact (hPart.keys _).mpr ⟨s, List.mem_filter.mpr ⟨hs, by simpa using hRelevant⟩, rfl⟩

-- ---------------------------------------------------------------------------
-- The circuit after a block
-- ---------------------------------------------------------------------------

variable {N₀ N T₀ : List (Constraint Nat)} {order : HashOrder} {s : Solved} {smp : Simplifier}

/-- What the circuit would be: the constraints that are left, and those that are not linear as
they would be under the substitutions collected so far. -/
structure Staged (p : Nat) (order : HashOrder) (forbidden : SignalSet Nat) (consistent : Prop)
    (T₀ N₀ : List (Constraint Nat)) (s : Solved) (N : List (Constraint Nat)) : Prop where
  remains : Remains p forbidden consistent T₀
    (s.consEqualities ++ (s.linear ++ (s.lconst ++ N))) {k | k ∈ s.deleted}
  linear : ∀ c ∈ s.linear, c.Linear p
  frames : List.Forall₂ (fun c c' => s.frames.foldlM (applyFrame order p) c = some c') N₀ N

/-- All constraints can be substituted into and fixed. -/
theorem exists_mapM_substituteAndFix (order : HashOrder) (hClosed : enc.Closed)
    (hRed : ∀ c ∈ R, c.c.Reduced p) :
    ∃ R', R.mapM (substituteAndFix order enc p) = some R' ∧
      List.Forall₂ (fun c c' => Substituted p enc c c' ∧ (c.Linear p → c'.Linear p)) R R' :=
  exists_mapM (substituteAndFix order enc (p : Int)) _ R
    fun c hc => substituteAndFix_spec order hClosed (hRed c hc)

/-- Another frame. -/
theorem exists_frame (order : HashOrder) {frames : List SEncoded}
    (hFrames : List.Forall₂ (fun c c' => frames.foldlM (applyFrame order p) c = some c') N₀ N)
    (hClosed : enc.Closed) (hPart : Restricts enc part)
    (hEnough : ∀ t, Mentions N t → t ∈ enc → t ∈ part) (hRed : ∀ c ∈ N, c.c.Reduced p) :
    ∃ N', List.Forall₂ (fun c c' => (frames ++ [part]).foldlM (applyFrame order p) c = some c')
        N₀ N' ∧ List.Forall₂ (Substituted p enc) N N' ∧
      List.Forall₂ (Substituted p part) N N' := by
  obtain ⟨N', -, hAll⟩ := exists_mapM (fun c => applyFrame order p c part)
    (fun c c' => applyFrame order p c part = some c' ∧ Substituted p part c c') N (by
      intro c hc
      obtain ⟨c', applied, hOk, hSub, -⟩ :=
        fastEncodedConstraintSubstitution_spec order (hPart.closed hClosed) (hRed c hc)
      have hFrame : applyFrame order p c part = some c' := by
        rw [applyFrame, hOk, Option.map_some]
      exact ⟨c', hFrame, hFrame, hSub⟩)
  refine ⟨N', ?_, ?_, hAll.imp fun _ _ h => h.2⟩
  · refine (forall₂_comp hFrames hAll).imp ?_
    rintro c c'' ⟨c', hFirst, hLast, -⟩
    rw [List.foldlM_append, hFirst, Option.bind_eq_bind, Option.bind_some, List.foldlM_cons, hLast]
    rfl
  · refine List.forall₂_iff_zip.mpr ⟨hAll.length_eq, ?_⟩
    intro c c' hMem
    have hc := (List.of_mem_zip hMem).1
    exact hPart.substituted (List.forall₂_iff_zip.mp hAll |>.2 hMem).2
      fun t ht => hEnough t ⟨c, hc, ht⟩

theorem mem_insertMany_keys {deleted : SignalSet Nat} {enc : SEncoded} :
    {k | k ∈ deleted.insertMany enc.keys} = {k | k ∈ deleted} ∪ {k | k ∈ enc} := by
  ext k
  show k ∈ deleted.insertMany enc.keys ↔ k ∈ deleted ∨ k ∈ enc
  rw [mem_insertMany_set, Std.ExtTreeMap.mem_keys]

/-- Where the signals of the constraints that are not linear come from. -/
def Follows (part : SEncoded) (N₀ N : List (Constraint Nat)) : Prop :=
  ∀ t, Mentions N t → t = constantCoefficient ∨
    ∃ u, u ≠ constantCoefficient ∧ Mentions N₀ u ∧ renamed part u = t

/-- After renaming substitutions each constraint follows its old one. -/
theorem follows_of_substituted (hClosed : part.Closed) (hRenames : part.Renames)
    (h : List.Forall₂ (Substituted p part) N₀ N) : Follows part N₀ N := by
  rintro t ⟨c', hc', ht⟩
  obtain ⟨c, hc, hSub⟩ := exists_item h hc'
  refine or_iff_not_imp_left.mpr fun hne => ?_
  rcases hSub.occurs t ht with hEq | ⟨hOld, hNot⟩ | ⟨k, e, hk, hStored, hOccurs⟩
  · exact absurd hEq hne
  · refine ⟨t, hne, ⟨c, hc, hOld⟩, ?_⟩
    rw [renamed, unwrappedSignal, Store.notMem_iff.mp hNot]
    rfl
  · obtain ⟨y, -, rfl⟩ := hRenames k e hStored
    refine ⟨k, ?_, ⟨c, hc, hk⟩, ?_⟩
    · rintro rfl
      exact hClosed.constant (Store.mem_iff.mpr ⟨_, hStored⟩)
    · rw [renamed, unwrappedSignal, hStored]
      exact hOccurs.symm

-- ---------------------------------------------------------------------------
-- Equalities
-- ---------------------------------------------------------------------------

/-- All constraints of the circuit. -/
def Simplifier.circuit (smp : Simplifier) (iters : List EncodingIterator) :
    List (Constraint Nat) :=
  smp.equalities ++ (smp.consEqualities ++ (smp.linear ++ nonLinears iters))

/-- What the simplifier is given: the linear constraints are sorted by their kinds, and the
constant, the outputs and the public inputs, which have the first numbers, are forbidden. -/
structure Simplifier.Formed (p : Nat) (order : HashOrder) (smp : Simplifier)
    (iters : List EncodingIterator) : Prop where
  field : smp.field = p
  unfolds : Unfolds smp.dagEncoding iters
  equalities : ∀ c ∈ smp.equalities, c.Linear p ∧ c.isEquality order p = true
  consEqualities : ∀ c ∈ smp.consEqualities, c.Linear p ∧ c.isConstantEquality = true
  linear : ∀ c ∈ smp.linear, c.Linear p
  reduced : ∀ c ∈ nonLinears iters, c.c.Reduced p
  publics : ∀ t ≤ smp.noPublicOutputs + smp.noPublicInputs, t ∈ smp.forbidden
  inputs : smp.noPublicOutputs + smp.noPublicInputs + smp.noPrivateInputs < smp.maxSignal
  bound : ∀ t, Mentions (smp.circuit iters) t → t < smp.maxSignal

/-- The equalities and the constants do not contradict each other. -/
def Simplifier.Consistent (p : Nat) (smp : Simplifier) : Prop :=
  (solutions p (smp.equalities ++ smp.consEqualities)).Nonempty

theorem Simplifier.Formed.zero (h : smp.Formed p order iters) :
    constantCoefficient ∈ smp.forbidden := h.publics 0 (Nat.zero_le _)

theorem Simplifier.Formed.positive (h : smp.Formed p order iters) : 0 < smp.maxSignal :=
  Nat.zero_lt_of_lt h.inputs

theorem Simplifier.Formed.reduced_circuit (h : smp.Formed p order iters) :
    ∀ c ∈ smp.circuit iters, c.c.Reduced p := by
  simp only [Simplifier.circuit, List.forall_mem_append]
  exact ⟨fun c hc => (h.equalities c hc).1.toReduced,
    fun c hc => (h.consEqualities c hc).1.toReduced, fun c hc => (h.linear c hc).toReduced,
    h.reduced⟩

/-- The block of the equalities. -/
theorem singleSubstitutions_spec (h : smp.Formed p order iters) :
    ∃ s N part, Settles (fun fuel => singleSubstitutions order fuel smp) s ∧
      Staged p order smp.forbidden (smp.Consistent p) (smp.circuit iters) (nonLinears iters) s N ∧
      s.frames = [part] ∧ Follows part (nonLinears iters) N ∧
      (∀ t, Mentions s.lconst t → t = constantCoefficient ∨ t ∈ smp.forbidden) ∧
      (∀ c ∈ s.consEqualities, ∃ x, Pins p c x) ∧
      (smp.Consistent p → (solutions p s.consEqualities).Nonempty) := by
  obtain ⟨relevant, hRelevant, hMem⟩ := buildRelevantSet_spec h.unfolds ∅ ∅
  have hBound : ∀ c ∈ smp.equalities, ∀ t, c.Occurs t → t < smp.maxSignal :=
    fun c hc t ht => h.bound t (mentions_append.mpr (.inl ⟨c, hc, ht⟩))
  obtain ⟨subs, cons, hSettles, hRenames, hSplits⟩ := eqSimplification_spec order h.zero
    (fun c hc => (h.equalities c hc).1)
    (fun c hc => isEquality_spec order (h.equalities c hc).1 (h.equalities c hc).2) hBound
  let enc := buildEncodedFastSubstitutions subs
  have hEnc := encodes_build subs
  have hRes := hSplits.resolves h.zero (smp.Consistent p)
  obtain ⟨linear, hLinear, hAllLinear⟩ := exists_mapM_substituteAndFix order hRes.closed
    fun c hc => (h.linear c hc).toReduced
  obtain ⟨ks, hKs, hAllKs⟩ := exists_mapM_substituteAndFix order hRes.closed
    fun c hc => (h.consEqualities c hc).1.toReduced
  let part := removeNotRelevant enc relevant
  have hPart : Restricts enc part := fun k e hStored =>
    ((get?_removeNotRelevant enc relevant k e).mp hStored).1
  have hRelevantAll : ∀ t, t ≠ constantCoefficient → Mentions (nonLinears iters) t →
      t ∈ relevant := by
    intro t hne ht
    exact (hMem t).mpr
      ⟨Std.ExtTreeMap.not_mem_empty, t, hne, ht, by simp [renamed, unwrappedSignal]⟩
  have hNoFrame : List.Forall₂
      (fun c c' => ([] : List SEncoded).foldlM (applyFrame order p) c = some c')
      (nonLinears iters) (nonLinears iters) := List.forall₂_same.mpr fun c _ => rfl
  obtain ⟨N, hFrames, hAllN, hAllPart⟩ := exists_frame order hNoFrame hRes.closed hPart (by
      intro t ht hIn
      obtain ⟨e, hStored⟩ := Store.mem_iff.mp hIn
      have hne : t ≠ constantCoefficient := by
        rintro rfl
        exact hRes.closed.constant hIn
      exact Store.mem_iff.mpr ⟨e, (get?_removeNotRelevant enc relevant t e).mpr
        ⟨hStored, hRelevantAll t hne ht⟩⟩) h.reduced
  have hSubKs := hAllKs.imp fun _ _ hBoth => hBoth.1
  have hSubLinear := hAllLinear.imp fun _ _ hBoth => hBoth.1
  have hLinear' : ∀ c' ∈ linear, c'.Linear p := by
    intro c' hc'
    obtain ⟨c, hc, -, hStays⟩ := exists_item hAllLinear hc'
    exact hStays (h.linear c hc)
  have hRemains := (remains_self smp.forbidden (smp.Consistent p)
    h.reduced_circuit).resolve h.zero hRes (hRes.putToUse
      (List.rel_append hRes.forall₂_kept (List.rel_append hSubKs
        (List.rel_append hSubLinear hAllN))))
  refine ⟨⟨linear, ks, cons, .ofList enc.keys compare, [part]⟩, N, part, ?_,
    ⟨?_, hLinear', hFrames⟩, rfl,
    follows_of_substituted (hPart.closed hRes.closed) ?_ hAllPart, ?_, ?_, ?_⟩
  · refine (hSettles.bind (k := fun _ result =>
      (smp.linear.mapM (substituteAndFix order (buildEncodedFastSubstitutions result.1)
        smp.field)).bind fun linear =>
      (smp.consEqualities.mapM (substituteAndFix order (buildEncodedFastSubstitutions result.1)
        smp.field)).bind fun consEqualities =>
      some (Solved.mk linear consEqualities result.2
        (.ofList (buildEncodedFastSubstitutions result.1).keys compare)
        [removeNotRelevant (buildEncodedFastSubstitutions result.1) relevant]))
      (settles_of_eq fun _ => ?_)).congr fun fuel => ?_
    · rw [h.field, hLinear, Option.bind_some, hKs]
      rfl
    · rw [singleSubstitutions, hRelevant, h.field]
      rfl
  · have hDeleted : {k | k ∈ (.ofList enc.keys compare : SignalSet Nat)} =
        (∅ : Set Nat) ∪ {k | k ∈ enc} := by
      ext k
      rw [Set.empty_union]
      show k ∈ (.ofList enc.keys compare : SignalSet Nat) ↔ k ∈ enc
      rw [Std.ExtTreeSet.mem_ofList, List.contains_iff_mem, Std.ExtTreeMap.mem_keys]
    show Remains p smp.forbidden _ _ _ {k | k ∈ (.ofList enc.keys compare : SignalSet Nat)}
    rw [hDeleted]
    refine hRemains.perm ?_
    refine (List.perm_append_comm_assoc cons ks _).trans (List.Perm.append_left ks ?_)
    exact List.perm_append_comm_assoc cons linear N
  · intro k e hStored
    exact hEnc.renames hRenames k e (hPart k e hStored)
  · exact fun t ht => (hSplits.left t ht).imp_right And.left
  · intro c' hc'
    obtain ⟨c, hc, hSub, hStays⟩ := exists_item hAllKs hc'
    obtain ⟨hGiven, hConstant⟩ := h.consEqualities c hc
    obtain ⟨x, hPins⟩ := isConstantEquality_spec hGiven hConstant
    exact hPins.substituted hRes.closed (hEnc.renames hRenames) hSub (hStays hGiven)
  · rintro ⟨w, hOne, hAll⟩
    rw [List.forall_mem_append] at hAll
    have hHolds := (hRes.forth w hOne hAll.1).2
    refine ⟨w, hOne, ?_⟩
    intro c' hc'
    obtain ⟨c, hc, hSub⟩ := exists_item hSubKs hc'
    exact (hSub.holds w hOne hHolds).mpr (hAll.2 c hc)

-- ---------------------------------------------------------------------------
-- Constants
-- ---------------------------------------------------------------------------

variable {n : BigNumbers} {D kept : List (Constraint Nat)}

/-- Constraints of forbidden signals are not changed. -/
theorem Resolves.forall₂_fixed (h : Resolves p forbidden consistent D enc kept)
    (hRed : ∀ c ∈ R, c.c.Reduced p)
    (hFixed : ∀ t, Mentions R t → t = constantCoefficient ∨ t ∈ forbidden) :
    List.Forall₂ (Substituted p enc) R R := by
  refine List.forall₂_same.mpr fun c hc => substituted_self (hRed c hc) fun t ht hIn => ?_
  rcases hFixed t ⟨c, hc, ht⟩ with rfl | hForbidden
  · exact h.closed.constant hIn
  · exact (h.free t hIn).1 hForbidden

/-- In constraints of forbidden signals, a part of the substitutions does as much as all. -/
theorem Resolves.forall₂_restricted (h : Resolves p forbidden consistent D enc kept)
    (hPart : Restricts enc part)
    (hFixed : ∀ t, Mentions R t → t = constantCoefficient ∨ t ∈ forbidden)
    (hAll : List.Forall₂ (Substituted p part) R R') : List.Forall₂ (Substituted p enc) R R' := by
  obtain ⟨hLength, hZip⟩ := List.forall₂_iff_zip.mp hAll
  refine List.forall₂_iff_zip.mpr ⟨hLength, ?_⟩
  intro c c' hPair
  refine hPart.substituted (hZip hPair) fun t ht hIn => ?_
  rcases hFixed t ⟨c, (List.of_mem_zip hPair).1, ht⟩ with rfl | hForbidden
  · exact absurd hIn h.closed.constant
  · exact absurd hForbidden (h.free t hIn).1

/-- The block of the constants. -/
theorem consSubstitutions_spec (h : smp.Formed p order iters) (hLaw : n.Lawful)
    (hStaged : Staged p order smp.forbidden (smp.Consistent p) (smp.circuit iters)
      (nonLinears iters) s N)
    (hFrames : s.frames = [part]) (hFollows : Follows part (nonLinears iters) N)
    (hFixed : ∀ t, Mentions s.lconst t → t = constantCoefficient ∨ t ∈ smp.forbidden)
    (hPins : ∀ c ∈ s.consEqualities, ∃ x, Pins p c x)
    (hConsistent : smp.Consistent p → (solutions p s.consEqualities).Nonempty) :
    ∃ s' N' enc, consSubstitutions n order smp s = some s' ∧
      Staged p order smp.forbidden (smp.Consistent p) (smp.circuit iters) (nonLinears iters) s' N' ∧
      s'.consEqualities = [] ∧ s'.frames = [part, enc] ∧ Follows part (nonLinears iters) N' ∧
      (∀ t, Mentions N' t → t ∉ enc) ∧
      ∀ t, Mentions s'.lconst t → t = constantCoefficient ∨ t ∈ smp.forbidden := by
  obtain ⟨subs, cons, hOk, hConstants⟩ :=
    constantEqSimplification_spec smp.forbidden hLaw hPins
  let enc := buildEncodedFastSubstitutions subs
  have hRes : Resolves p smp.forbidden (smp.Consistent p) s.consEqualities enc cons :=
    hConstants.resolves h.zero hConsistent
  have hRed := hStaged.remains.reduced
  simp only [List.forall_mem_append] at hRed
  obtain ⟨-, hRedLinear, hRedConst, hRedN⟩ := hRed
  obtain ⟨linear, hLinear, hAllLinear⟩ :=
    exists_mapM_substituteAndFix order hRes.closed hRedLinear
  obtain ⟨N', hFrames', hAllN, -⟩ := exists_frame order hStaged.frames
    hRes.closed (fun _ _ hStored => hStored) (fun _ _ hIn => hIn) hRedN
  have hOccurs : ∀ t, Mentions N' t → t = constantCoefficient ∨ (Mentions N t ∧ t ∉ enc) := by
    rintro t ⟨c', hc', ht⟩
    obtain ⟨c, hc, hSub⟩ := exists_item hAllN hc'
    rcases hSub.occurs t ht with hEq | ⟨hOld, hNot⟩ | ⟨k, e, -, hStored, hBrought⟩
    · exact .inl hEq
    · exact .inr ⟨⟨c, hc, hOld⟩, hNot⟩
    · exact .inl (hConstants.occurs hStored hBrought)
  have hLinear' : ∀ c' ∈ linear, c'.Linear p := by
    intro c' hc'
    obtain ⟨c, hc, -, hStays⟩ := exists_item hAllLinear hc'
    exact hStays (hStaged.linear c hc)
  have hRemains := hStaged.remains.resolve h.zero hRes (hRes.putToUse
    (List.rel_append hRes.forall₂_kept (List.rel_append (hAllLinear.imp fun _ _ hBoth => hBoth.1)
      (List.rel_append (hRes.forall₂_fixed hRedConst hFixed) hAllN))))
  refine ⟨⟨linear, [], s.lconst ++ cons, s.deleted.insertMany enc.keys, s.frames ++ [enc]⟩, N', enc,
    ?_, ⟨?_, hLinear', hFrames'⟩, rfl, by rw [hFrames]; rfl, ?_, ?_, ?_⟩
  · rw [consSubstitutions, h.field, hOk]
    simp only [Option.bind_eq_bind, Option.bind_some]
    rw [hLinear]
    rfl
  · have hPerm : (cons ++ (linear ++ (s.lconst ++ N'))).Perm
        (linear ++ ((s.lconst ++ cons) ++ N')) := by
      refine (List.perm_append_comm_assoc cons linear _).trans (List.Perm.append_left linear ?_)
      rw [← List.append_assoc]
      exact List.perm_append_comm.append_right N'
    show Remains p smp.forbidden _ _ _ {k | k ∈ s.deleted.insertMany enc.keys}
    rw [mem_insertMany_keys]
    exact hRemains.perm hPerm
  · intro t ht
    exact (hOccurs t ht).elim .inl fun hIn => hFollows t hIn.1
  · intro t ht
    rcases hOccurs t ht with rfl | ⟨-, hNot⟩
    · exact hRes.closed.constant
    · exact hNot
  · intro t ht
    rcases mentions_append.mp ht with hIn | hIn
    · exact hFixed t hIn
    · exact (hRes.left t hIn).imp_right And.left

-- ---------------------------------------------------------------------------
-- Linear constraints
-- ---------------------------------------------------------------------------

section Linear

variable {relevant : SignalSet Nat}

/-- If the flag says so, no linear constraint is solved. -/
theorem linearSubstitutions_unsolved (h : smp.Formed p order iters)
    (hStaged : Staged p order smp.forbidden (smp.Consistent p) (smp.circuit iters)
      (nonLinears iters) s N) (hDone : s.consEqualities = [])
    (hRelevant : buildRelevantSet smp.dagEncoding (s.frames[0]?.getD ∅) (s.frames[1]?.getD ∅) =
      some relevant) (hFlag : smp.flagS = true) :
    ∃ s' N', Settles (fun fuel => linearSubstitutions n order fuel smp s) s' ∧
      Staged p order smp.forbidden (smp.Consistent p) (smp.circuit iters) (nonLinears iters) s' N' ∧
      s'.consEqualities = [] ∧ s'.linear = [] := by
  have hRed := hStaged.remains.reduced
  simp only [List.forall_mem_append] at hRed
  obtain ⟨-, hRedLinear, hRedConst, hRedN⟩ := hRed
  have hRemains := hStaged.remains
  rw [hDone, List.nil_append] at hRemains
  have hRes := resolves_nil (p := p) smp.forbidden (smp.Consistent p)
  obtain ⟨N', hFrames', hAllN, -⟩ := exists_frame order hStaged.frames
    hRes.closed (fun _ _ hStored => hStored) (fun _ _ hIn => hIn) hRedN
  have hSame : ∀ L : List (Constraint Nat), (∀ c ∈ L, c.c.Reduced p) →
      List.Forall₂ (Substituted p (∅ : SEncoded)) L L := fun L hL =>
    List.forall₂_same.mpr fun c hc =>
      substituted_self (hL c hc) fun _ _ => Std.ExtTreeMap.not_mem_empty
  have hNext := Remains.resolve (D := []) hRemains h.zero hRes (hRes.putToUse
    (List.rel_append (hSame s.linear hRedLinear)
      (List.rel_append (hSame s.lconst hRedConst) hAllN)))
  have hNone : {k | k ∈ s.deleted} ∪ {k | k ∈ (∅ : SEncoded)} = {k | k ∈ s.deleted} := by
    ext k
    simp
  rw [hNone] at hNext
  refine ⟨⟨[], s.consEqualities, s.lconst ++ s.linear, s.deleted, s.frames ++ [∅]⟩, N',
    settles_of_eq fun _ => ?_, ⟨?_, by simp, hFrames'⟩, hDone, rfl⟩
  · rw [linearSubstitutions, hRelevant, Option.bind_eq_bind, Option.bind_some]
    simp only [hFlag]
    rfl
  · refine hNext.perm ?_
    rw [hDone]
    show (s.linear ++ (s.lconst ++ N')).Perm ([] ++ ([] ++ ((s.lconst ++ s.linear) ++ N')))
    rw [List.nil_append, List.nil_append, ← List.append_assoc]
    exact List.perm_append_comm.append_right N'

/-- Otherwise the linear constraints are solved; the substitutions of relevant signals are all
that the constraints which are not linear need. -/
theorem linearSubstitutions_solved (h : smp.Formed p order iters) (hLaw : n.Lawful)
    (hStaged : Staged p order smp.forbidden (smp.Consistent p) (smp.circuit iters)
      (nonLinears iters) s N) (hDone : s.consEqualities = [])
    (hRelevant : buildRelevantSet smp.dagEncoding (s.frames[0]?.getD ∅) (s.frames[1]?.getD ∅) =
      some relevant)
    (hAllRelevant : ∀ t, t ≠ constantCoefficient → Mentions N t → t ∈ relevant)
    (hFixed : ∀ t, Mentions s.lconst t → t = constantCoefficient ∨ t ∈ smp.forbidden)
    (hFlag : ¬ smp.flagS = true) :
    ∃ s' N', Settles (fun fuel => linearSubstitutions n order fuel smp s) s' ∧
      Staged p order smp.forbidden (smp.Consistent p) (smp.circuit iters) (nonLinears iters) s' N' ∧
      s'.consEqualities = [] ∧ s'.linear = [] := by
  have hRed := hStaged.remains.reduced
  simp only [List.forall_mem_append] at hRed
  obtain ⟨-, hRedLinear, hRedConst, hRedN⟩ := hRed
  have hRemains := hStaged.remains
  rw [hDone, List.nil_append] at hRemains
  have hBound : ∀ c ∈ s.linear, ∀ t, c.Occurs t → t < smp.maxSignal := by
    intro c hc t ht
    rcases hRemains.gone t (mentions_append.mpr (.inl ⟨c, hc, ht⟩)) with rfl | ⟨hOld, -⟩
    · exact h.positive
    · exact h.bound t hOld
  obtain ⟨subs, cons, hSettles, hSplits⟩ :=
    linearSimplification_spec hLaw order h.zero hStaged.linear smp.maxSignal hBound
      smp.flagOldHeuristics
  let full := buildEncodedFastSubstitutions subs
  let only : SEncoded :=
    buildEncodedFastSubstitutions (subs.filter fun sub => sub.from_ ∈ relevant)
  have hRes := hSplits.resolves h.zero (smp.Consistent p)
  obtain ⟨hRestricts, hEnough⟩ := hSplits.restricts_filter relevant
  have hUsed : ∀ t, Mentions N t → t ∈ full → t ∈ only := by
    intro t ht hIn
    refine hEnough t hIn (hAllRelevant t ?_ ht)
    rintro rfl
    exact hRes.closed.constant hIn
  obtain ⟨N', hFrames', hAllN, -⟩ := exists_frame order
    hStaged.frames hRes.closed hRestricts hUsed hRedN
  obtain ⟨lconst, hConst, hAllConst⟩ := exists_mapM_substituteAndFix (R := s.lconst ++ cons)
    order (hRestricts.closed hRes.closed)
    (List.forall_mem_append.mpr ⟨hRedConst, hSplits.reduced⟩)
  have hFixedAll : ∀ t, Mentions (s.lconst ++ cons) t →
      t = constantCoefficient ∨ t ∈ smp.forbidden := by
    intro t ht
    rcases mentions_append.mp ht with hIn | hIn
    · exact hFixed t hIn
    · exact (hSplits.left t hIn).imp_right And.left
  have hSubConst : List.Forall₂ (Substituted p full) (s.lconst ++ cons) lconst :=
    hRes.forall₂_restricted hRestricts hFixedAll (hAllConst.imp fun _ _ hBoth => hBoth.1)
  have hPerm : ((s.lconst ++ cons) ++ N).Perm (cons ++ (s.lconst ++ N)) := by
    rw [← List.append_assoc]
    exact List.perm_append_comm.append_right N
  have hNext := hRemains.resolve h.zero hRes
    ((hRes.putToUse (List.rel_append hSubConst hAllN)).perm hPerm)
  have hDeleted : {k | k ∈ s.deleted.insertMany (subs.map Substitution.from_)} =
      {k | k ∈ s.deleted} ∪ {k | k ∈ full} := by
    ext k
    show k ∈ s.deleted.insertMany (subs.map Substitution.from_) ↔ k ∈ s.deleted ∨ k ∈ full
    rw [mem_insertMany_set, (encodes_build subs).keys, List.mem_map]
    rfl
  refine ⟨⟨[], s.consEqualities, lconst, s.deleted.insertMany (subs.map Substitution.from_),
    s.frames ++ [only]⟩, N', ?_, ⟨?_, by simp, hFrames'⟩, hDone, rfl⟩
  · refine (hSettles.bind (k := fun _ result =>
      ((s.lconst ++ result.2).mapM (substituteAndFix order (buildEncodedFastSubstitutions
        (result.1.filter fun sub => sub.from_ ∈ relevant)) smp.field)).bind fun lconst =>
      some (Solved.mk [] s.consEqualities lconst
        (s.deleted.insertMany (result.1.map Substitution.from_))
        (s.frames ++ [buildEncodedFastSubstitutions
          (result.1.filter fun sub => sub.from_ ∈ relevant)])))
      (settles_of_eq fun _ => ?_)).congr fun fuel => ?_
    · rw [h.field, hConst]
      rfl
    · have hNot : (!smp.flagS) = true := by simpa using hFlag
      rw [linearSubstitutions, hRelevant, h.field, Option.bind_eq_bind, Option.bind_some, hNot]
      rfl
  · rw [hDone]
    show Remains p smp.forbidden _ _ ([] ++ ([] ++ (lconst ++ N')))
      {k | k ∈ s.deleted.insertMany (subs.map Substitution.from_)}
    rw [hDeleted]
    exact hNext

/-- The block of the linear constraints. -/
theorem linearSubstitutions_spec (h : smp.Formed p order iters) (hLaw : n.Lawful)
    (hStaged : Staged p order smp.forbidden (smp.Consistent p) (smp.circuit iters)
      (nonLinears iters) s N)
    (hDone : s.consEqualities = []) (hFrames : s.frames = [part, enc])
    (hFollows : Follows part (nonLinears iters) N) (hGone : ∀ t, Mentions N t → t ∉ enc)
    (hFixed : ∀ t, Mentions s.lconst t → t = constantCoefficient ∨ t ∈ smp.forbidden) :
    ∃ s' N', Settles (fun fuel => linearSubstitutions n order fuel smp s) s' ∧
      Staged p order smp.forbidden (smp.Consistent p) (smp.circuit iters) (nonLinears iters) s' N' ∧
      s'.consEqualities = [] ∧ s'.linear = [] := by
  obtain ⟨relevant, hBuilt, hMem⟩ := buildRelevantSet_spec h.unfolds part enc
  have hRelevant : buildRelevantSet smp.dagEncoding (s.frames[0]?.getD ∅) (s.frames[1]?.getD ∅) =
      some relevant := by
    rw [hFrames]
    exact hBuilt
  by_cases hFlag : smp.flagS = true
  · exact linearSubstitutions_unsolved h hStaged hDone hRelevant hFlag
  · refine linearSubstitutions_solved h hLaw hStaged hDone hRelevant ?_ hFixed hFlag
    intro t hne ht
    exact (hMem t).mpr ⟨hGone t ht, (hFollows t ht).resolve_left hne⟩

end Linear

end Ganc.Circom
