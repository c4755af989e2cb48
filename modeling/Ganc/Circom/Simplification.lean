import Ganc.Circom.Solving
import Ganc.Circom.Witness

/-!
# circom — the simplification of a circuit is exact

All of `simplification`, from the circuit as it is compiled to the constraints
and the numbers of the witness. What is stored at the end is what remains of
the circuit when the deleted signals are eliminated (`simplification_exact`):
it is the projection of the circuit to the other signals, and every solution of
it extends to the deleted ones in exactly one way. Only a circuit whose
equalities contradict each other may have solutions afterwards
(`simplification_contradictory`).
-/

set_option linter.unusedSectionVars false

namespace Ganc.Circom

open Elimination Fuel ConstraintStorage

variable {p : Nat} [Fact p.Prime] {bytes : SignedBytes} {order : HashOrder}
variable {n : BigNumbers} {smp : Simplifier} {iters : List EncodingIterator}
variable {N₀ N cs : List (Constraint Nat)} {storage : ConstraintStorage}

-- ---------------------------------------------------------------------------
-- The constraints that are not linear
-- ---------------------------------------------------------------------------

/-- The loop stores every constraint that stays and lists those that are linear now. -/
theorem foldlM_obtainNonLinear (hBytes : bytes.Lawful) {frames : List SEncoded}
    (hAll : List.Forall₂ (fun c c' => simplifyNonLinear order frames p c = some c') N₀ N)
    (hRep : Represents bytes storage cs) (linear : List (Constraint Nat)) :
    ∃ storage', N₀.foldlM (obtainNonLinear bytes order frames p) (storage, linear) =
        some (storage', linear ++ N.filter Constraint.isLinear) ∧
      Represents bytes storage' (cs ++ N.filter fun c => !c.isLinear) := by
  induction hAll generalizing storage cs linear with
  | nil => exact ⟨storage, by simp, by simpa using hRep⟩
  | @cons c c' N₀ N hFirst _ ih =>
    rw [List.foldlM_cons, obtainNonLinear, hFirst]
    by_cases hLinear : c'.isLinear = true
    · obtain ⟨storage', hOk, hRep'⟩ := ih hRep (linear ++ [c'])
      refine ⟨storage', ?_, ?_⟩
      · simp only [Option.bind_eq_bind, Option.bind_some, hLinear, if_true, Option.pure_def]
        rw [hOk, List.filter_cons_of_pos hLinear, List.append_assoc, List.singleton_append]
      · rwa [List.filter_cons_of_neg (by simp [hLinear])]
    · obtain ⟨storage', hOk, hRep'⟩ := ih (hRep.addConstraint hBytes order c').2 linear
      refine ⟨storage', ?_, ?_⟩
      · simp only [Option.bind_eq_bind, Option.bind_some, hLinear, if_false, Option.pure_def,
          Bool.false_eq_true]
        rw [hOk, List.filter_cons_of_neg hLinear]
      · rwa [List.filter_cons_of_pos (by simp [hLinear]), ← List.singleton_append,
          ← List.append_assoc]

/-- The walk over the encoding is a loop over its constraints. -/
theorem obtainAndSimplifyNonLinear_eq {encoding : DAGEncoding} (h : Unfolds encoding iters)
    (frames : List SEncoded) :
    obtainAndSimplifyNonLinear bytes order encoding frames p =
      (nonLinears iters).foldlM (obtainNonLinear bytes order frames p)
        (ConstraintStorage.new, []) := by
  have hFold : ∀ (its : List EncodingIterator) (s : ConstraintStorage × List (Constraint Nat)),
      its.foldlM (obtainNonLinears bytes order frames p) s =
        (nonLinears its).foldlM (obtainNonLinear bytes order frames p) s := by
    intro its
    induction its with
    | nil => exact fun _ => rfl
    | cons it its ih =>
      intro s
      rw [List.foldlM_cons, nonLinears, List.flatMap_cons, List.foldlM_append, obtainNonLinears]
      exact congrArg _ (funext ih)
  exact (h.visit _ _).trans (hFold iters _)

/-- Constraints that have been fixed say the same, and those that are linear are in normal form. -/
structure Fixed (p : Nat) (c c' : Constraint Nat) : Prop where
  holds : ∀ w : Nat → ZMod p, w constantCoefficient = 1 → (c'.Holds w ↔ c.Holds w)
  occurs : ∀ t, c'.Occurs t → t = constantCoefficient ∨ c.Occurs t
  reduced : c'.c.Reduced p
  linear : c'.isLinear = true → c'.Linear p

/-- A reduced constraint can be fixed. -/
theorem exists_fixConstraint {c : Constraint Nat} (hRed : c.c.Reduced p) :
    ∃ c', c.fixConstraint p = some c' ∧ Fixed p c c' := by
  obtain ⟨c', hFix, hRewrites, hRed', hLinear⟩ :=
    Constraint.fixConstraint_spec (R := ZMod p) ModularArithmetic.cast_field field_pos hRed
  exact ⟨c', hFix, hRewrites.holds, hRewrites.occurs, hRed', hLinear⟩

/-- Fixing brings in no signal. -/
theorem fixed_mentions {R R' : List (Constraint Nat)} (h : List.Forall₂ (Fixed p) R R') {t : Nat}
    (ht : Mentions R' t) : t = constantCoefficient ∨ Mentions R t := by
  obtain ⟨c', hc', ht⟩ := ht
  obtain ⟨c, hc, hFixed⟩ := exists_item h hc'
  exact (hFixed.occurs t ht).imp_right fun hOld => ⟨c, hc, hOld⟩

/-- Fixing changes nothing that is said. -/
theorem fixed_holds {R R' : List (Constraint Nat)} (h : List.Forall₂ (Fixed p) R R')
    {w : Nat → ZMod p} (hOne : w constantCoefficient = 1) :
    (∀ c ∈ R, c.Holds w) ↔ ∀ c ∈ R', c.Holds w := by
  constructor
  · intro hAll c' hc'
    obtain ⟨c, hc, hFixed⟩ := exists_item h hc'
    exact (hFixed.holds w hOne).mpr (hAll c hc)
  · intro hAll c hc
    obtain ⟨c', hc', hFixed⟩ := exists_result h hc
    exact (hFixed.holds w hOne).mp (hAll c' hc')

/-- What remains may be fixed. -/
theorem Remains.fix {T₀ T N N' : List (Constraint Nat)} {removed : Set Nat} {consistent : Prop}
    {forbidden : SignalSet Nat} (h : Remains p forbidden consistent T₀ (T ++ N) removed)
    (hFixed : List.Forall₂ (Fixed p) N N') :
    Remains p forbidden consistent T₀ (T ++ N') removed := by
  refine h.congr ?_ ?_ ?_
  · refine List.forall_mem_append.mpr ⟨(List.forall_mem_append.mp h.reduced).1, ?_⟩
    intro c' hc'
    obtain ⟨c, -, hFix⟩ := exists_item hFixed hc'
    exact hFix.reduced
  · intro t ht
    rw [mentions_append] at ht ⊢
    rcases ht with hIn | hIn
    · exact .inr (.inl hIn)
    · exact (fixed_mentions hFixed hIn).imp_right .inr
  · intro w hOne
    rw [List.forall_mem_append, List.forall_mem_append, fixed_holds hFixed hOne]

-- ---------------------------------------------------------------------------
-- Before the rounds
-- ---------------------------------------------------------------------------

/-- The blocks, one after the other, and the pass over the constraints that are not linear. -/
theorem exists_rounding (h : smp.Formed p order iters) (hLaw : n.Lawful) (hBytes : bytes.Lawful) :
    ∃ s₁ s₂ s₃ storage withLinear map cs,
      Settles (fun fuel => singleSubstitutions order fuel smp) s₁ ∧
      consSubstitutions n order smp s₁ = some s₂ ∧
      Settles (fun fuel => linearSubstitutions n order fuel smp s₂) s₃ ∧
      obtainAndSimplifyNonLinear bytes order smp.dagEncoding s₃.frames smp.field =
        some (storage, withLinear) ∧
      buildNonLinearSignalMap bytes storage = some map ∧
      Rounding p smp.forbidden (smp.Consistent p) bytes (smp.circuit iters)
        ⟨withLinear, storage, map, s₃.lconst, s₃.deleted⟩ cs := by
  obtain ⟨s₁, N₁, part, hSingle, hStaged₁, hFrames₁, hFollows₁, hFixed₁, hPins, hConsistent⟩ :=
    singleSubstitutions_spec h
  obtain ⟨s₂, N₂, enc, hCons, hStaged₂, hDone₂, hFrames₂, hFollows₂, hGone₂, hFixed₂⟩ :=
    consSubstitutions_spec h hLaw hStaged₁ hFrames₁ hFollows₁ hFixed₁ hPins hConsistent
  obtain ⟨s₃, N₃, hLinear, hStaged₃, hDone₃, hNone₃⟩ :=
    linearSubstitutions_spec h hLaw hStaged₂ hDone₂ hFrames₂ hFollows₂ hGone₂ hFixed₂
  have hRemains := hStaged₃.remains
  rw [hDone₃, hNone₃, List.nil_append, List.nil_append] at hRemains
  have hRed := List.forall_mem_append.mp hRemains.reduced
  obtain ⟨N, -, hFixed⟩ := exists_mapM (fun c : Constraint Nat => c.fixConstraint p)
    (fun c c' => c.fixConstraint p = some c' ∧ Fixed p c c') N₃ (by
      intro c hc
      obtain ⟨c', hFix, hFixed⟩ := exists_fixConstraint (hRed.2 c hc)
      exact ⟨c', hFix, hFix, hFixed⟩)
  have hAllFixed : List.Forall₂ (Fixed p) N₃ N := hFixed.imp fun _ _ hBoth => hBoth.2
  have hFrames : List.Forall₂ (fun c c' => simplifyNonLinear order s₃.frames p c = some c')
      (nonLinears iters) N := by
    refine (forall₂_comp hStaged₃.frames hFixed).imp ?_
    rintro c c'' ⟨c', hFirst, hLast, -⟩
    rw [simplifyNonLinear, hFirst, Option.bind_eq_bind, Option.bind_some, hLast]
  obtain ⟨storage, hObtain, hRep⟩ := foldlM_obtainNonLinear hBytes hFrames represents_new []
  rw [List.nil_append] at hObtain hRep
  obtain ⟨map, hMap, hIndexed⟩ := buildNonLinearSignalMap_spec hRep
  refine ⟨s₁, s₂, s₃, storage, N.filter Constraint.isLinear, map, N.filter fun c => !c.isLinear,
    hSingle, hCons, hLinear, ?_, hMap, hRep, hIndexed, ?_, ?_⟩
  · rw [h.field, obtainAndSimplifyNonLinear_eq h.unfolds, hObtain]
  · intro c hc
    obtain ⟨hIn, hIsLinear⟩ := List.mem_filter.mp hc
    obtain ⟨c₀, -, hFixed⟩ := exists_item hAllFixed hIn
    exact hFixed.linear hIsLinear
  · refine (hRemains.fix hAllFixed).perm ?_
    rw [← List.append_assoc]
    exact List.perm_append_comm.trans
      ((List.filter_append_perm _ N).symm.append_right s₃.lconst)

-- ---------------------------------------------------------------------------
-- After the rounds
-- ---------------------------------------------------------------------------

/-- What is left is stored and indexed with the others. -/
theorem foldl_storeConstraint (hBytes : bytes.Lawful) (order : HashOrder)
    {map : SignalToConstraints} (hRep : Represents bytes storage cs) (hIndexed : Indexed map cs)
    (rest : List (Constraint Nat)) :
    Represents bytes (rest.foldl (storeConstraint bytes order) (storage, map)).1 (cs ++ rest) ∧
      Indexed (rest.foldl (storeConstraint bytes order) (storage, map)).2 (cs ++ rest) := by
  induction rest generalizing storage map cs with
  | nil =>
    rw [List.append_nil]
    exact ⟨hRep, hIndexed⟩
  | cons c rest ih =>
    obtain ⟨hId, hNext⟩ := hRep.addConstraint hBytes order c
    have hStore : storeConstraint bytes order (storage, map) c =
        ((storage.addConstraint bytes order c).2, indexConstraint cs.length c map) := by
      rw [← hId]
      rfl
    rw [List.foldl_cons, hStore, ← List.singleton_append, ← List.append_assoc]
    exact ih hNext (hIndexed.append c)

/-- A signal that is mentioned is in the map. -/
theorem Indexed.mem {map : SignalToConstraints} (h : Indexed map cs) {t : Nat}
    (hne : t ≠ constantCoefficient) (ht : Mentions cs t) : t ∈ map := by
  obtain ⟨c, hc, hOccurs⟩ := ht
  obtain ⟨id, hAt⟩ := List.getElem?_of_mem hc
  have hId := h.covers id c hAt t hne hOccurs
  by_contra hNot
  rw [idsOf, Store.notMem_iff.mp hNot] at hId
  exact List.not_mem_nil hId

/-- Constraints that say nothing are not needed. -/
theorem Remains.dropEmpty {T₀ T : List (Constraint Nat)} {removed : Set Nat} {consistent : Prop}
    {forbidden : SignalSet Nat} (h : Remains p forbidden consistent T₀ T removed) :
    Remains p forbidden consistent T₀ (T.filter fun c => !c.isEmpty) removed := by
  refine h.congr (fun c hc => h.reduced c (List.mem_of_mem_filter hc)) ?_ ?_
  · rintro t ⟨c, hc, ht⟩
    exact .inr ⟨c, List.mem_of_mem_filter hc, ht⟩
  · intro w _
    refine ⟨fun hAll c hc => hAll c (List.mem_of_mem_filter hc), fun hAll c hc => ?_⟩
    by_cases hEmpty : c.isEmpty = true
    · exact Constraint.holds_of_isEmpty hEmpty
    · exact hAll c (List.mem_filter.mpr ⟨hc, by simpa using hEmpty⟩)

-- ---------------------------------------------------------------------------
-- Inputs
-- ---------------------------------------------------------------------------

/-- The private inputs. -/
def Simplifier.privateInputs (smp : Simplifier) : List Nat :=
  List.range' (smp.noPublicOutputs + smp.noPublicInputs + 1) smp.noPrivateInputs

/-- The private inputs that are deleted and those that have a number are all private inputs. -/
theorem deletedInputs_add (h : smp.Formed p order iters) (deleted : SignalSet Nat)
    (signalMap : SignalMap) (hForbidden : ∀ t ∈ smp.forbidden, t < smp.maxSignal → t ∉ deleted)
    (hNumbered : ∀ t < smp.maxSignal, t ∈ signalMap ↔ t ∉ deleted) :
    (deleted.toList.filter (isDeletedInput smp)).length +
      (smp.privateInputs.filter fun t => t ∈ signalMap).length = smp.noPrivateInputs := by
  have hInputs := h.inputs
  have hMem : ∀ t, t ∈ smp.privateInputs ↔ smp.noPublicOutputs + smp.noPublicInputs < t ∧
      t ≤ smp.noPublicOutputs + smp.noPublicInputs + smp.noPrivateInputs := by
    intro t
    rw [Simplifier.privateInputs, List.mem_range'_1]
    omega
  have hNodup : smp.privateInputs.Nodup := List.nodup_range'
  have hPerm : (deleted.toList.filter (isDeletedInput smp)).Perm
      (smp.privateInputs.filter fun t => !decide (t ∈ signalMap)) := by
    refine (List.perm_ext_iff_of_nodup ((nodup_toList deleted).filter _)
      (hNodup.filter _)).mpr ?_
    intro t
    rw [List.mem_filter, List.mem_filter, Std.ExtTreeSet.mem_toList, hMem, isDeletedInput,
      decide_eq_true_eq, Bool.not_eq_true', decide_eq_false_iff_not]
    constructor
    · rintro ⟨hDeleted, hLow, hHigh⟩
      have hLess : t < smp.maxSignal := by omega
      have hPrivate : smp.noPublicOutputs + smp.noPublicInputs < t := by
        by_contra hNot
        exact hForbidden t (h.publics t (by omega)) hLess hDeleted
      exact ⟨⟨hPrivate, hHigh⟩, fun hIn => (hNumbered t hLess).mp hIn hDeleted⟩
    · rintro ⟨⟨hLow, hHigh⟩, hNot⟩
      have hLess : t < smp.maxSignal := by omega
      refine ⟨?_, by omega, hHigh⟩
      by_contra hOut
      exact hNot ((hNumbered t hLess).mpr hOut)
  have hSplit := List.length_eq_length_filter_add (fun t => decide (t ∈ signalMap))
    (l := smp.privateInputs)
  rw [hPerm.length_eq, add_comm, ← hSplit, Simplifier.privateInputs, List.length_range']

-- ---------------------------------------------------------------------------
-- The simplification
-- ---------------------------------------------------------------------------

/-- What `simplification` answers. The constraints are what remains of the circuit when the
signals in `removed` are eliminated, and none is empty. The signals that are forbidden and those
that are mentioned have a number, those that are removed have none; `inputs` counts the private
inputs that have one. -/
structure Simplifier.Answer (p : Nat) (smp : Simplifier) (iters : List EncodingIterator)
    (signalMap : SignalMap) (inputs : Nat) (constraints : List (Constraint Nat))
    (removed : Set Nat) : Prop where
  remains : Remains p smp.forbidden (smp.Consistent p) (smp.circuit iters) constraints removed
  nonempty : ∀ c ∈ constraints, c.isEmpty = false
  mentioned : ∀ t, Mentions constraints t → t ∈ signalMap
  kept : ∀ t < smp.maxSignal, t ∈ smp.forbidden → t ∈ signalMap
  dropped : ∀ t ∈ removed, t ∉ signalMap
  inputs : inputs = (smp.privateInputs.filter fun t => t ∈ signalMap).length

/-- It ends with such an answer. -/
theorem exists_answer (h : smp.Formed p order iters) (hLaw : n.Lawful)
    (hBytes : bytes.Lawful) :
    ∃ storage signalMap inputs constraints removed,
      Settles (fun fuel => simplification n bytes order fuel smp) (storage, signalMap, inputs) ∧
      Represents bytes storage constraints ∧
      smp.Answer p iters signalMap inputs constraints removed := by
  obtain ⟨s₁, s₂, s₃, storage, withLinear, map, cs, hSingle, hCons, hLinear, hObtain, hMap,
    hRounding⟩ := exists_rounding h hLaw hBytes
  obtain ⟨r, cs', hRounds, hAfter⟩ := hRounding.applyRounds hLaw hBytes order h.field h.zero
    h.positive h.bound (if smp.flagS then 0 else smp.noRounds - 1)
  have hRemains := hAfter.remains
  rw [← List.append_assoc] at hRemains
  obtain ⟨lconst, hLconst, hAllFixed⟩ := exists_mapM
    (fun c : Constraint Nat => c.fixConstraint p) (Fixed p) r.lconst
    fun c hc => exists_fixConstraint (hRemains.reduced c (List.mem_append_right _ hc))
  have hFixed : Remains p smp.forbidden (smp.Consistent p) (smp.circuit iters)
      (cs' ++ (r.linear ++ lconst)) {k | k ∈ r.deleted} := by
    refine (hRemains.fix hAllFixed).perm ?_
    rw [← List.append_assoc]
    exact List.perm_append_comm.append_right lconst
  obtain ⟨hRep, hIndexed⟩ := foldl_storeConstraint hBytes order hAfter.represents hAfter.indexed
    (r.linear ++ lconst)
  obtain ⟨storage', hExtract, -, hRep'⟩ := hRep.extractWith Constraint.isEmpty
  -- the numbers
  let map' := ((r.linear ++ lconst).foldl (storeConstraint bytes order)
    (r.storage, r.nonLinearMap)).2
  let rebuilt := rebuildWitness smp.maxSignal r.deleted smp.forbidden map' true
  obtain ⟨-, hDeleted⟩ :=
    rebuildWitness_rebuilt smp.maxSignal r.deleted smp.forbidden map' true
  have hMem := mem_rebuildWitness smp.maxSignal r.deleted smp.forbidden map' true
  have hForbidden : ∀ t ∈ smp.forbidden, IsKept r.deleted smp.forbidden map' true t :=
    fun t ht => ⟨fun hIn => (hFixed.free t hIn).1 ht, fun hUnused => hUnused.2.1 ht⟩
  have hCount := deletedInputs_add h rebuilt.2 rebuilt.1
    (by
      intro t ht hLess hIn
      exact ((hDeleted t).mp hIn).elim (hForbidden t ht).1 fun hNot => hNot.2 (hForbidden t ht))
    (by
      intro t hLess
      rw [hMem, hDeleted, and_iff_right hLess, and_iff_right hLess, not_or, not_not]
      exact ⟨fun hKept => ⟨hKept.1, hKept⟩, fun hBoth => hBoth.2⟩)
  refine ⟨storage', rebuilt.1, (smp.privateInputs.filter fun t => t ∈ rebuilt.1).length, _,
    {k | k ∈ r.deleted}, ?_, hRep', hFixed.dropEmpty, ?_, ?_, ?_, ?_, rfl⟩
  · filter_upwards [hSingle, hLinear, hRounds] with fuel hFirst hSecond hThird
    have hEnough : (rebuilt.2.toList.filter (isDeletedInput smp)).length ≤ smp.noPrivateInputs :=
      hCount ▸ Nat.le_add_right _ _
    have hRest : smp.noPrivateInputs - (rebuilt.2.toList.filter (isDeletedInput smp)).length =
        (smp.privateInputs.filter fun t => t ∈ rebuilt.1).length := by omega
    rw [← h.field] at hLconst
    rw [simplification, hFirst, Option.bind_eq_bind, Option.bind_some, hCons]
    simp only [Option.bind_eq_bind, Option.bind_some, hSecond, hObtain, hMap, hThird, hLconst]
    rw [hExtract]
    simp only [Option.bind_some]
    rw [if_pos hEnough, hRest]
    rfl
  · intro c hc
    simpa using (List.mem_filter.mp hc).2
  · rintro t ⟨c, hc, ht⟩
    have hIn : Mentions (cs' ++ (r.linear ++ lconst)) t := ⟨c, List.mem_of_mem_filter hc, ht⟩
    rw [hMem]
    rcases hFixed.gone t hIn with rfl | ⟨hOld, hNot⟩
    · exact ⟨h.positive, hForbidden _ h.zero⟩
    · by_cases hne : t = constantCoefficient
      · exact hne ▸ ⟨h.positive, hForbidden _ h.zero⟩
      · exact ⟨h.bound t hOld, hNot, fun hUnused => hUnused.2.2 (hIndexed.mem hne hIn)⟩
  · intro t hLess ht
    exact (hMem t).mpr ⟨hLess, hForbidden t ht⟩
  · intro t hIn hNumbered
    exact ((hMem t).mp hNumbered).2.1 hIn

/-- **The simplification of a circuit is exact.** For every circuit whose linear constraints are
sorted by their kinds, it ends, under both heuristics, with any number of rounds and whatever
order hash maps are gone through. No solution is lost; and unless the equalities with one signal
contradict each other or those with two, every solution of what is stored extends to the
signals that are removed in exactly one way. -/
theorem simplification_exact (h : smp.Formed p order iters) (hLaw : n.Lawful)
    (hBytes : bytes.Lawful) :
    ∃ storage signalMap inputs constraints removed,
      Settles (fun fuel => simplification n bytes order fuel smp) (storage, signalMap, inputs) ∧
      Represents bytes storage constraints ∧
      smp.Answer p iters signalMap inputs constraints removed ∧
      (smp.Consistent p → ∀ w ∈ solutions p constraints,
        ∃! v, v ∈ solutions p (smp.circuit iters) ∧ Set.EqOn v w removedᶜ) := by
  obtain ⟨storage, signalMap, inputs, constraints, removed, hSettles, hRep, hAnswer⟩ :=
    exists_answer h hLaw hBytes
  exact ⟨storage, signalMap, inputs, constraints, removed, hSettles, hRep, hAnswer,
    fun hYes w hw => (hAnswer.remains.eliminates hYes).existsUnique hw⟩

-- ---------------------------------------------------------------------------
-- A small circuit
-- ---------------------------------------------------------------------------

namespace Sample

/-- `x₆ * x₃ = x₄` -/
def product : Constraint Nat :=
  ⟨.ofList [(6, 1)] compare, .ofList [(3, 1)] compare, .ofList [(4, 1)] compare⟩

/-- `x₁ = x₄`, `x₅ = 3` and `x₆ = x₂ + x₅`: the output is `(x₂ + 3) * x₃`. -/
def simplifier : Simplifier where
  field := (13 : Nat)
  dagEncoding := ⟨0, [⟨[product]⟩], [[]]⟩
  noPublicInputs := 0
  noPublicOutputs := 1
  noPrivateInputs := 2
  forbidden := .ofList [0, 1] compare
  consEqualities := [⟨∅, ∅, .ofList [(0, 10), (5, 1)] compare⟩]
  equalities := [⟨∅, ∅, .ofList [(1, 1), (4, 12)] compare⟩]
  linear := [⟨∅, ∅, .ofList [(2, 1), (5, 1), (6, 12)] compare⟩]
  maxSignal := 7
  noRounds := 2
  flagS := false
  flagOldHeuristics := false

/-- The sample is well formed. -/
theorem simplifier_formed :
    simplifier.Formed 13 ⟨List.reverse, List.reverse_perm⟩ [⟨0, 0, [product.applyOffset 0]⟩] where
  field := rfl
  unfolds := ⟨_, rfl, rfl⟩
  equalities := by
    simp only [simplifier, List.forall_mem_singleton]
    exact ⟨Constraint.linear_of_toList (by decide +kernel), by decide +kernel⟩
  consEqualities := by
    simp only [simplifier, List.forall_mem_singleton]
    exact ⟨Constraint.linear_of_toList (by decide +kernel), by decide +kernel⟩
  linear := by
    simp only [simplifier, List.forall_mem_singleton]
    exact Constraint.linear_of_toList (by decide +kernel)
  reduced := by
    simp only [nonLinears, List.flatMap_cons, List.flatMap_nil, List.append_nil,
      List.forall_mem_singleton, Constraint.applyOffset_zero]
    exact (Constraint.linear_of_toList (by decide +kernel)).toReduced
  publics := by decide +kernel
  inputs := by decide
  bound := by
    have hKeys : ∀ c ∈ simplifier.circuit [⟨0, 0, [product.applyOffset 0]⟩],
        ∀ t ∈ c.a.keys ++ (c.b.keys ++ c.c.keys), t < 7 := by decide +kernel
    rintro t ⟨c, hc, ht⟩
    have hIn : t ∈ c.a ∨ t ∈ c.b ∨ t ∈ c.c := ht
    refine hKeys c hc t ?_
    simpa only [List.mem_append, Std.ExtTreeMap.mem_keys] using hIn

end Sample

section Sample

open Sample

theorem simplification_exact_sample :
    ∃ storage signalMap inputs constraints removed,
      Settles (fun fuel => simplification bigNumbers signedBytes
        ⟨List.reverse, List.reverse_perm⟩ fuel simplifier) (storage, signalMap, inputs) ∧
      Represents signedBytes storage constraints ∧
      simplifier.Answer 13 [⟨0, 0, [product.applyOffset 0]⟩] signalMap inputs constraints removed ∧
      (simplifier.Consistent 13 → ∀ w ∈ solutions 13 constraints,
        ∃! v, v ∈ solutions 13 (simplifier.circuit [⟨0, 0, [product.applyOffset 0]⟩]) ∧
          Set.EqOn v w removedᶜ) :=
  simplification_exact simplifier_formed lawful signedBytes_lawful

end Sample

namespace Sample

/-- `x₂ = 1` and `x₂ = 2`. -/
def contradictory : Simplifier where
  field := (13 : Nat)
  dagEncoding := ⟨0, [⟨[]⟩], [[]]⟩
  noPublicInputs := 0
  noPublicOutputs := 1
  noPrivateInputs := 1
  forbidden := .ofList [0, 1] compare
  consEqualities :=
    [⟨∅, ∅, .ofList [(0, 12), (2, 1)] compare⟩, ⟨∅, ∅, .ofList [(0, 11), (2, 1)] compare⟩]
  equalities := []
  linear := []
  maxSignal := 3
  noRounds := 2
  flagS := false
  flagOldHeuristics := false

/-- The contradictory sample has no solution. -/
theorem contradictory_unsolved : solutions 13 (contradictory.circuit [⟨0, 0, []⟩]) = ∅ := by
  refine Set.eq_empty_of_forall_notMem ?_
  rintro w ⟨hOne, hAll⟩
  have hValue : ∀ (value : Int) (c : Coefficients Nat), c.toList = [(0, value), (2, 1)] →
      (⟨∅, ∅, c⟩ : Constraint Nat) ∈ contradictory.circuit [⟨0, 0, []⟩] →
      (value : ZMod 13) + w 2 = 0 := by
    intro value c hList hIn
    have hHolds := hAll _ hIn
    rw [Constraint.Holds, Coefficients.eval_empty, zero_mul] at hHolds
    rw [hHolds, Coefficients.eval, Store.total, hList]
    have hZero : w 0 = 1 := hOne
    simp [hZero]
  have hFirst := hValue 12 _ (by decide +kernel) List.mem_cons_self
  have hSecond := hValue 11 _ (by decide +kernel) (List.mem_cons_of_mem _ List.mem_cons_self)
  have hSame : ((12 : Int) : ZMod 13) = (11 : Int) :=
    add_right_cancel (hFirst.trans hSecond.symm)
  exact absurd hSame (by decide)

end Sample

open Sample in
/-- Why the equalities must not contradict each other: a signal is given one of its constants,
whatever the other one is, and of `x₂ = 1` and `x₂ = 2` nothing is left. -/
theorem simplification_contradictory :
    solutions 13 (contradictory.circuit [⟨0, 0, []⟩]) = ∅ ∧
      ∃ storage signalMap inputs, simplification bigNumbers signedBytes
          ⟨List.reverse, List.reverse_perm⟩ 1 contradictory = some (storage, signalMap, inputs) ∧
        Represents signedBytes storage [] := by
  have hLength : (simplification bigNumbers signedBytes ⟨List.reverse, List.reverse_perm⟩ 1
      contradictory).map (fun result => result.1.constraints.length) = some 0 := by
    decide +kernel
  obtain ⟨⟨storage, signalMap, inputs⟩, hOk, hNone⟩ := Option.map_eq_some_iff.mp hLength
  refine ⟨contradictory_unsolved, storage, signalMap, inputs, hOk, ?_⟩
  rw [Represents, List.length_eq_zero_iff.mp hNone]
  exact .nil

end Ganc.Circom
