import Ganc.Circom.Stages

/-!
# circom — the rounds of the simplification

The constraints that are not linear are in a storage, with a map from every
signal to the constraints it may be in. The map is an over-approximation that
never loses a constraint (`Indexed`): so a substitution that is applied to the
constraints listed for its signal leaves the signal in none of them, though
some are listed twice, and some have been taken out.

* `applySubstitutionToMap_spec` — the constraints in the storage, and those
  that have become linear;
* `applyRounds_spec` — all rounds keep `Remains`.
-/

set_option linter.unusedSectionVars false

namespace Ganc.Circom

open Elimination Fuel ConstraintStorage

variable {p : Nat} [Fact p.Prime] {forbidden : SignalSet Nat}
variable {bytes : SignedBytes} {map : SignalToConstraints} {cs cs₀ : List (Constraint Nat)}
variable {subs : List (Substitution Nat)}

-- ---------------------------------------------------------------------------
-- The index
-- ---------------------------------------------------------------------------

/-- The constraints listed for a signal. -/
def idsOf (map : SignalToConstraints) (t : Nat) : List Nat := map[t]?.getD []

/-- Every constraint is listed for its signals. -/
structure Indexed (map : SignalToConstraints) (cs : List (Constraint Nat)) : Prop where
  bound : ∀ t, ∀ id ∈ idsOf map t, id < cs.length
  covers : ∀ (id : Nat) (c : Constraint Nat), cs[id]? = some c →
    ∀ t, t ≠ constantCoefficient → c.Occurs t → id ∈ idsOf map t

/-- An id is pushed for one signal. -/
theorem idsOf_pushId (cId : Nat) (map : SignalToConstraints) (k t : Nat) :
    idsOf (pushId cId map k) t = if t = k then idsOf map k ++ [cId] else idsOf map t := by
  rw [idsOf, pushId, Store.get?_insert]
  split
  next => rfl
  next => rfl

/-- An id is pushed for each of the signals. -/
theorem mem_idsOf_foldl (cId : Nat) (signals : List Nat) (map : SignalToConstraints) (t id : Nat) :
    id ∈ idsOf (signals.foldl (pushId cId) map) t ↔
      id ∈ idsOf map t ∨ (t ∈ signals ∧ id = cId) := by
  induction signals generalizing map with
  | nil => simp
  | cons k signals ih =>
    rw [List.foldl_cons, ih, idsOf_pushId, List.mem_cons]
    split
    next hEq =>
      subst hEq
      rw [List.mem_append, List.mem_singleton]
      tauto
    next hne => simp [hne]

/-- One constraint is listed for some signals more. -/
theorem Indexed.foldl (h : Indexed map cs) {cId : Nat} (hId : cId < cs.length)
    (signals : List Nat) : Indexed (signals.foldl (pushId cId) map) cs := by
  refine ⟨?_, ?_⟩
  · intro t id hMem
    rcases (mem_idsOf_foldl cId signals map t id).mp hMem with hOld | ⟨-, rfl⟩
    · exact h.bound t id hOld
    · exact hId
  · exact fun id c hStored t hne ht =>
      (mem_idsOf_foldl cId signals map t id).mpr (.inl (h.covers id c hStored t hne ht))

/-- A constraint is replaced by one whose new signals have been listed. -/
theorem Indexed.set (h : Indexed map cs) {cId : Nat} {c c' : Constraint Nat}
    (hStored : cs[cId]? = some c)
    (hNew : ∀ t, t ≠ constantCoefficient → c'.Occurs t → c.Occurs t ∨ cId ∈ idsOf map t) :
    Indexed map (cs.set cId c') := by
  refine ⟨fun t id hMem => by rw [List.length_set]; exact h.bound t id hMem, ?_⟩
  intro id c₁ hAt t hne ht
  rw [List.getElem?_set] at hAt
  split at hAt
  next hEq =>
    subst hEq
    rw [if_pos (List.getElem?_eq_some_iff.mp hStored).1] at hAt
    obtain rfl := Option.some.inj hAt
    exact (hNew t hne ht).elim (h.covers cId c hStored t hne) id
  next => exact h.covers id c₁ hAt t hne ht

/-- A constraint is added at the end. -/
theorem Indexed.append (h : Indexed map cs) (c : Constraint Nat) :
    Indexed (indexConstraint cs.length c map) (cs ++ [c]) := by
  have hIds : ∀ t id, id ∈ idsOf (indexConstraint cs.length c map) t ↔
      id ∈ idsOf map t ∨ ((t ≠ constantCoefficient ∧ c.Occurs t) ∧ id = cs.length) := by
    intro t id
    rw [indexConstraint, mem_idsOf_foldl, Std.ExtTreeSet.mem_toList,
      Constraint.mem_takeClonedSignals]
  refine ⟨?_, ?_⟩
  · intro t id hMem
    rw [List.length_append, List.length_singleton]
    rcases (hIds t id).mp hMem with hOld | ⟨-, rfl⟩
    · exact Nat.lt_succ_of_lt (h.bound t id hOld)
    · exact Nat.lt_succ_self _
  · intro id c₁ hAt t hne ht
    rw [hIds]
    rw [List.getElem?_append] at hAt
    split at hAt
    next => exact .inl (h.covers id c₁ hAt t hne ht)
    next hMore =>
      obtain ⟨hLess, hEq⟩ := List.getElem?_eq_some_iff.mp hAt
      rw [List.length_singleton] at hLess
      rw [List.getElem_singleton] at hEq
      exact .inr ⟨⟨hne, hEq ▸ ht⟩, by omega⟩

/-- The map of a storage lists every constraint for every signal. -/
theorem buildNonLinearSignalMap_spec {storage : ConstraintStorage}
    (h : Represents bytes storage cs) :
    ∃ map, buildNonLinearSignalMap bytes storage = some map ∧ Indexed map cs := by
  obtain ⟨map, hOk, n, hList, hLe, hIndexed⟩ := exists_foldlM (indexStored bytes storage)
    (fun map rest => ∃ n, List.range cs.length = List.range n ++ rest ∧ n ≤ cs.length ∧
      Indexed map (cs.take n))
    ∅ (List.range cs.length) (by
      rintro map id rest ⟨n, hList, hLe, hIndexed⟩
      have hLength : n + (rest.length + 1) = cs.length := by
        simpa using (congrArg List.length hList).symm
      have hLess : n < cs.length := by omega
      obtain rfl : id = n := by
        have hAt := congrArg (fun ids : List Nat => ids[n]?) hList
        simpa [hLess] using hAt.symm
      refine ⟨indexConstraint id cs[id] map, ?_, id + 1, ?_, hLess, ?_⟩
      · simp only [indexStored, h.readConstraint, List.getElem?_eq_getElem hLess,
          Option.bind_eq_bind, Option.bind_some]
        rfl
      · rw [hList, List.range_succ, List.append_assoc, List.singleton_append]
      · have hNext := hIndexed.append cs[id]
        rwa [List.length_take_of_le hLess.le, List.take_append_getElem] at hNext)
    ⟨0, rfl, Nat.zero_le _, fun t id hMem => by simp [idsOf] at hMem,
      fun id c hAt => by simp at hAt⟩
  have hAll : cs.length = n := by simpa using congrArg List.length hList
  rw [← hAll, List.take_length] at hIndexed
  exact ⟨map, by rw [buildNonLinearSignalMap, h.getIds, hOk], hIndexed⟩

-- ---------------------------------------------------------------------------
-- One substitution
-- ---------------------------------------------------------------------------

/-- What is left of a constraint under some of the substitutions. -/
structure Under (p : Nat) (subs : List (Substitution Nat)) (c₀ c : Constraint Nat) : Prop where
  reduced : c.c.Reduced p
  holds : ∀ w : Nat → ZMod p, w constantCoefficient = 1 → (∀ s ∈ subs, s.Holds w) →
    (c.Holds w ↔ c₀.Holds w)
  occurs : ∀ t, c.Occurs t → t = constantCoefficient ∨ c₀.Occurs t ∨ ∃ s ∈ subs, t ∈ s.to_

variable {c₀ c : Constraint Nat} {s : Substitution Nat}

/-- One more substitution of the list. -/
theorem Under.applySubstitution (h : Under p subs c₀ c) (hs : s ∈ subs) :
    Under p subs c₀ (c.applySubstitution s p) where
  reduced := reduced_rawSubstitution field_pos h.reduced
  holds := fun w hOne hAll =>
    ((hAll s hs).constraint ModularArithmetic.cast_field).trans (h.holds w hOne hAll)
  occurs := by
    intro t ht
    rcases Constraint.occurs_applySubstitution ht with hEq | ⟨hOld, -⟩ | hTo
    · exact .inl hEq
    · exact h.occurs t hOld
    · exact .inr (.inr ⟨s, hs, hTo⟩)

/-- Fixing a constraint changes nothing that it says. -/
theorem Under.fixConstraint (h : Under p subs c₀ c) : ∃ c', c.fixConstraint p = some c' ∧
    Under p subs c₀ c' ∧ (∀ t, c'.Occurs t → t = constantCoefficient ∨ c.Occurs t) ∧
    (c'.isLinear = true → c'.Linear p) := by
  obtain ⟨c', hFix, hRewrites, hRed, hLinear⟩ :=
    Constraint.fixConstraint_spec (R := ZMod p) ModularArithmetic.cast_field field_pos h.reduced
  exact ⟨c', hFix, ⟨hRed, fun w hOne hAll => (hRewrites.holds w hOne).trans (h.holds w hOne hAll),
    fun t ht => (hRewrites.occurs t ht).elim .inl (h.occurs t)⟩, hRewrites.occurs, hLinear⟩

/-- The storage in the middle of a round, and what the constraints in it come from. -/
structure Working (p : Nat) (bytes : SignedBytes) (subs : List (Substitution Nat))
    (cs₀ : List (Constraint Nat)) (s : MapWork) (cs : List (Constraint Nat)) : Prop where
  represents : Represents bytes s.storage cs
  indexed : Indexed s.map cs
  under : List.Forall₂ (Under p subs) cs₀ cs
  linear : ∀ id ∈ s.linearId, ∃ c, cs[id]? = some c ∧ c.Linear p

/-- A constraint of the map is substituted into and stored again. -/
theorem Working.processId {work : MapWork} (h : Working p bytes subs cs₀ work cs)
    (hLaw : bytes.Lawful) (order : HashOrder) (hs : s ∈ subs)
    (hne : s.from_ ≠ constantCoefficient) {cId : Nat} (hId : cId < cs.length) :
    ∃ work' c', processId bytes order s p work cId = some work' ∧
      Working p bytes subs cs₀ work' (cs.set cId c') ∧
      (∀ t, c'.Occurs t →
        t = constantCoefficient ∨ (cs[cId].Occurs t ∧ t ≠ s.from_) ∨ t ∈ s.to_) := by
  have hStored : cs[cId]? = some cs[cId] := List.getElem?_eq_getElem hId
  obtain ⟨c₀, hc₀⟩ : ∃ c₀, cs₀[cId]? = some c₀ :=
    ⟨_, List.getElem?_eq_getElem (h.under.length_eq ▸ hId)⟩
  have hUnder := forall₂_getElem? h.under hc₀ hStored
  obtain ⟨c', hFix, hUnder', hNarrow, hLinear⟩ := (hUnder.applySubstitution hs).fixConstraint
  have hOccurs : ∀ t, c'.Occurs t →
      t = constantCoefficient ∨ (cs[cId].Occurs t ∧ t ≠ s.from_) ∨ t ∈ s.to_ :=
    fun t ht => (hNarrow t ht).elim .inl Constraint.occurs_applySubstitution
  have hKeys : ∀ t, t ∈ order.arrange s.to_.keys ↔ t ∈ s.to_ := by
    intro t
    rw [(order.perm _).mem_iff, Std.ExtTreeMap.mem_keys]
  let work' : MapWork :=
    { storage := work.storage.replace bytes order cId c'
      map := (order.arrange s.to_.keys).foldl (pushId cId) work.map
      linearId := if c'.isLinear then work.linearId ++ [cId] else work.linearId }
  refine ⟨work', c', ?_, ⟨h.represents.replace hLaw order cId c', ?_, ?_, ?_⟩, hOccurs⟩
  · simp only [Circom.processId, h.represents.readConstraint, hStored, Option.bind_eq_bind,
      Option.bind_some, hFix]
    rfl
  · refine (h.indexed.foldl hId _).set hStored ?_
    intro t hne' ht
    rcases hOccurs t ht with hEq | ⟨hOld, -⟩ | hTo
    · exact absurd hEq hne'
    · exact .inl hOld
    · exact .inr ((mem_idsOf_foldl _ _ _ _ _).mpr (.inr ⟨(hKeys t).mpr hTo, rfl⟩))
  · refine forall₂_set h.under ?_
    intro c₁ hc₁
    obtain rfl := Option.some.inj (hc₀.symm.trans hc₁)
    exact hUnder'
  · -- a constraint that is linear stays linear
    have hStays : cs[cId].Linear p → c'.Linear p := fun hGiven =>
      hLinear ((hGiven.flat.applySubstitution hne p).fixConstraint hFix)
    have hNew : ∀ id, (id = cId → c'.Linear p) → (id ≠ cId → ∃ c, cs[id]? = some c ∧ c.Linear p) →
        ∃ c, (cs.set cId c')[id]? = some c ∧ c.Linear p := by
      intro id hSame hOther
      rw [List.getElem?_set]
      split
      next hEq => exact ⟨c', rfl, hSame hEq.symm⟩
      next hEq => exact hOther (Ne.symm hEq)
    intro id hMem
    have hOld : id ∈ work.linearId → ∃ c, (cs.set cId c')[id]? = some c ∧ c.Linear p := by
      intro hIn
      obtain ⟨c, hAt, hGiven⟩ := h.linear id hIn
      refine hNew id ?_ fun _ => ⟨c, hAt, hGiven⟩
      rintro rfl
      exact hStays (Option.some.inj (hStored.symm.trans hAt) ▸ hGiven)
    by_cases hIs : c'.isLinear = true
    · have hMem' : id ∈ work.linearId ++ [cId] := by
        simpa only [work', hIs, if_true] using hMem
      rcases List.mem_append.mp hMem' with hIn | hIn
      · exact hOld hIn
      · exact hNew id (fun _ => hLinear hIs) fun hOther =>
          absurd (List.mem_singleton.mp hIn) hOther
    · exact hOld (by simpa only [work', hIs, Bool.false_eq_true, if_false] using hMem)

/-- All constraints listed for the signal of a substitution. -/
theorem Working.constraintProcessing {work : MapWork} (h : Working p bytes subs cs₀ work cs)
    (hLaw : bytes.Lawful) (order : HashOrder) (hs : s ∈ subs)
    (hne : s.from_ ≠ constantCoefficient) (hSelf : s.from_ ∉ s.to_) :
    ∃ work' cs', constraintProcessing bytes order p work s = some work' ∧
      Working p bytes subs cs₀ work' cs' ∧
      ∀ t, Mentions cs' t →
        t = constantCoefficient ∨ (Mentions cs t ∧ t ≠ s.from_) ∨ t ∈ s.to_ := by
  -- the constraints that have not been treated are all that may have the signal
  obtain ⟨work', hOk, cs', hWorking, -, hIn, hOccurs⟩ := exists_foldlM
    (Circom.processId bytes order s (p : Int))
    (fun work' rest => ∃ cs', Working p bytes subs cs₀ work' cs' ∧ (∀ id ∈ rest, id < cs'.length) ∧
      (∀ (id : Nat) (c : Constraint Nat), cs'[id]? = some c → c.Occurs s.from_ → id ∈ rest) ∧
      ∀ t, Mentions cs' t → t = constantCoefficient ∨ Mentions cs t ∨ t ∈ s.to_)
    work (idsOf work.map s.from_) (by
      rintro work' id rest ⟨cs', hWorking, hBound, hIn, hOccurs⟩
      rw [List.forall_mem_cons] at hBound
      obtain ⟨work'', c', hOk, hNext, hNew⟩ := hWorking.processId hLaw order hs hne hBound.1
      refine ⟨work'', hOk, _, hNext, ?_, ?_, ?_⟩
      · rw [List.length_set]
        exact hBound.2
      · intro id' c hAt hFrom
        rw [List.getElem?_set] at hAt
        split at hAt
        next =>
          split at hAt
          next =>
            obtain rfl := Option.some.inj hAt
            rcases hNew s.from_ hFrom with hEq | ⟨-, hOther⟩ | hTo
            · exact absurd hEq hne
            · exact absurd rfl hOther
            · exact absurd hTo hSelf
          next => cases hAt
        next hOther =>
          exact (List.mem_cons.mp (hIn id' c hAt hFrom)).resolve_left (Ne.symm hOther)
      · rintro t ⟨c, hc, ht⟩
        rcases List.mem_or_eq_of_mem_set hc with hOld | rfl
        · exact hOccurs t ⟨c, hOld, ht⟩
        · rcases hNew t ht with hEq | ⟨hOld, -⟩ | hTo
          · exact .inl hEq
          · exact hOccurs t ⟨_, List.getElem_mem hBound.1, hOld⟩
          · exact .inr (.inr hTo))
    ⟨cs, h, h.indexed.bound s.from_, fun id c hAt hFrom => h.indexed.covers id c hAt _ hne hFrom,
      fun t ht => .inr (.inl ht)⟩
  refine ⟨work', cs', ?_, hWorking, ?_⟩
  · rw [Circom.constraintProcessing]
    cases hIds : work.map[s.from_]? with
    | none =>
      rw [idsOf, hIds] at hOk
      exact hOk
    | some ids =>
      rw [idsOf, hIds] at hOk
      exact hOk
  · intro t ht
    refine (hOccurs t ht).imp_right (Or.imp_left fun hOld => ⟨hOld, ?_⟩)
    rintro rfl
    obtain ⟨c, hc, hFrom⟩ := ht
    obtain ⟨id, hAt⟩ := List.mem_iff_getElem?.mp hc
    exact absurd (hIn id c hAt hFrom) List.not_mem_nil

/-- All substitutions. -/
theorem Working.foldlM {work : MapWork} (h : Working p bytes subs cs₀ work cs)
    (hLaw : bytes.Lawful) (order : HashOrder) (hSeparate : Separate subs)
    (hZero : constantCoefficient ∉ replaced subs) :
    ∃ work' cs', subs.foldlM (Circom.constraintProcessing bytes order p) work = some work' ∧
      Working p bytes subs cs₀ work' cs' ∧
      ∀ t, Mentions cs' t → t = constantCoefficient ∨
        (t ∉ replaced subs ∧ (Mentions cs t ∨ ∃ s ∈ subs, t ∈ s.to_)) := by
  obtain ⟨work', hOk, cs', done, hList, hWorking, hOccurs⟩ := exists_foldlM
    (Circom.constraintProcessing bytes order (p : Int))
    (fun work' rest => ∃ cs' done, subs = done ++ rest ∧ Working p bytes subs cs₀ work' cs' ∧
      ∀ t, Mentions cs' t → t = constantCoefficient ∨
        (t ∉ replaced done ∧ (Mentions cs t ∨ ∃ s ∈ subs, t ∈ s.to_)))
    work subs (by
      rintro work' s rest ⟨cs', done, hList, hWorking, hOccurs⟩
      have hs : s ∈ subs := hList ▸ List.mem_append_right _ List.mem_cons_self
      have hApart := hSeparate.apart s hs
      have hDone : replaced (done ++ [s]) ⊆ replaced subs := by
        rintro k ⟨s', hs', hFrom⟩
        refine ⟨s', ?_, hFrom⟩
        rw [hList]
        refine List.mem_append.mpr ((List.mem_append.mp hs').imp_right fun hIn => ?_)
        rw [List.mem_singleton.mp hIn]
        exact List.mem_cons_self
      have hne : s.from_ ≠ constantCoefficient := by
        intro hEq
        exact hZero ⟨s, hs, hEq⟩
      obtain ⟨work'', cs'', hOk, hNext, hNew⟩ := hWorking.constraintProcessing hLaw order hs hne
        fun hIn => hApart _ hIn ⟨s, hs, rfl⟩
      refine ⟨work'', hOk, cs'', done ++ [s], by simp [hList], hNext, ?_⟩
      intro t ht
      rcases hNew t ht with hEq | ⟨hOld, hOther⟩ | hTo
      · exact .inl hEq
      · refine (hOccurs t hOld).imp_right (And.imp_left fun hNot => ?_)
        rw [replaced_append]
        rintro (hIn | ⟨s', hs', hFrom⟩)
        · exact hNot hIn
        · rw [List.mem_singleton.mp hs'] at hFrom
          exact hOther hFrom.symm
      · exact .inr ⟨fun hIn => hApart t hTo (hDone hIn), .inr ⟨s, hs, hTo⟩⟩)
    ⟨cs, [], rfl, h, fun t ht => .inr ⟨fun ⟨_, hs, _⟩ => absurd hs List.not_mem_nil, .inl ht⟩⟩
  rw [List.append_nil] at hList
  exact ⟨work', cs', hOk, hWorking, hList ▸ hOccurs⟩

-- ---------------------------------------------------------------------------
-- The constraints that have become linear
-- ---------------------------------------------------------------------------

/-- Some of the constraints have been taken out of the storage. -/
structure Taking (p : Nat) (bytes : SignedBytes) (map : SignalToConstraints)
    (cs : List (Constraint Nat)) (s : ConstraintStorage × List (Constraint Nat))
    (cs' : List (Constraint Nat)) : Prop where
  represents : Represents bytes s.1 cs'
  indexed : Indexed map cs'
  reduced : ∀ c ∈ cs', c.c.Reduced p
  linear : ∀ c ∈ s.2, c.Linear p
  mentions : ∀ t, Mentions (cs' ++ s.2) t → Mentions cs t
  holds : ∀ w : Nat → ZMod p, (∀ c ∈ cs, c.Holds w) ↔ ∀ c ∈ cs' ++ s.2, c.Holds w

theorem linear_empty : (Constraint.empty : Constraint Nat).Linear p :=
  ⟨rfl, rfl, fun _ _ hStored => by simp [Constraint.empty] at hStored⟩

theorem not_occurs_empty (t : Nat) : ¬ (Constraint.empty : Constraint Nat).Occurs t := by
  simp [Constraint.Occurs, Constraint.empty]

/-- A constraint that has become linear is taken out. -/
theorem Taking.takeLinear {taken : ConstraintStorage × List (Constraint Nat)}
    {cs' : List (Constraint Nat)} (h : Taking p bytes map cs taken cs') (hLaw : bytes.Lawful)
    (order : HashOrder) {id : Nat} (hAt : cs'[id]? = some c) (hLinear : c.Linear p) :
    ∃ taken', takeLinear bytes order taken id = some taken' ∧
      Taking p bytes map cs taken' (cs'.set id Constraint.empty) := by
  have hc : c ∈ cs' := List.mem_of_getElem? hAt
  have hOld : ∀ c₁ ∈ cs'.set id Constraint.empty, c₁ ∈ cs' ∨ c₁ = Constraint.empty :=
    fun c₁ hc₁ => List.mem_or_eq_of_mem_set hc₁
  refine ⟨(taken.1.replace bytes order id Constraint.empty, taken.2 ++ [c]), ?_,
    h.represents.replace hLaw order id Constraint.empty, ?_, ?_, ?_, ?_, ?_⟩
  · simp only [Circom.takeLinear, h.represents.readConstraint, hAt, Option.bind_eq_bind,
      Option.bind_some]
    rfl
  · exact h.indexed.set hAt fun t _ ht => absurd ht (not_occurs_empty t)
  · intro c₁ hc₁
    rcases hOld c₁ hc₁ with hIn | rfl
    · exact h.reduced c₁ hIn
    · exact linear_empty.toReduced
  · exact List.forall_mem_append.mpr ⟨h.linear, List.forall_mem_singleton.mpr hLinear⟩
  · rintro t ⟨c₁, hc₁, ht⟩
    refine h.mentions t ?_
    rw [mentions_append]
    rcases List.mem_append.mp hc₁ with hIn | hIn
    · rcases hOld c₁ hIn with hIn | rfl
      · exact .inl ⟨c₁, hIn, ht⟩
      · exact absurd ht (not_occurs_empty t)
    · rcases List.mem_append.mp hIn with hIn | hIn
      · exact .inr ⟨c₁, hIn, ht⟩
      · rw [List.mem_singleton.mp hIn] at ht
        exact .inl ⟨c, hc, ht⟩
  · intro w
    have hEmpty : (Constraint.empty : Constraint Nat).Holds w :=
      Constraint.holds_of_isEmpty (Constraint.isEmpty_iff.mpr ⟨rfl, rfl, rfl⟩)
    rw [h.holds w, List.forall_mem_append, forall_mem_set hAt hEmpty, List.forall_mem_append,
      List.forall_mem_append, List.forall_mem_singleton]
    tauto

/-- All constraints that have become linear; one may be listed twice. -/
theorem takeLinear_foldlM {storage : ConstraintStorage} (hLaw : bytes.Lawful) (order : HashOrder)
    (hRep : Represents bytes storage cs) (hIndexed : Indexed map cs)
    (hRed : ∀ c ∈ cs, c.c.Reduced p) {ids : List Nat}
    (hIds : ∀ id ∈ ids, ∃ c, cs[id]? = some c ∧ c.Linear p) :
    ∃ taken cs', ids.foldlM (takeLinear bytes order) (storage, []) = some taken ∧
      Taking p bytes map cs taken cs' := by
  obtain ⟨taken, hOk, cs', hTaking, -⟩ := exists_foldlM (takeLinear bytes order)
    (fun taken rest => ∃ cs', Taking p bytes map cs taken cs' ∧
      ∀ id ∈ rest, ∃ c, cs'[id]? = some c ∧ c.Linear p)
    (storage, []) ids (by
      rintro taken id rest ⟨cs', hTaking, hIds⟩
      rw [List.forall_mem_cons] at hIds
      obtain ⟨c, hAt, hLinear⟩ := hIds.1
      obtain ⟨taken', hOk, hNext⟩ := hTaking.takeLinear hLaw order hAt hLinear
      refine ⟨taken', hOk, _, hNext, ?_⟩
      intro id' hIn
      obtain ⟨c', hAt', hLinear'⟩ := hIds.2 id' hIn
      rw [List.getElem?_set]
      split
      next hEq => exact ⟨_, if_pos (List.getElem?_eq_some_iff.mp hAt).1, linear_empty⟩
      next => exact ⟨c', hAt', hLinear'⟩)
    ⟨cs, ⟨hRep, hIndexed, hRed, by simp, by simp, by simp⟩, hIds⟩
  exact ⟨taken, cs', hOk, hTaking⟩

/-- The constraints in the storage under substitutions, and those that have become linear. -/
theorem applySubstitutionToMap_spec {storage : ConstraintStorage} (hLaw : bytes.Lawful)
    (order : HashOrder) (hRep : Represents bytes storage cs) (hIndexed : Indexed map cs)
    (hRed : ∀ c ∈ cs, c.c.Reduced p) (hSeparate : Separate subs)
    (hZero : constantCoefficient ∉ replaced subs) :
    ∃ storage' map' linear cs', applySubstitutionToMap bytes order storage map subs p =
        some (storage', map', linear) ∧ Represents bytes storage' cs' ∧ Indexed map' cs' ∧
      (∀ c ∈ cs', c.c.Reduced p) ∧ (∀ c ∈ linear, c.Linear p) ∧
      (∀ t, Mentions (cs' ++ linear) t → t = constantCoefficient ∨
        (t ∉ replaced subs ∧ (Mentions cs t ∨ ∃ s ∈ subs, t ∈ s.to_))) ∧
      ∀ w : Nat → ZMod p, w constantCoefficient = 1 → (∀ s ∈ subs, s.Holds w) →
        ((∀ c ∈ cs, c.Holds w) ↔ ∀ c ∈ cs' ++ linear, c.Holds w) := by
  have hStart : Working p bytes subs cs ⟨storage, map, []⟩ cs :=
    ⟨hRep, hIndexed, List.forall₂_same.mpr fun c hc =>
      ⟨hRed c hc, fun _ _ _ => Iff.rfl, fun _ ht => .inr (.inl ht)⟩, by simp⟩
  obtain ⟨work, cs₁, hWork, hWorking, hOccurs⟩ := hStart.foldlM hLaw order hSeparate hZero
  have hRed₁ : ∀ c ∈ cs₁, c.c.Reduced p := by
    intro c hc
    obtain ⟨c₀, -, hUnder⟩ := exists_item hWorking.under hc
    exact hUnder.reduced
  obtain ⟨⟨storage', linear⟩, cs', hTake, hTaking⟩ := takeLinear_foldlM hLaw order
    hWorking.represents hWorking.indexed hRed₁ hWorking.linear
  refine ⟨storage', work.map, linear, cs', ?_, hTaking.represents, hTaking.indexed,
    hTaking.reduced, hTaking.linear, fun t ht => hOccurs t (hTaking.mentions t ht), ?_⟩
  · rw [applySubstitutionToMap, hWork]
    exact congrArg (Option.bind · _) hTake
  · intro w hOne hAll
    rw [← hTaking.holds w]
    constructor
    · intro hHolds c hc
      obtain ⟨c₀, hc₀, hUnder⟩ := exists_item hWorking.under hc
      exact (hUnder.holds w hOne hAll).mpr (hHolds c₀ hc₀)
    · intro hHolds c hc
      obtain ⟨c₁, hc₁, hUnder⟩ := exists_result hWorking.under hc
      exact (hUnder.holds w hOne hAll).mp (hHolds c₁ hc₁)

-- ---------------------------------------------------------------------------
-- One round
-- ---------------------------------------------------------------------------

/-- All substitutions, applied to one constraint. -/
theorem foldl_applySubstitution_spec (hSeparate : Separate subs) (hRed : c.c.Reduced p) :
    let c' := subs.foldl (fun constraint substitution =>
      constraint.applySubstitution substitution p) c
    Under p subs c c' ∧ ∀ t, c'.Occurs t → t = constantCoefficient ∨
      (t ∉ replaced subs ∧ (c.Occurs t ∨ ∃ s ∈ subs, t ∈ s.to_)) := by
  have hRun : ∀ (rest done : List (Substitution Nat)) (c₁ : Constraint Nat), subs = done ++ rest →
      Under p subs c c₁ → (∀ t, c₁.Occurs t → t = constantCoefficient ∨
        (t ∉ replaced done ∧ (c.Occurs t ∨ ∃ s ∈ subs, t ∈ s.to_))) →
      let c' := rest.foldl (fun constraint substitution =>
        constraint.applySubstitution substitution p) c₁
      Under p subs c c' ∧ ∀ t, c'.Occurs t → t = constantCoefficient ∨
        (t ∉ replaced subs ∧ (c.Occurs t ∨ ∃ s ∈ subs, t ∈ s.to_)) := by
    intro rest
    induction rest with
    | nil =>
      intro done c₁ hList hUnder hOccurs
      rw [List.append_nil] at hList
      exact ⟨hUnder, hList ▸ hOccurs⟩
    | cons s rest ih =>
      intro done c₁ hList hUnder hOccurs
      have hs : s ∈ subs := hList ▸ List.mem_append_right _ List.mem_cons_self
      refine ih (done ++ [s]) _ (by simp [hList]) (hUnder.applySubstitution hs) ?_
      intro t ht
      rcases Constraint.occurs_applySubstitution ht with hEq | ⟨hOld, hOther⟩ | hTo
      · exact .inl hEq
      · refine (hOccurs t hOld).imp_right (And.imp_left fun hNot => ?_)
        rw [replaced_append]
        rintro (hIn | ⟨s', hs', hFrom⟩)
        · exact hNot hIn
        · rw [List.mem_singleton.mp hs'] at hFrom
          exact hOther hFrom.symm
      · refine .inr ⟨?_, .inr ⟨s, hs, hTo⟩⟩
        rintro ⟨s', hs', hFrom⟩
        refine hSeparate.apart s hs t hTo ⟨s', ?_, hFrom⟩
        rw [hList]
        refine List.mem_append.mpr ((List.mem_append.mp hs').imp_right fun hIn => ?_)
        rw [List.mem_singleton.mp hIn]
        exact List.mem_cons_self
  exact hRun subs [] c rfl ⟨hRed, fun _ _ _ => Iff.rfl, fun _ ht => .inr (.inl ht)⟩
    fun t ht => .inr ⟨fun ⟨_, hs, _⟩ => absurd hs List.not_mem_nil, .inl ht⟩

/-- Constraints after all substitutions of a list. -/
structure Renewed (p : Nat) (subs : List (Substitution Nat)) (R R' : List (Constraint Nat)) :
    Prop where
  reduced : ∀ c ∈ R', c.c.Reduced p
  mentions : ∀ t, Mentions R' t → t = constantCoefficient ∨
    (t ∉ replaced subs ∧ (Mentions R t ∨ ∃ s ∈ subs, t ∈ s.to_))
  holds : ∀ w : Nat → ZMod p, w constantCoefficient = 1 → (∀ s ∈ subs, s.Holds w) →
    ((∀ c ∈ R, c.Holds w) ↔ ∀ c ∈ R', c.Holds w)

variable {D R R' T T' kept : List (Constraint Nat)}

/-- Two lists of constraints, one after the other. -/
theorem Renewed.append (h : Renewed p subs R R') (h' : Renewed p subs T T') :
    Renewed p subs (R ++ T) (R' ++ T') where
  reduced := List.forall_mem_append.mpr ⟨h.reduced, h'.reduced⟩
  mentions t ht := by
    rw [mentions_append]
    rcases mentions_append.mp ht with hIn | hIn
    · refine (h.mentions t hIn).imp_right (And.imp_right ?_)
      exact Or.imp_left .inl
    · refine (h'.mentions t hIn).imp_right (And.imp_right ?_)
      exact Or.imp_left .inr
  holds w hOne hSubs := by
    rw [List.forall_mem_append, List.forall_mem_append, h.holds w hOne hSubs,
      h'.holds w hOne hSubs]

/-- The constraints may come in any order, before and after. -/
theorem Renewed.perm (h : Renewed p subs R R') (hPerm : R.Perm T) (hPerm' : R'.Perm T') :
    Renewed p subs T T' where
  reduced c hc := h.reduced c (hPerm'.mem_iff.mpr hc)
  mentions t ht := by
    rw [← mentions_perm hPerm]
    exact h.mentions t ((mentions_perm hPerm').mpr ht)
  holds w hOne hSubs := by
    have hHolds := h.holds w hOne hSubs
    simpa only [hPerm.mem_iff, hPerm'.mem_iff] using hHolds

/-- The substitutions of some constraints are put to use in the others. -/
theorem Renewed.putToUse (h : Renewed p subs R R') (hSplits : Splits p forbidden D subs kept) :
    PutToUse p (buildEncodedFastSubstitutions subs) D R R' := by
  have hEnc := encodes_build subs
  refine ⟨h.reduced, fun t ht => ?_, fun w hOne hHolds => ?_⟩
  · rw [hEnc.keys, mentions_append]
    rcases h.mentions t ht with hEq | ⟨hNot, hOld | ⟨s, hs, hTo⟩⟩
    · exact .inl hEq
    · exact .inr ⟨hNot, .inr hOld⟩
    · -- what the substitutions bring in is in the constraints they come from
      exact (hSplits.signals s hs t hTo).imp_right fun hIn => ⟨hNot, .inl hIn⟩
  · exact h.holds w hOne ((hEnc.holds_iff hSplits.separate.nodup hOne).mp hHolds)

/-- All substitutions, applied to the constraints that are kept aside. -/
theorem mapM_substituteAll_spec (hSeparate : Separate subs) (hRed : ∀ c ∈ R, c.c.Reduced p) :
    ∃ R', R.mapM (substituteAll subs (p : Int)) = some R' ∧ Renewed p subs R R' := by
  obtain ⟨R', hRun, hAll⟩ := exists_mapM (substituteAll subs (p : Int))
    (fun c c' => Under p subs c c' ∧ ∀ t, c'.Occurs t → t = constantCoefficient ∨
      (t ∉ replaced subs ∧ (c.Occurs t ∨ ∃ s ∈ subs, t ∈ s.to_)))
    R (by
      intro c hc
      obtain ⟨hUnder, hOccurs⟩ := foldl_applySubstitution_spec hSeparate (hRed c hc)
      obtain ⟨c', hFix, hUnder', hNarrow, -⟩ := hUnder.fixConstraint
      exact ⟨c', hFix, hUnder', fun t ht => (hNarrow t ht).elim .inl (hOccurs t)⟩)
  refine ⟨R', hRun, ?_, ?_, ?_⟩
  · intro c' hc'
    obtain ⟨c, -, hUnder, -⟩ := exists_item hAll hc'
    exact hUnder.reduced
  · rintro t ⟨c', hc', ht⟩
    obtain ⟨c, hc, -, hOccurs⟩ := exists_item hAll hc'
    refine (hOccurs t ht).imp_right (And.imp_right ?_)
    exact Or.imp_left fun hIn => ⟨c, hc, hIn⟩
  · intro w hOne hSubs
    constructor
    · intro hGiven c' hc'
      obtain ⟨c, hc, hUnder, -⟩ := exists_item hAll hc'
      exact (hUnder.holds w hOne hSubs).mpr (hGiven c hc)
    · intro hGiven c hc
      obtain ⟨c', hc', hUnder, -⟩ := exists_result hAll hc
      exact (hUnder.holds w hOne hSubs).mp (hGiven c' hc')

theorem mem_insertMany_set {s : SignalSet Nat} {ks : List Nat} {t : Nat} :
    t ∈ s.insertMany ks ↔ t ∈ s ∨ t ∈ ks := by
  rw [Std.ExtTreeSet.mem_insertMany_list, List.contains_iff_mem]

variable {consistent : Prop} {T₀ : List (Constraint Nat)} {n : BigNumbers} {smp : Simplifier}

/-- Between two rounds: the linear constraints, those in the storage and those that are left of
the linear ones before are what remains of the circuit. -/
structure Rounding (p : Nat) (forbidden : SignalSet Nat) (consistent : Prop) (bytes : SignedBytes)
    (T₀ : List (Constraint Nat)) (r : Round) (cs : List (Constraint Nat)) : Prop where
  represents : Represents bytes r.storage cs
  indexed : Indexed r.nonLinearMap cs
  linear : ∀ c ∈ r.linear, c.Linear p
  remains : Remains p forbidden consistent T₀ (r.linear ++ (cs ++ r.lconst)) {k | k ∈ r.deleted}

/-- One round keeps what the rounds keep. -/
theorem Rounding.applyRound {r : Round}
    (h : Rounding p smp.forbidden consistent bytes T₀ r cs) (hLaw : n.Lawful)
    (hBytes : bytes.Lawful) (order : HashOrder) (hField : smp.field = p)
    (hZero : constantCoefficient ∈ smp.forbidden) (hPos : 0 < smp.maxSignal)
    (hBound : ∀ t, Mentions T₀ t → t < smp.maxSignal) :
    ∃ r' cs', Settles (fun fuel => applyRound n bytes order fuel smp r) r' ∧
      Rounding p smp.forbidden consistent bytes T₀ r' cs' := by
  obtain ⟨subs, constants, hSettles, hSplits⟩ := linearSimplification_spec hLaw order hZero
    h.linear smp.maxSignal (by
      intro c hc t ht
      rcases h.remains.gone t (mentions_append.mpr (.inl ⟨c, hc, ht⟩)) with rfl | ⟨hOld, -⟩
      · exact hPos
      · exact hBound t hOld) smp.flagOldHeuristics
  have hFree : constantCoefficient ∉ replaced subs := fun hIn => (hSplits.free _ hIn).1 hZero
  have hRed := h.remains.reduced
  rw [List.forall_mem_append, List.forall_mem_append] at hRed
  obtain ⟨-, hRedCs, hRedConst⟩ := hRed
  obtain ⟨storage', map', linear', cs', hMap, hRep, hIndexed, hRedCs', hLinear', hOccurs', hSays⟩ :=
    applySubstitutionToMap_spec hBytes order h.represents h.indexed hRedCs hSplits.separate hFree
  obtain ⟨lconst', hConst, hRenewedConst⟩ := mapM_substituteAll_spec (R := r.lconst ++ constants)
    hSplits.separate (List.forall_mem_append.mpr ⟨hRedConst, hSplits.reduced⟩)
  have hRenewed : Renewed p subs cs (cs' ++ linear') :=
    ⟨List.forall_mem_append.mpr ⟨hRedCs', fun c hc => (hLinear' c hc).toReduced⟩, hOccurs', hSays⟩
  have hUse : PutToUse p (buildEncodedFastSubstitutions subs) r.linear
      (constants ++ (cs ++ r.lconst)) (linear' ++ (cs' ++ lconst')) := by
    refine ((hRenewed.append hRenewedConst).perm ?_ ?_).putToUse hSplits
    · rw [← List.append_assoc]
      exact List.perm_append_comm
    · rw [← List.append_assoc]
      exact List.perm_append_comm.append_right lconst'
  let deleted' := r.deleted.insertMany (subs.map Substitution.from_)
  have hDeleted : {k | k ∈ deleted'} =
      {k | k ∈ r.deleted} ∪ {k | k ∈ buildEncodedFastSubstitutions subs} := by
    ext k
    show k ∈ deleted' ↔ k ∈ r.deleted ∨ k ∈ buildEncodedFastSubstitutions subs
    rw [mem_insertMany_set, (encodes_build subs).keys, List.mem_map]
    rfl
  refine ⟨⟨linear', storage', map', lconst', deleted'⟩, cs', ?_, hRep, hIndexed, hLinear', ?_⟩
  · refine (hSettles.bind (k := fun _ result =>
      ((r.lconst ++ result.2).mapM (substituteAll result.1 smp.field)).bind fun lconst =>
      (applySubstitutionToMap bytes order r.storage r.nonLinearMap result.1 smp.field).bind
        fun mapped => some (Round.mk mapped.2.2 mapped.1 mapped.2.1 lconst
          (r.deleted.insertMany (result.1.map Substitution.from_))))
      (settles_of_eq fun _ => ?_)).congr fun fuel => ?_
    · rw [hField, hConst, Option.bind_some, hMap]
      rfl
    · rw [Circom.applyRound, hField]
      rfl
  · rw [hDeleted]
    exact h.remains.resolve hZero (hSplits.resolves hZero consistent) hUse

/-- All rounds. -/
theorem Rounding.applyRounds {r : Round}
    (h : Rounding p smp.forbidden consistent bytes T₀ r cs) (hLaw : n.Lawful)
    (hBytes : bytes.Lawful) (order : HashOrder) (hField : smp.field = p)
    (hZero : constantCoefficient ∈ smp.forbidden) (hPos : 0 < smp.maxSignal)
    (hBound : ∀ t, Mentions T₀ t → t < smp.maxSignal) (noRounds : Nat) :
    ∃ r' cs', Settles (fun fuel => applyRounds n bytes order fuel smp noRounds r) r' ∧
      Rounding p smp.forbidden consistent bytes T₀ r' cs' := by
  induction noRounds generalizing r cs with
  | zero => exact ⟨r, cs, settles_of_eq fun _ => rfl, h⟩
  | succ noRounds ih =>
    by_cases hEmpty : r.linear.isEmpty = true
    · exact ⟨r, cs, settles_of_eq fun _ => if_pos hEmpty, h⟩
    · obtain ⟨r₁, cs₁, hFirst, h₁⟩ := h.applyRound hLaw hBytes order hField hZero hPos hBound
      obtain ⟨r₂, cs₂, hRest, h₂⟩ := ih h₁
      exact ⟨r₂, cs₂, (hFirst.bind (k := fun fuel s =>
        Circom.applyRounds n bytes order fuel smp noRounds s) hRest).congr
          fun _ => if_neg hEmpty, h₂⟩

end Ganc.Circom
