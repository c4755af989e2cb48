import Ganc.Circom.Substituting

/-!
# circom — solving clusters of constraints

What `eq_simplification` and `linear_simplification` make of a list of
constraints: they solve every cluster on its own and put the results together,
in any order. Both split the constraints into substitutions, no two for one
signal, and constraints of forbidden signals that are left (`Splits`).

* `eqSimplification_spec` — equalities of two signals;
* `linearSimplification_spec` — linear constraints.
-/

set_option linter.unusedSectionVars false

namespace Ganc.Circom

open Elimination Fuel

variable {p : Nat} [Fact p.Prime] {forbidden : SignalSet Nat}

-- ---------------------------------------------------------------------------
-- Splitting constraints
-- ---------------------------------------------------------------------------

def Mentions (D : List (Constraint Nat)) (t : Nat) : Prop := ∃ c ∈ D, c.Occurs t

/-- The constraints say what the substitutions and the constraints that are kept say. -/
structure Splits (p : Nat) (forbidden : SignalSet Nat) (D : List (Constraint Nat))
    (substitutions : List (Substitution Nat)) (kept : List (Constraint Nat)) : Prop where
  separate : Separate substitutions
  free : ∀ k ∈ replaced substitutions, k ∉ forbidden ∧ Mentions D k
  signals : ∀ s ∈ substitutions, ∀ t ∈ s.to_, t = constantCoefficient ∨ Mentions D t
  reduced : ∀ c ∈ kept, c.c.Reduced p
  left : ∀ t, Mentions kept t → t = constantCoefficient ∨ (t ∈ forbidden ∧ Mentions D t)
  holds : ∀ w : Nat → ZMod p, w constantCoefficient = 1 →
    ((∀ c ∈ D, c.Holds w) ↔ (∀ c ∈ kept, c.Holds w) ∧ ∀ s ∈ substitutions, s.Holds w)

variable {D D' kept kept' : List (Constraint Nat)} {subs subs' : List (Substitution Nat)}

theorem mentions_append {t : Nat} : Mentions (D ++ D') t ↔ Mentions D t ∨ Mentions D' t := by
  simp [Mentions, or_and_right, exists_or]

theorem mentions_perm (h : D.Perm D') {t : Nat} : Mentions D t ↔ Mentions D' t :=
  exists_congr fun _ => and_congr_left fun _ => h.mem_iff

theorem replaced_perm (h : subs.Perm subs') : replaced subs = replaced subs' :=
  Set.ext fun _ => exists_congr fun _ => and_congr_left fun _ => h.mem_iff

theorem splits_nil : Splits p forbidden [] [] [] where
  separate := ⟨List.nodup_nil, fun _ hs => absurd hs List.not_mem_nil⟩
  free := fun _ ⟨_, hs, _⟩ => absurd hs List.not_mem_nil
  signals := fun _ hs => absurd hs List.not_mem_nil
  reduced := fun _ hc => absurd hc List.not_mem_nil
  left := fun _ ⟨_, hc, _⟩ => absurd hc List.not_mem_nil
  holds := fun _ _ => by simp

namespace Splits

/-- The order of the lists does not matter. -/
theorem perm (h : Splits p forbidden D subs kept) (hD : D.Perm D') (hSubs : subs.Perm subs')
    (hKept : kept.Perm kept') : Splits p forbidden D' subs' kept' where
  separate := by
    refine ⟨((hSubs.map _).nodup_iff).mp h.separate.nodup, ?_⟩
    intro s hs
    rw [← replaced_perm hSubs]
    exact h.separate.apart s (hSubs.mem_iff.mpr hs)
  free := by
    intro k hk
    rw [← replaced_perm hSubs] at hk
    exact (h.free k hk).imp_right (mentions_perm hD).mp
  signals := fun s hs t ht =>
    (h.signals s (hSubs.mem_iff.mpr hs) t ht).imp_right (mentions_perm hD).mp
  reduced := fun c hc => h.reduced c (hKept.mem_iff.mpr hc)
  left := fun t ht => (h.left t ((mentions_perm hKept).mpr ht)).imp_right
    (And.imp_right (mentions_perm hD).mp)
  holds := by
    intro w hOne
    have hHolds := h.holds w hOne
    simpa only [hD.mem_iff, hSubs.mem_iff, hKept.mem_iff] using hHolds

/-- Constraints without a common signal are split on their own. -/
theorem append (h : Splits p forbidden D subs kept) (h' : Splits p forbidden D' subs' kept')
    (hZero : constantCoefficient ∈ forbidden) (hShare : ∀ c ∈ D, ∀ c' ∈ D', ¬ Share c c') :
    Splits p forbidden (D ++ D') (subs ++ subs') (kept ++ kept') := by
  have hApart : ∀ t, t ≠ constantCoefficient → Mentions D t → ¬ Mentions D' t := by
    rintro t hne ⟨c, hc, ht⟩ ⟨c', hc', ht'⟩
    exact hShare c hc c' hc' ⟨t, hne, ht, ht'⟩
  have hne : ∀ {k}, k ∉ forbidden → k ≠ constantCoefficient := by
    rintro k hFree rfl
    exact hFree hZero
  refine ⟨⟨?_, ?_⟩, ?_, ?_, ?_, ?_, ?_⟩
  · rw [List.map_append]
    refine List.Nodup.append h.separate.nodup h'.separate.nodup ?_
    intro k hk hk'
    obtain ⟨s, hs, rfl⟩ := List.mem_map.mp hk
    obtain ⟨s', hs', hSame⟩ := List.mem_map.mp hk'
    obtain ⟨hFree, hIn⟩ := h.free s.from_ ⟨s, hs, rfl⟩
    exact hApart s.from_ (hne hFree) hIn (h'.free s.from_ ⟨s', hs', hSame⟩).2
  · intro s hs t ht hReplaced
    rw [replaced_append] at hReplaced
    rcases List.mem_append.mp hs with hs | hs
    · rcases hReplaced with hIn | hIn
      · exact h.separate.apart s hs t ht hIn
      · obtain ⟨hFree, hOther⟩ := h'.free t hIn
        exact hApart t (hne hFree) ((h.signals s hs t ht).resolve_left (hne hFree)) hOther
    · rcases hReplaced with hIn | hIn
      · obtain ⟨hFree, hOther⟩ := h.free t hIn
        exact hApart t (hne hFree) hOther ((h'.signals s hs t ht).resolve_left (hne hFree))
      · exact h'.separate.apart s hs t ht hIn
  · intro k hk
    rw [replaced_append] at hk
    rw [mentions_append]
    exact hk.elim (fun hIn => (h.free k hIn).imp_right .inl)
      fun hIn => (h'.free k hIn).imp_right .inr
  · intro s hs t ht
    rw [mentions_append]
    exact (List.mem_append.mp hs).elim (fun hIn => (h.signals s hIn t ht).imp_right .inl)
      fun hIn => (h'.signals s hIn t ht).imp_right .inr
  · exact List.forall_mem_append.mpr ⟨h.reduced, h'.reduced⟩
  · intro t ht
    rw [mentions_append] at ht ⊢
    exact ht.elim (fun hIn => (h.left t hIn).imp_right (And.imp_right .inl))
      fun hIn => (h'.left t hIn).imp_right (And.imp_right .inr)
  · intro w hOne
    rw [List.forall_mem_append, List.forall_mem_append, List.forall_mem_append, h.holds w hOne,
      h'.holds w hOne]
    tauto

/-- Empty constraints say nothing. -/
theorem of_filter (h : Splits p forbidden (D.filter fun c => !c.isEmpty) subs kept) :
    Splits p forbidden D subs kept := by
  have hMentions : ∀ {t}, Mentions (D.filter fun c => !c.isEmpty) t → Mentions D t :=
    fun ⟨c, hc, ht⟩ => ⟨c, List.mem_of_mem_filter hc, ht⟩
  refine ⟨h.separate, fun k hk => (h.free k hk).imp_right hMentions,
    fun s hs t ht => (h.signals s hs t ht).imp_right hMentions, h.reduced,
    fun t ht => (h.left t ht).imp_right (And.imp_right hMentions), ?_⟩
  intro w hOne
  rw [← h.holds w hOne]
  refine ⟨fun hAll c hc => hAll c (List.mem_of_mem_filter hc), ?_⟩
  intro hAll c hc
  by_cases hEmpty : c.isEmpty = true
  · exact Constraint.holds_of_isEmpty hEmpty
  · exact hAll c (List.mem_filter.mpr ⟨hc, by simp [hEmpty]⟩)

/-- The results for all clusters, one after the other. -/
theorem of_classes {clusters : List Cluster}
    {results : List (List (Substitution Nat) × List (Constraint Nat))}
    (hClasses : Classes D clusters) (hZero : constantCoefficient ∈ forbidden)
    (hAll : List.Forall₂ (fun cluster result =>
      Splits p forbidden cluster.constraints result.1 result.2) clusters results) :
    Splits p forbidden D (results.flatMap Prod.fst) (results.flatMap Prod.snd) := by
  have hSplits : Splits p forbidden (clusters.flatMap Cluster.constraints)
      (results.flatMap Prod.fst) (results.flatMap Prod.snd) := by
    have hDisjoint := hClasses.disjoint
    clear hClasses
    induction hAll with
    | nil => exact splits_nil
    | cons hFirst hRest ih =>
      rw [List.pairwise_cons] at hDisjoint
      refine hFirst.append (ih hDisjoint.2) hZero ?_
      intro c hc c' hc'
      obtain ⟨cluster', hIn, hc'⟩ := List.mem_flatMap.mp hc'
      exact hDisjoint.1 cluster' hIn c hc c' hc'
  exact of_filter (hSplits.perm hClasses.perm (List.Perm.refl _) (List.Perm.refl _))

end Splits

-- ---------------------------------------------------------------------------
-- Linear constraints
-- ---------------------------------------------------------------------------

/-- A full simplification splits its constraints. -/
theorem Simplifies.splits {constraints : List (Constraint Nat)} {result : Simplified}
    (h : Simplifies p forbidden constraints result) :
    Splits p forbidden constraints result.substitutions result.constraints where
  separate := h.separate
  free := by
    rintro k ⟨s, hs, rfl⟩
    obtain ⟨hFree, c, hc, hIn⟩ := h.free s.from_ (h.removed ▸ List.mem_map_of_mem hs)
    exact ⟨hFree, c, hc, .inr (.inr hIn)⟩
  signals := fun s hs t ht =>
    (h.signals s hs t ht).imp_right fun ⟨c, hc, hIn⟩ => ⟨c, hc, .inr (.inr hIn)⟩
  reduced := fun c hc => (h.left c hc).linear.toReduced
  left := by
    rintro t ⟨c, hc, ht⟩
    have hAside := h.left c hc
    have hIn := hAside.linear.occurs.mp ht
    exact (hAside.signals t hIn).imp_right fun ⟨c', hc', hIn'⟩ =>
      ⟨hAside.fixed t hIn, c', hc', .inr (.inr hIn')⟩
  holds := h.holds

/-- The simplification of linear constraints ends and splits them. -/
theorem linearSimplification_spec {n : BigNumbers} (hLaw : n.Lawful) (order : HashOrder)
    (hZero : constantCoefficient ∈ forbidden) {linear : List (Constraint Nat)}
    (hLinear : ∀ c ∈ linear, c.Linear p) (noLabels : Nat)
    (hLabels : ∀ c ∈ linear, ∀ t, c.Occurs t → t < noLabels) (useOldHeuristics : Bool) :
    ∃ subs cons, Settles (fun fuel => linearSimplification n order fuel linear forbidden noLabels p
        useOldHeuristics) (subs, cons) ∧ Splits p forbidden linear subs cons := by
  obtain ⟨clusters, hClusters, hClasses⟩ := exists_classes order hLabels
  obtain ⟨results, hResults, hAll⟩ := exists_settles_mapM
    (fun fuel (cluster : Cluster) => fullSimplification n order fuel
      ⟨p, cluster.constraints, forbidden, useOldHeuristics⟩)
    (fun cluster result => Simplifies p forbidden cluster.constraints result) clusters (by
      intro cluster hIn
      refine exists_simplifies hLaw order ⟨p, cluster.constraints, forbidden, useOldHeuristics⟩
        rfl hZero ?_
      intro c hc
      have hMem := hClasses.perm.mem_iff.mp (List.mem_flatMap.mpr ⟨cluster, hIn, hc⟩)
      exact hLinear c (List.mem_of_mem_filter hMem))
  have hEach : List.Forall₂
      (fun (cluster : Cluster) (result : List (Substitution Nat) × List (Constraint Nat)) =>
        Splits p forbidden cluster.constraints result.1 result.2) clusters
      (results.map fun result => (result.substitutions, result.constraints)) := by
    rw [List.forall₂_map_right_iff]
    exact hAll.imp fun _ _ h => h.splits
  have hSplits := Splits.of_classes hClasses hZero hEach
  rw [List.flatMap_map, List.flatMap_map] at hSplits
  have hPerm := order.perm results
  have hArrived := hResults.bind (k := fun _ results =>
    some ((order.arrange results).flatMap Simplified.substitutions,
      (order.arrange results).flatMap Simplified.constraints)) (settles_of_eq fun _ => rfl)
  refine ⟨_, _, (hClusters.bind (k := fun fuel clusters =>
      (clusters.mapM fun cluster => fullSimplification n order fuel
        ⟨p, cluster.constraints, forbidden, useOldHeuristics⟩).bind fun results =>
      some ((order.arrange results).flatMap Simplified.substitutions,
        (order.arrange results).flatMap Simplified.constraints))
      hArrived).congr fun _ => rfl, ?_⟩
  exact hSplits.perm (List.Perm.refl _) (hPerm.symm.flatMap_right _) (hPerm.symm.flatMap_right _)

-- ---------------------------------------------------------------------------
-- Equalities
-- ---------------------------------------------------------------------------

/-- The constraint says that two signals are equal. -/
structure Equates (p : Nat) (c : Constraint Nat) (x y : Nat) : Prop where
  left : x ≠ constantCoefficient
  right : y ≠ constantCoefficient
  ne : x ≠ y
  occurs : ∀ t, c.Occurs t ↔ t = x ∨ t = y
  holds : ∀ w : Nat → ZMod p, c.Holds w ↔ w x = w y

variable {c : Constraint Nat} {x y : Nat}

theorem Equates.symm (h : Equates p c x y) : Equates p c y x :=
  ⟨h.right, h.left, h.ne.symm, fun t => (h.occurs t).trans or_comm,
    fun w => (h.holds w).trans eq_comm⟩

/-- What counts as an equality equates two signals. -/
theorem isEquality_spec (order : HashOrder) (hLinear : c.Linear p)
    (hEquality : c.isEquality order p = true) : ∃ x y, Equates p c x y := by
  rw [Constraint.isEquality] at hEquality
  split at hEquality
  next hShape =>
    simp only [Bool.and_eq_true, decide_eq_true_eq] at hShape
    obtain ⟨⟨-, hConstant⟩, -⟩ := hShape
    split at hEquality
    next x c₀ y c₁ hArranged =>
      have hPerm : c.c.toList.Perm [(x, c₀), (y, c₁)] := hArranged ▸ (order.perm _).symm
      have hStored : ∀ t v, c.c[t]? = some v ↔ (t, v) = (x, c₀) ∨ (t, v) = (y, c₁) := by
        intro t v
        have hEntry : (t, v) ∈ c.c.toList ↔ c.c[t]? = some v := Store.mem_toList
        rw [← hEntry, hPerm.mem_iff]
        simp
      have hMem : ∀ t, t ∈ c.c ↔ t = x ∨ t = y := by
        intro t
        rw [Store.mem_iff]
        simp only [hStored, Prod.mk.injEq, exists_or, exists_and_left, exists_eq, and_true]
      have hNodup := (hPerm.map Prod.fst).nodup_iff.mp (Store.nodup_keys_toList c.c)
      have hne : x ≠ y := by simpa using hNodup
      refine ⟨x, y, ?_, ?_, hne, fun t => hLinear.occurs.trans (hMem t), ?_⟩
      · rintro rfl
        exact hConstant ((hMem _).mpr (.inl rfl))
      · rintro rfl
        exact hConstant ((hMem _).mpr (.inr rfl))
      · intro w
        have hUnit : (c₁ : ZMod p) ≠ 0 :=
          hLinear.cast_ne_zero ((hStored y c₁).mpr (.inr rfl))
        have hOpposite : (c₀ : ZMod p) = -c₁ := by
          rw [← of_decide_eq_true hEquality,
            ModularArithmetic.cast_mul ModularArithmetic.cast_field, Int.cast_neg, Int.cast_one,
            neg_one_mul]
        have hEval : c.c.eval w = c₀ * w x + c₁ * w y := by
          rw [Coefficients.eval, Store.total, (hPerm.map _).sum_eq]
          simp
        rw [hLinear.holds, hEval, hOpposite, neg_mul, neg_add_eq_zero,
          mul_right_inj' hUnit]
    next => exact absurd hEquality (by simp)
  next => exact absurd hEquality (by simp)

theorem nodup_toList (s : SignalSet Nat) : s.toList.Nodup := by
  refine List.Pairwise.imp ?_ Std.ExtTreeSet.distinct_toList
  rintro t t' hNot rfl
  exact hNot Std.compare_self

/-- The two signals of an equality, in order. -/
theorem Equates.signals (h : Equates p c x y) : ∃ s₀ s₁,
    c.takeClonedSignals.toList = [s₀, s₁] ∧ Equates p c s₀ s₁ := by
  have hPerm : c.takeClonedSignals.toList.Perm [x, y] := by
    rw [List.perm_ext_iff_of_nodup (nodup_toList _) (by simp [h.ne])]
    intro t
    rw [Std.ExtTreeSet.mem_toList, Constraint.mem_takeClonedSignals, h.occurs]
    simp only [List.mem_cons, List.not_mem_nil, or_false, and_iff_right_iff_imp]
    rintro (rfl | rfl)
    · exact h.left
    · exact h.right
  rcases List.perm_pair.mp hPerm with hList | hList
  · exact ⟨x, y, hList, h⟩
  · exact ⟨y, x, hList, h.symm⟩

/-- All signals of a list of equalities are equal to one of them, if all equalities hold. -/
structure Unites (p : Nat) (D : List (Constraint Nat)) (rh : Nat) : Prop where
  mem : Mentions D rh
  constant : ∀ t, Mentions D t → t ≠ constantCoefficient
  holds : ∀ w : Nat → ZMod p, (∀ c ∈ D, c.Holds w) ↔ ∀ t, Mentions D t → w t = w rh

/-- The substitution of a signal by another one. -/
def toSignal (rh k : Nat) : Substitution Nat := ⟨k, (∅ : Coefficients Nat).insert rh 1⟩

theorem new_signal (rh k : Nat) : Substitution.new k (.signal rh) = some (toSignal rh k) := rfl

theorem mem_toSignal {rh k t : Nat} : t ∈ (toSignal rh k).to_ ↔ t = rh :=
  Store.mem_insert.trans (or_iff_left Std.ExtTreeMap.not_mem_empty)

/-- The substitution by a signal says that two signals are equal. -/
theorem holds_toSignal {rh k : Nat} {w : Nat → ZMod p} :
    (toSignal rh k).Holds w ↔ w k = w rh := by
  have hErase : (∅ : Coefficients Nat).erase rh = ∅ := Store.erase_of_get?_none (by simp)
  rw [Substitution.Holds, toSignal, Coefficients.eval_insert, hErase, Coefficients.eval_empty,
    Int.cast_one, one_mul, add_zero]

/-- The constraint is about two forbidden signals of a cluster, one of them `rh`. -/
structure Fixes (p : Nat) (forbidden : SignalSet Nat) (D : List (Constraint Nat)) (rh : Nat)
    (c : Constraint Nat) : Prop where
  reduced : c.c.Reduced p
  left : ∀ t, c.Occurs t → t = constantCoefficient ∨ (t ∈ forbidden ∧ Mentions D t)
  holds : ∃ t, Mentions D t ∧ ∀ w : Nat → ZMod p, w constantCoefficient = 1 →
    (c.Holds w ↔ w t = w rh)

/-- Every signal but `rh` is replaced, or equal to `rh` by a constraint that is kept. -/
theorem Unites.splits {rh : Nat} {ks : List Nat} (h : Unites p D rh) (hNodup : ks.Nodup)
    (hFree : ∀ k ∈ ks, k ∉ forbidden ∧ k ≠ rh ∧ Mentions D k)
    (hKept : ∀ c ∈ kept, Fixes p forbidden D rh c)
    (hCover : ∀ t, Mentions D t → t = rh ∨ t ∈ ks ∨ ∃ c ∈ kept,
      ∀ w : Nat → ZMod p, w constantCoefficient = 1 → (c.Holds w ↔ w t = w rh)) :
    Splits p forbidden D (ks.map (toSignal rh)) kept := by
  have hReplaced : ∀ k, k ∈ replaced (ks.map (toSignal rh)) ↔ k ∈ ks := by
    intro k
    simp [replaced, toSignal]
  have hTo : ∀ s ∈ ks.map (toSignal rh), ∀ t ∈ s.to_, t = rh := by
    intro s hs t ht
    obtain ⟨k, -, rfl⟩ := List.mem_map.mp hs
    exact mem_toSignal.mp ht
  refine ⟨⟨?_, ?_⟩, ?_, ?_, fun c hc => (hKept c hc).reduced, ?_, ?_⟩
  · rw [List.map_map]
    exact (List.map_id ks).symm ▸ hNodup
  · intro s hs t ht hIn
    rw [hTo s hs t ht] at hIn
    exact (hFree rh ((hReplaced rh).mp hIn)).2.1 rfl
  · intro k hk
    obtain ⟨hFree, -, hIn⟩ := hFree k ((hReplaced k).mp hk)
    exact ⟨hFree, hIn⟩
  · intro s hs t ht
    rw [hTo s hs t ht]
    exact .inr h.mem
  · rintro t ⟨c, hc, ht⟩
    exact (hKept c hc).left t ht
  · intro w hOne
    rw [h.holds w]
    constructor
    · intro hAll
      refine ⟨?_, ?_⟩
      · intro c hc
        obtain ⟨t, hIn, hHolds⟩ := (hKept c hc).holds
        exact (hHolds w hOne).mpr (hAll t hIn)
      · intro s hs
        obtain ⟨k, hk, rfl⟩ := List.mem_map.mp hs
        exact holds_toSignal.mpr (hAll k (hFree k hk).2.2)
    · rintro ⟨hCons, hSubs⟩ t ht
      rcases hCover t ht with rfl | hk | ⟨c, hc, hHolds⟩
      · rfl
      · exact holds_toSignal.mp (hSubs _ (List.mem_map_of_mem hk))
      · exact (hHolds w hOne).mp (hCons c hc)

/-- A constraint in a cluster has all constraints in the cluster that it shares a signal with. -/
theorem Classes.linked_mem {linear : List (Constraint Nat)} {clusters : List Cluster}
    (h : Classes linear clusters) {cluster : Cluster} (hIn : cluster ∈ clusters)
    {c c' : Constraint Nat} (hc : c ∈ cluster.constraints) (hLinked : Linked linear c c') :
    c' ∈ cluster.constraints := by
  obtain ⟨-, hc', t, hne, ht, ht'⟩ := hLinked
  have hNonempty : ¬ c'.isEmpty = true := by
    intro hEmpty
    obtain ⟨hA, hB, hC⟩ := Constraint.isEmpty_iff.mp hEmpty
    simp [Constraint.Occurs, hA, hB, hC] at ht'
  have hMem := h.perm.mem_iff.mpr (List.mem_filter.mpr ⟨hc', by simp [hNonempty]⟩)
  obtain ⟨cluster', hIn', hMem'⟩ := List.mem_flatMap.mp hMem
  by_cases hSame : cluster = cluster'
  · exact hSame ▸ hMem'
  · have hSymm : Std.Symm fun C C' : Cluster =>
        ∀ c ∈ C.constraints, ∀ c' ∈ C'.constraints, ¬ Share c c' := by
      refine ⟨?_⟩
      rintro C C' hNot c hc c' hc' ⟨u, hu, hOccurs, hOccurs'⟩
      exact hNot c' hc' c hc ⟨u, hu, hOccurs', hOccurs⟩
    have hNot := h.disjoint.forall hIn hIn' hSame c hc c' hMem'
    exact absurd ⟨t, hne, ht, ht'⟩ hNot

/-- The signals of a cluster of equalities are equal if the constraints of the cluster hold. -/
theorem Classes.unites {linear : List (Constraint Nat)} {clusters : List Cluster}
    (h : Classes linear clusters) (hEquates : ∀ c ∈ linear, ∃ x y, Equates p c x y)
    {cluster : Cluster} (hIn : cluster ∈ clusters) {rh : Nat}
    (hrh : Mentions cluster.constraints rh) : Unites p cluster.constraints rh := by
  have hEq : ∀ c ∈ cluster.constraints, ∃ x y, Equates p c x y := by
    intro c hc
    have hMem := h.perm.mem_iff.mp (List.mem_flatMap.mpr ⟨cluster, hIn, hc⟩)
    exact hEquates c (List.mem_of_mem_filter hMem)
  refine ⟨hrh, ?_, ?_⟩
  · rintro t ⟨c, hc, ht⟩
    obtain ⟨x, y, hxy⟩ := hEq c hc
    rcases (hxy.occurs t).mp ht with rfl | rfl
    · exact hxy.left
    · exact hxy.right
  · intro w
    constructor
    · intro hAll t ht
      have hValue : ∀ c ∈ cluster.constraints, ∀ t t', c.Occurs t → c.Occurs t' → w t = w t' := by
        intro c hc t t' ht ht'
        obtain ⟨x, y, hxy⟩ := hEq c hc
        have hw := (hxy.holds w).mp (hAll c hc)
        rcases (hxy.occurs t).mp ht with rfl | rfl <;>
          rcases (hxy.occurs t').mp ht' with rfl | rfl
        · rfl
        · exact hw
        · exact hw.symm
        · rfl
      -- along the chain from one constraint to the other
      have hChain : ∀ c c' : Constraint Nat, Relation.EqvGen (Linked linear) c c' →
          (c ∈ cluster.constraints ↔ c' ∈ cluster.constraints) ∧
          (c ∈ cluster.constraints → ∀ t t', c.Occurs t → c'.Occurs t' → w t = w t') := by
        intro c c' hGen
        induction hGen with
        | rel c c' hLinked =>
          have hBack : Linked linear c' c := by
            obtain ⟨hMem, hMem', u, hne, hu, hu'⟩ := hLinked
            exact ⟨hMem', hMem, u, hne, hu', hu⟩
          refine ⟨⟨fun hc => h.linked_mem hIn hc hLinked,
            fun hc' => h.linked_mem hIn hc' hBack⟩, ?_⟩
          intro hc t t' ht ht'
          have hOther := h.linked_mem hIn hc hLinked
          obtain ⟨-, -, u, -, hu, hu'⟩ := hLinked
          exact (hValue c hc t u ht hu).trans (hValue c' hOther u t' hu' ht')
        | refl c => exact ⟨Iff.rfl, fun hc => hValue c hc⟩
        | symm c c' _ ih =>
          exact ⟨ih.1.symm, fun hc t t' ht ht' => (ih.2 (ih.1.mpr hc) t' t ht' ht).symm⟩
        | trans c c' c'' _ _ ih ih' =>
          refine ⟨ih.1.trans ih'.1, ?_⟩
          intro hc t t' ht ht'
          have hMiddle := ih.1.mp hc
          obtain ⟨x, y, hxy⟩ := hEq c' hMiddle
          have hx := (hxy.occurs x).mpr (.inl rfl)
          exact (ih.2 hc t x ht hx).trans (ih'.2 hMiddle x t' hx ht')
      obtain ⟨c, hc, ht⟩ := ht
      obtain ⟨c', hc', hrh⟩ := hrh
      exact (hChain c c' (h.connected cluster hIn c hc c' hc')).2 hc t rh ht hrh
    · intro hAll c hc
      obtain ⟨x, y, hxy⟩ := hEq c hc
      have hx := hAll x ⟨c, hc, (hxy.occurs x).mpr (.inl rfl)⟩
      have hy := hAll y ⟨c, hc, (hxy.occurs y).mpr (.inr rfl)⟩
      exact (hxy.holds w).mpr (hx.trans hy.symm)

/-- The signals that have been gone through. -/
structure Collected (forbidden : SignalSet Nat) (done : List Nat) (s : EqSignals) : Prop where
  remains : ∀ t, t ∈ s.remains ↔ t ∈ done ∧ t ∈ forbidden
  remove : ∀ t, t ∈ s.remove ↔ t ∈ done ∧ t ∉ forbidden
  minRemains : s.minRemains.elim (∀ t, t ∉ s.remains) (· ∈ s.remains)
  minRemove : s.minRemove.elim (∀ t, t ∉ s.remove) (· ∈ s.remove)

theorem mem_insert_set {s : SignalSet Nat} {k t : Nat} : t ∈ s.insert k ↔ t = k ∨ t ∈ s := by
  rw [Std.ExtTreeSet.mem_insert, Std.compare_eq_iff_eq, eq_comm]

theorem mem_erase_set {s : SignalSet Nat} {k t : Nat} : t ∈ s.erase k ↔ t ≠ k ∧ t ∈ s := by
  rw [Std.ExtTreeSet.mem_erase, ne_eq, Std.compare_eq_iff_eq, eq_comm]

/-- The least of a set of signals and one more. -/
theorem min_mem_insert {s : SignalSet Nat} {least : Option Nat}
    (h : least.elim (∀ t, t ∉ s) (· ∈ s)) (k : Nat) :
    least.elim k (fun m => min m k) ∈ s.insert k := by
  rw [mem_insert_set]
  cases least with
  | none => exact .inl rfl
  | some m =>
    show min m k = k ∨ min m k ∈ s
    rcases min_choice m k with hEq | hEq
    · exact .inr (hEq.symm ▸ h)
    · exact .inl hEq

/-- One more signal is collected. -/
theorem Collected.collectSignal {done : List Nat} {s : EqSignals} (h : Collected forbidden done s)
    (k : Nat) : Collected forbidden (done ++ [k]) (collectSignal forbidden s k) := by
  have hMem : ∀ t, t ∈ done ++ [k] ↔ t = k ∨ t ∈ done := by simp [or_comm]
  rw [Circom.collectSignal]
  split
  next hForbidden =>
    refine ⟨?_, ?_, min_mem_insert h.minRemains k, h.minRemove⟩
    · intro t
      rw [mem_insert_set, hMem, h.remains, or_and_right]
      exact or_congr_left ⟨fun hEq => ⟨hEq, hEq ▸ hForbidden⟩, And.left⟩
    · intro t
      rw [hMem, h.remove]
      refine and_congr_left fun hFree => (or_iff_right ?_).symm
      rintro rfl
      exact hFree hForbidden
  next hFree =>
    refine ⟨?_, ?_, h.minRemains, min_mem_insert h.minRemove k⟩
    · intro t
      rw [hMem, h.remains]
      refine and_congr_left fun hForbidden => (or_iff_right ?_).symm
      rintro rfl
      exact hFree hForbidden
    · intro t
      rw [mem_insert_set, hMem, h.remove, or_and_right]
      exact or_congr_left ⟨fun hEq => ⟨hEq, hEq ▸ hFree⟩, And.left⟩

/-- All signals are collected. -/
theorem collected_foldl (forbidden : SignalSet Nat) (signals : List Nat) :
    Collected forbidden signals
      (signals.foldl (collectSignal forbidden) ⟨∅, none, ∅, none⟩) := by
  induction signals using List.reverseRecOn with
  | nil => exact ⟨by simp, by simp, by simp, by simp⟩
  | append_singleton signals k ih =>
    rw [List.foldl_append]
    exact ih.collectSignal k

/-- The signal that all others are equal to is forbidden if there is a forbidden one. -/
theorem Collected.rhSignal {done : List Nat} {s : EqSignals} (h : Collected forbidden done s)
    (hNonempty : ∃ t, t ∈ done) : ∃ rh s', rhSignal s = some (rh, s') ∧ rh ∈ done ∧
      (∀ t, t ∈ s'.remains ↔ t ≠ rh ∧ t ∈ done ∧ t ∈ forbidden) ∧
      (∀ t, t ∈ s'.remove ↔ t ≠ rh ∧ t ∈ done ∧ t ∉ forbidden) ∧
      ((∃ t ∈ done, t ∈ forbidden) → rh ∈ forbidden) := by
  rw [Circom.rhSignal]
  cases hRemains : s.minRemains with
  | some rh =>
    have hMem := h.minRemains
    rw [hRemains] at hMem
    obtain ⟨hIn, hForbidden⟩ := (h.remains rh).mp hMem
    refine ⟨rh, _, rfl, hIn, ?_, ?_, fun _ => hForbidden⟩
    · intro t
      rw [mem_erase_set, h.remains]
    · intro t
      rw [h.remove]
      refine (and_iff_right_of_imp ?_).symm
      rintro ⟨-, hFree⟩ rfl
      exact hFree hForbidden
  | none =>
    have hNone := h.minRemains
    rw [hRemains] at hNone
    have hAll : ∀ t ∈ done, t ∉ forbidden :=
      fun t ht hForbidden => hNone t ((h.remains t).mpr ⟨ht, hForbidden⟩)
    cases hRemove : s.minRemove with
    | none =>
      have hEmpty := h.minRemove
      rw [hRemove] at hEmpty
      obtain ⟨t, ht⟩ := hNonempty
      exact absurd ((h.remove t).mpr ⟨ht, hAll t ht⟩) (hEmpty t)
    | some rh =>
      have hMem := h.minRemove
      rw [hRemove] at hMem
      obtain ⟨hIn, hFree⟩ := (h.remove rh).mp hMem
      refine ⟨rh, _, rfl, hIn, ?_, ?_, ?_⟩
      · intro t
        rw [h.remains]
        exact iff_of_false (fun ⟨ht, hForbidden⟩ => hAll t ht hForbidden)
          fun ⟨_, ht, hForbidden⟩ => hAll t ht hForbidden
      · intro t
        rw [mem_erase_set, h.remove]
      · rintro ⟨t, ht, hForbidden⟩
        exact absurd hForbidden (hAll t ht)

/-- The constraint that two forbidden signals are equal. -/
theorem equalSignals_spec {rh t : Nat} (hrh : Mentions D rh ∧ rh ∈ forbidden)
    (ht : Mentions D t ∧ t ∈ forbidden) : ∃ c, equalSignals p rh t = some c ∧
      Fixes p forbidden D rh c ∧
      ∀ w : Nat → ZMod p, w constantCoefficient = 1 → (c.Holds w ↔ w t = w rh) := by
  let S : Nat → Prop := fun u => u = t ∨ u = rh
  have hSignal : ∀ u, S u → ArithmeticExpression.Denotes (ZMod p) S (.signal u) fun w => w u :=
    fun u hu => ⟨trivial, fun u' hEq => .inr ((hEq : u' = u) ▸ hu), fun _ _ => rfl⟩
  obtain ⟨e, hSub, hDenotes⟩ := (hSignal t (.inl rfl)).sub ModularArithmetic.cast_field
    (hSignal rh (.inr rfl))
  obtain ⟨c, hForm, hLinear, hOccurs, hHolds⟩ :=
    hDenotes.constraint ModularArithmetic.cast_field field_pos
  have hEqual : ∀ w : Nat → ZMod p, w constantCoefficient = 1 → (c.Holds w ↔ w t = w rh) := by
    intro w hOne
    rw [← Constraint.holds_removeZeroValueCoefficients, hHolds w hOne, sub_eq_zero]
  refine ⟨c, ?_, ⟨?_, ?_, t, ht.1, hEqual⟩, hEqual⟩
  · rw [equalSignals]
    exact (congrArg (Option.bind · _) hSub).trans hForm
  · intro u v hStored
    by_cases hZero : v = 0
    · exact hZero.symm ▸ ⟨le_refl 0, field_pos⟩
    · exact (hLinear.reduced u v (Coefficients.get?_removeZeroValue.mpr ⟨hStored, hZero⟩)).imp_left
        le_of_lt
  · intro u hu
    refine (hOccurs u hu).imp_right ?_
    rintro (rfl | rfl)
    · exact ht.symm
    · exact hrh.symm

/-- Every substitution is by another signal. -/
def Renames (substitutions : List (Substitution Nat)) : Prop :=
  ∀ s ∈ substitutions, ∃ rh, rh ≠ constantCoefficient ∧ s = toSignal rh s.from_

/-- Substitutions by one signal rename. -/
theorem renames_map {rh : Nat} (hne : rh ≠ constantCoefficient) (ks : List Nat) :
    Renames (ks.map (toSignal rh)) := by
  intro s hs
  obtain ⟨k, -, rfl⟩ := List.mem_map.mp hs
  exact ⟨rh, hne, rfl⟩

/-- A single equality leaves one signal, a forbidden one if there is one. -/
theorem eqSingleSimplification_spec (forbidden : SignalSet Nat) (hRed : c.c.Reduced p)
    (hxy : Equates p c x y) (hUnites : ∀ rh, Mentions [c] rh → Unites p [c] rh) :
    ∃ subs kept, eqSingleSimplification forbidden c = some (subs, kept) ∧ Renames subs ∧
      Splits p forbidden [c] subs kept := by
  obtain ⟨s₀, s₁, hSignals, hEqual⟩ := hxy.signals
  have hMem₀ : Mentions [c] s₀ := ⟨c, List.mem_cons_self, (hEqual.occurs s₀).mpr (.inl rfl)⟩
  have hMem₁ : Mentions [c] s₁ := ⟨c, List.mem_cons_self, (hEqual.occurs s₁).mpr (.inr rfl)⟩
  have hOnly : ∀ t, Mentions [c] t → t = s₀ ∨ t = s₁ := by
    rintro t ⟨c', hc', ht⟩
    rw [List.mem_singleton.mp hc'] at ht
    exact (hEqual.occurs t).mp ht
  -- one of the signals is replaced by the other
  have hReplace : ∀ k rh, Mentions [c] k → Mentions [c] rh → k ≠ rh → k ∉ forbidden →
      (∀ t, Mentions [c] t → t = rh ∨ t = k) →
      Renames ([k].map (toSignal rh)) ∧ Splits p forbidden [c] ([k].map (toSignal rh)) [] := by
    intro k rh hk hrh hne hFree hBoth
    refine ⟨renames_map ((hUnites rh hrh).constant rh hrh) [k],
      (hUnites rh hrh).splits (List.nodup_singleton k) ?_ (by simp) ?_⟩
    · intro k' hk'
      rw [List.mem_singleton.mp hk']
      exact ⟨hFree, hne, hk⟩
    · exact fun t ht => (hBoth t ht).imp_right fun hEq => .inl (List.mem_singleton.mpr hEq)
  simp only [eqSingleSimplification, hSignals, List.getElem?_cons_zero, List.getElem?_cons_succ,
    Option.bind_eq_bind, Option.bind_some, new_signal, Option.pure_def]
  split
  next hBoth =>
    refine ⟨[], [c], rfl, by simp [Renames], ?_⟩
    refine (hUnites s₁ hMem₁).splits List.nodup_nil (by simp) ?_ ?_
    · intro c' hc'
      obtain rfl := List.mem_singleton.mp hc'
      refine ⟨hRed, ?_, s₀, hMem₀, fun w _ => hEqual.holds w⟩
      intro t ht
      rcases (hEqual.occurs t).mp ht with rfl | rfl
      · exact .inr ⟨hBoth.1, hMem₀⟩
      · exact .inr ⟨hBoth.2, hMem₁⟩
    · intro t ht
      rcases hOnly t ht with rfl | rfl
      · exact .inr (.inr ⟨c, List.mem_cons_self, fun w _ => hEqual.holds w⟩)
      · exact .inl rfl
  next hBoth =>
    split
    next hForbidden =>
      exact ⟨_, [], rfl, hReplace s₁ s₀ hMem₁ hMem₀ hEqual.ne.symm
        (fun hIn => hBoth ⟨hForbidden, hIn⟩) hOnly⟩
    next hFree₀ =>
      split
      next =>
        exact ⟨_, [], rfl, hReplace s₀ s₁ hMem₀ hMem₁ hEqual.ne hFree₀
          fun t ht => (hOnly t ht).symm⟩
      next hFree₁ =>
        rcases lt_or_gt_of_ne hEqual.ne with hLess | hLess
        · rw [max_eq_right hLess.le, min_eq_left hLess.le]
          exact ⟨_, [], rfl, hReplace s₁ s₀ hMem₁ hMem₀ hEqual.ne.symm hFree₁ hOnly⟩
        · rw [max_eq_left hLess.le, min_eq_right hLess.le]
          exact ⟨_, [], rfl, hReplace s₀ s₁ hMem₀ hMem₁ hEqual.ne hFree₀
            fun t ht => (hOnly t ht).symm⟩

/-- A class of equal signals is simplified to one of them, or to equalities of the forbidden
ones. -/
theorem eqManySimplification_spec (order : HashOrder) (forbidden : SignalSet Nat)
    {constraints : List (Constraint Nat)} (hNonempty : ∃ t, Mentions constraints t)
    (hUnites : ∀ rh, Mentions constraints rh → Unites p constraints rh) :
    ∃ subs kept, eqManySimplification order forbidden p constraints = some (subs, kept) ∧
      Renames subs ∧ Splits p forbidden constraints subs kept := by
  obtain ⟨t₀, ht₀⟩ := hNonempty
  let signals := constraints.flatMap fun c => c.takeClonedSignals.toList
  have hMem : ∀ t, t ∈ signals ↔ Mentions constraints t := by
    intro t
    rw [List.mem_flatMap]
    refine exists_congr fun c => and_congr_right fun hc => ?_
    rw [Std.ExtTreeSet.mem_toList, Constraint.mem_takeClonedSignals]
    exact and_iff_right_of_imp fun ht => (hUnites t ⟨c, hc, ht⟩).constant t ⟨c, hc, ht⟩
  obtain ⟨rh, s, hrh, hIn, hRemains, hRemove, hForbidden⟩ :=
    (collected_foldl forbidden signals).rhSignal ⟨t₀, (hMem t₀).mpr ht₀⟩
  have hMentions := (hMem rh).mp hIn
  obtain ⟨kept, hKept, hAll⟩ := exists_mapM (equalSignals (p : Int) rh)
    (fun t c => Fixes p forbidden constraints rh c ∧
      ∀ w : Nat → ZMod p, w constantCoefficient = 1 → (c.Holds w ↔ w t = w rh))
    s.remains.toList (by
      intro t ht
      obtain ⟨-, hDone, hFixed⟩ := (hRemains t).mp (Std.ExtTreeSet.mem_toList.mp ht)
      exact equalSignals_spec ⟨hMentions, hForbidden ⟨t, hDone, hFixed⟩⟩
        ⟨(hMem t).mp hDone, hFixed⟩)
  have hArranged : ∀ t, t ∈ order.arrange s.remove.toList ↔ t ∈ s.remove := by
    intro t
    rw [(order.perm _).mem_iff, Std.ExtTreeSet.mem_toList]
  refine ⟨(order.arrange s.remove.toList).map (toSignal rh), kept, ?_,
    renames_map ((hUnites rh hMentions).constant rh hMentions) _, ?_⟩
  · have hSubs : (order.arrange s.remove.toList).mapM (fun signal =>
        Substitution.new signal (.signal rh)) =
          some ((order.arrange s.remove.toList).map (toSignal rh)) := List.mapM_pure
    simp only [eqManySimplification]
    rw [hrh, Option.bind_eq_bind, Option.bind_some, hKept, hSubs]
    rfl
  · refine (hUnites rh hMentions).splits
      ((order.perm _).nodup_iff.mpr (nodup_toList s.remove)) ?_ ?_ ?_
    · intro k hk
      obtain ⟨hne, hDone, hFree⟩ := (hRemove k).mp ((hArranged k).mp hk)
      exact ⟨hFree, hne, (hMem k).mp hDone⟩
    · intro c hc
      obtain ⟨t, -, hFixes, -⟩ := exists_item hAll hc
      exact hFixes
    · intro t ht
      by_cases hEq : t = rh
      · exact .inl hEq
      by_cases hFixed : t ∈ forbidden
      · have hStays := (hRemains t).mpr ⟨hEq, (hMem t).mpr ht, hFixed⟩
        obtain ⟨c, hc, -, hHolds⟩ := exists_result hAll (Std.ExtTreeSet.mem_toList.mpr hStays)
        exact .inr (.inr ⟨c, hc, hHolds⟩)
      · exact .inr (.inl ((hArranged t).mpr ((hRemove t).mpr ⟨hEq, (hMem t).mpr ht, hFixed⟩)))

/-- All clusters of equalities. -/
theorem eqSimplification_spec (order : HashOrder) (hZero : constantCoefficient ∈ forbidden)
    {equalities : List (Constraint Nat)} {noVars : Nat}
    (hLinear : ∀ c ∈ equalities, c.Linear p) (hEquality : ∀ c ∈ equalities, ∃ x y, Equates p c x y)
    (hVars : ∀ c ∈ equalities, ∀ t, c.Occurs t → t < noVars) :
    ∃ subs cons, Settles (fun fuel => eqSimplification order fuel equalities forbidden noVars p)
        (subs, cons) ∧ Renames subs ∧ Splits p forbidden equalities subs cons := by
  obtain ⟨clusters, hClusters, hClasses⟩ := exists_classes order hVars
  obtain ⟨results, hResults, hAll⟩ := exists_mapM
    (eqClusterSimplification order forbidden (p : Int))
    (fun cluster result => Renames result.1 ∧
      Splits p forbidden cluster.constraints result.1 result.2) clusters (by
      intro cluster hIn
      have hMem : ∀ c ∈ cluster.constraints, c ∈ equalities := by
        intro c hc
        exact List.mem_of_mem_filter
          (hClasses.perm.mem_iff.mp (List.mem_flatMap.mpr ⟨cluster, hIn, hc⟩))
      have hUnites : ∀ rh, Mentions cluster.constraints rh → Unites p cluster.constraints rh :=
        fun rh hrh => hClasses.unites hEquality hIn hrh
      rw [eqClusterSimplification]
      split
      next hSize =>
        obtain ⟨c, hSingle⟩ := List.length_eq_one_iff.mp hSize
        rw [hSingle] at hMem hUnites ⊢
        have hc := hMem c List.mem_cons_self
        obtain ⟨x, y, hxy⟩ := hEquality c hc
        obtain ⟨subs, kept, hOk, hRest⟩ := eqSingleSimplification_spec forbidden
          (hLinear c hc).toReduced hxy hUnites
        exact ⟨(subs, kept), hOk, hRest⟩
      next =>
        obtain ⟨c, hc⟩ := List.exists_mem_of_ne_nil _ (hClasses.nonempty cluster hIn)
        obtain ⟨x, y, hxy⟩ := hEquality c (hMem c hc)
        obtain ⟨subs, kept, hOk, hRest⟩ := eqManySimplification_spec order forbidden
          ⟨x, c, hc, (hxy.occurs x).mpr (.inl rfl)⟩ hUnites
        exact ⟨(subs, kept), hOk, hRest⟩)
  have hSplits := Splits.of_classes hClasses hZero (hAll.imp fun _ _ h => h.2)
  -- the results of the clusters, in the order in which they arrive
  let tagged := clusters.zip results
  let arrived := (tagged.filter fun result => result.1.size = 1) ++
    order.arrange (tagged.filter fun result => ! decide (result.1.size = 1))
  have hZip : tagged.map Prod.snd = results :=
    List.map_snd_zip hAll.length_eq.ge
  have hArrived : (arrived.map Prod.snd).Perm results := by
    rw [← hZip]
    exact (((order.perm _).append_left _).trans (List.filter_append_perm _ tagged)).map Prod.snd
  have hSubs : (arrived.flatMap fun result => result.2.1) =
      (arrived.map Prod.snd).flatMap Prod.fst := by
    rw [List.flatMap_map]
  have hBody : ∀ fuel, eqSimplification order fuel equalities forbidden noVars (p : Int) =
      (buildClusters order fuel equalities noVars).bind fun clusters =>
        (clusters.mapM (eqClusterSimplification order forbidden (p : Int))).bind fun results =>
          some ((((clusters.zip results).filter fun result => result.1.size = 1) ++
            order.arrange ((clusters.zip results).filter fun result =>
              ! decide (result.1.size = 1))).flatMap (fun result => result.2.1),
            results.flatMap Prod.snd) := by
    intro fuel
    simp only [eqSimplification, List.partition_eq_filter_filter]
    rfl
  refine ⟨_, _, (hClusters.bind (settles_of_eq fun _ => by
    rw [hResults, Option.bind_some])).congr hBody, ?_, ?_⟩
  · intro s hs
    obtain ⟨result, hResult, hs⟩ := List.mem_flatMap.mp (hSubs ▸ hs)
    obtain ⟨cluster, -, hRenames, -⟩ := exists_item hAll (hArrived.mem_iff.mp hResult)
    exact hRenames s hs
  · exact hSplits.perm (List.Perm.refl _) (hSubs ▸ (hArrived.flatMap_right _).symm)
      (List.Perm.refl _)

end Ganc.Circom
