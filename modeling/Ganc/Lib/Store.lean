import Mathlib.Algebra.BigOperators.Group.List.Basic
import Mathlib.Algebra.Order.Ring.Int
import Mathlib.Algebra.Order.BigOperators.Group.List
import Mathlib.Data.Fintype.EquivFin
import Mathlib.Data.List.Nodup

/-!
# Ordered key-value stores

A store is a finite map iterated in the order of its keys. `Std.ExtTreeMap`
supplies the map, its look-up lemmas and extensionality; this module adds
what invariants over all entries of a store need: `total f m`, the sum of a
per-entry amount, and how one write changes it; `AgreeOn P m m'`, stores that
may differ but not in the entries whose value is in `P`; `eraseAll`, a list of
removals; and `keyed`, the store of a list of values under their own keys.
-/

/-- A finite map from `κ` to `ν`, iterated in key order. -/
abbrev Store (κ ν : Type) [Ord κ] := Std.ExtTreeMap κ ν compare

namespace Store

variable {κ ν M : Type} [Ord κ] [Std.TransOrd κ] [Std.LawfulEqOrd κ]

-- ---------------------------------------------------------------------------
-- Look-up after a write
-- ---------------------------------------------------------------------------

theorem get?_insert [DecidableEq κ] (m : Store κ ν) (k a : κ) (v : ν) :
    (m.insert k v)[a]? = if a = k then some v else m[a]? := by
  simp only [Std.ExtTreeMap.getElem?_insert, Std.compare_eq_iff_eq, eq_comm (a := a)]

/-- A write leaves what is stored at a key stored, or stores something else there. -/
theorem exists_get?_insert [DecidableEq κ] {m : Store κ ν} {a : κ} (k : κ) (v : ν)
    (h : ∃ w, m[a]? = some w) : ∃ w, (m.insert k v)[a]? = some w := by
  rw [get?_insert]
  split
  · exact ⟨v, rfl⟩
  · exact h

theorem get?_erase [DecidableEq κ] (m : Store κ ν) (k a : κ) :
    (m.erase k)[a]? = if a = k then none else m[a]? := by
  simp only [Std.ExtTreeMap.getElem?_erase, Std.compare_eq_iff_eq, eq_comm (a := a)]

theorem get?_insert_ne {m : Store κ ν} {k a : κ} {v : ν} (h : a ≠ k) :
    (m.insert k v)[a]? = m[a]? := by
  classical
  rw [get?_insert, if_neg h]

theorem get?_erase_ne {m : Store κ ν} {k a : κ} (h : a ≠ k) :
    (m.erase k)[a]? = m[a]? := by
  classical
  rw [get?_erase, if_neg h]

/-- Overwriting an entry by a function of its old value. -/
theorem get?_update [DecidableEq κ] {m : Store κ ν} {k : κ} {v : ν} (f : ν → ν)
    (h : m[k]? = some v) (a : κ) :
    (m.insert k (f v))[a]? = m[a]?.map fun w => if a = k then f w else w := by
  rw [get?_insert]
  split
  next hEq =>
    rw [hEq, h]
    rfl
  next => exact Option.map_id_apply.symm

/-- What is left after an erasure was there before, at another key. -/
theorem get?_of_erase {m : Store κ ν} {k a : κ} {v : ν} (h : (m.erase k)[a]? = some v) :
    a ≠ k ∧ m[a]? = some v := by
  classical
  rw [get?_erase] at h
  split at h
  · cases h
  · exact ⟨‹_›, h⟩

omit [Std.LawfulEqOrd κ] in
theorem mem_iff {m : Store κ ν} {k : κ} : k ∈ m ↔ ∃ v, m[k]? = some v := by
  rw [Std.ExtTreeMap.mem_iff_isSome_getElem?, Option.isSome_iff_exists]

omit [Std.LawfulEqOrd κ] in
theorem notMem_iff {m : Store κ ν} {k : κ} : k ∉ m ↔ m[k]? = none := by
  rw [Std.ExtTreeMap.mem_iff_isSome_getElem?, Bool.not_eq_true, Option.isSome_eq_false_iff,
    Option.isNone_iff_eq_none]

theorem mem_insert {m : Store κ ν} {k a : κ} {v : ν} : a ∈ m.insert k v ↔ a = k ∨ a ∈ m := by
  rw [Std.ExtTreeMap.mem_insert, Std.compare_eq_iff_eq, eq_comm]

theorem mem_erase {m : Store κ ν} {k a : κ} : a ∈ m.erase k ↔ a ≠ k ∧ a ∈ m := by
  rw [Std.ExtTreeMap.mem_erase, ne_eq, Std.compare_eq_iff_eq, eq_comm]

theorem mem_toList {m : Store κ ν} {kv : κ × ν} : kv ∈ m.toList ↔ m[kv.1]? = some kv.2 :=
  Std.ExtTreeMap.mem_toList_iff_getElem?_eq_some

/-- Over infinitely many keys there is always one that is not in use. -/
theorem exists_notMem [Infinite κ] (m : Store κ ν) (avoid : List κ) : ∃ k, k ∉ m ∧ k ∉ avoid := by
  classical
  obtain ⟨k, hk⟩ := Infinite.exists_notMem_finset (m.keys ++ avoid).toFinset
  rw [List.mem_toFinset, List.mem_append, not_or, Std.ExtTreeMap.mem_keys] at hk
  exact ⟨k, hk⟩

/-- No key is listed twice. -/
theorem nodup_keys_toList (m : Store κ ν) : (m.toList.map Prod.fst).Nodup := by
  rw [List.Nodup, List.pairwise_map]
  refine List.Pairwise.imp ?_ (Std.ExtTreeMap.distinct_keys_toList (t := m))
  rintro a b hab hEq
  exact hab (by rw [hEq]; exact Std.ReflCmp.compare_self)

theorem nodup_toList (m : Store κ ν) : m.toList.Nodup := by
  exact List.Nodup.of_map Prod.fst (nodup_keys_toList m)

-- ---------------------------------------------------------------------------
-- The entries after a write
-- ---------------------------------------------------------------------------

/-- A new entry is listed besides the old ones. -/
theorem toList_insert_perm {m : Store κ ν} {k : κ} (v : ν) (h : m[k]? = none) :
    (m.insert k v).toList.Perm ((k, v) :: m.toList) := by
  have hk : (k, v) ∉ m.toList := fun hm => by simp [mem_toList, h] at hm
  classical
  rw [List.perm_ext_iff_of_nodup (nodup_toList _) (List.nodup_cons.mpr ⟨hk, nodup_toList _⟩)]
  rintro ⟨a, b⟩
  rw [mem_toList, List.mem_cons, mem_toList, get?_insert]
  by_cases ha : a = k
  · subst ha
    simp [h, eq_comm]
  · simp [ha]

/-- The erased entry is the one that the list loses. -/
theorem toList_erase_perm {m : Store κ ν} {k : κ} {v : ν} (h : m[k]? = some v) :
    m.toList.Perm ((k, v) :: (m.erase k).toList) := by
  classical
  have hins : (m.erase k).insert k v = m := by
    refine Std.ExtTreeMap.ext_getElem? ?_
    intro a
    rw [get?_insert, get?_erase]
    by_cases ha : a = k
    · subst ha
      simp [h]
    · simp [ha]
  have hPerm := toList_insert_perm v (Std.ExtTreeMap.getElem?_erase_self (t := m) (k := k))
  rwa [hins] at hPerm

/-- Erasing an absent key changes nothing. -/
theorem erase_of_get?_none {m : Store κ ν} {k : κ} (h : m[k]? = none) : m.erase k = m := by
  classical
  refine Std.ExtTreeMap.ext_getElem? ?_
  intro a
  rw [get?_erase]
  split
  · rw [‹a = k›, h]
  · rfl

/-- An entry that is written over may be erased first. -/
theorem insert_erase (m : Store κ ν) (k : κ) (v : ν) :
    (m.erase k).insert k v = m.insert k v := by
  classical
  refine Std.ExtTreeMap.ext_getElem? ?_
  intro a
  rw [get?_insert, get?_insert, get?_erase]
  split <;> simp_all

/-- Writes under different keys commute. -/
theorem insert_comm {m : Store κ ν} {k k' : κ} (v v' : ν) (hne : k ≠ k') :
    (m.insert k v).insert k' v' = (m.insert k' v').insert k v := by
  classical
  refine Std.ExtTreeMap.ext_getElem? ?_
  intro a
  rw [get?_insert, get?_insert, get?_insert, get?_insert]
  by_cases ha : a = k
  · subst ha
    simp [hne]
  · simp [ha]

-- ---------------------------------------------------------------------------
-- A list of writes
-- ---------------------------------------------------------------------------

omit [Std.LawfulEqOrd κ] in
theorem insertMany_cons (m : Store κ ν) (kv : κ × ν) (kvs : List (κ × ν)) :
    m.insertMany (kv :: kvs) = (m.insert kv.1 kv.2).insertMany kvs :=
  Std.ExtTreeMap.insertMany_cons

/-- Where an entry comes from. -/
theorem get?_of_insertMany {m : Store κ ν} {kvs : List (κ × ν)} {k : κ} {v : ν}
    (h : (m.insertMany kvs)[k]? = some v) :
    (k, v) ∈ kvs ∨ (k ∉ kvs.map Prod.fst ∧ m[k]? = some v) := by
  classical
  induction kvs generalizing m with
  | nil => exact .inr ⟨List.not_mem_nil, h⟩
  | cons kv kvs ih =>
    obtain ⟨a, w⟩ := kv
    rw [insertMany_cons] at h
    rcases ih h with hMem | ⟨hNot, hOld⟩
    · exact .inl (List.mem_cons_of_mem _ hMem)
    rw [get?_insert] at hOld
    split at hOld
    next hk =>
      obtain rfl := hk
      obtain rfl := Option.some.inj hOld
      exact .inl (List.mem_cons_self ..)
    next hne => exact .inr ⟨by simpa [hne] using hNot, hOld⟩

/-- Keys that are not written keep their values. -/
theorem get?_insertMany_of_notMem {m : Store κ ν} {kvs : List (κ × ν)} {k : κ}
    (h : k ∉ kvs.map Prod.fst) : (m.insertMany kvs)[k]? = m[k]? := by
  induction kvs generalizing m with
  | nil => rfl
  | cons kv kvs ih =>
    rw [List.map_cons, List.mem_cons, not_or] at h
    rw [insertMany_cons, ih h.2, get?_insert_ne h.1]

/-- With no key twice, every pair that is written is found. -/
theorem get?_insertMany_of_mem {m : Store κ ν} {kvs : List (κ × ν)} {k : κ} {v : ν}
    (hNodup : (kvs.map Prod.fst).Nodup) (h : (k, v) ∈ kvs) :
    (m.insertMany kvs)[k]? = some v := by
  induction kvs generalizing m with
  | nil => exact absurd h List.not_mem_nil
  | cons kv kvs ih =>
    rw [List.map_cons, List.nodup_cons] at hNodup
    rw [insertMany_cons]
    rcases List.mem_cons.mp h with rfl | hMem
    · rw [get?_insertMany_of_notMem hNodup.1, Std.ExtTreeMap.getElem?_insert_self]
    · exact ih hNodup.2 hMem

theorem get?_insertMany_const [DecidableEq κ] (m : Store κ ν) (ks : List κ) (v : ν) (a : κ) :
    (m.insertMany (ks.map fun k => (k, v)))[a]? = if a ∈ ks then some v else m[a]? := by
  induction ks generalizing m with
  | nil => rfl
  | cons k ks ih =>
    rw [List.map_cons, insertMany_cons, ih, get?_insert]
    by_cases hMem : a ∈ ks <;> by_cases hEq : a = k <;> simp [hMem, hEq]

/-- New keys add their entries. -/
theorem toList_insertMany_perm {m : Store κ ν} {kvs : List (κ × ν)}
    (hNodup : (kvs.map Prod.fst).Nodup) (hFresh : ∀ k ∈ kvs.map Prod.fst, k ∉ m) :
    (m.insertMany kvs).toList.Perm (kvs ++ m.toList) := by
  induction kvs generalizing m with
  | nil => exact .refl _
  | cons kv kvs ih =>
    rw [List.map_cons, List.nodup_cons] at hNodup
    have hHead : m[kv.1]? = none := notMem_iff.mp (hFresh kv.1 List.mem_cons_self)
    have hTail : ∀ k ∈ kvs.map Prod.fst, k ∉ m.insert kv.1 kv.2 := by
      intro k hk hIn
      rcases mem_insert.mp hIn with rfl | hOld
      · exact hNodup.1 hk
      · exact hFresh k (List.mem_cons_of_mem _ hk) hOld
    rw [insertMany_cons]
    refine (ih hNodup.2 hTail).trans ?_
    refine ((toList_insert_perm kv.2 hHead).append_left kvs).trans ?_
    exact List.perm_middle

/-- A write under a key that a list of writes leaves alone commutes with it. -/
theorem insertMany_insert {m : Store κ ν} {kvs : List (κ × ν)} {k : κ} (v : ν)
    (h : k ∉ kvs.map Prod.fst) :
    (m.insert k v).insertMany kvs = (m.insertMany kvs).insert k v := by
  induction kvs generalizing m with
  | nil => rfl
  | cons kv kvs ih =>
    rw [List.map_cons, List.mem_cons, not_or] at h
    rw [insertMany_cons, insertMany_cons, insert_comm v kv.2 h.1, ih h.2]

omit [Std.LawfulEqOrd κ] in
/-- Writing values one after the other, each under a key of its own. -/
theorem foldl_insert (f : ν → κ) (m : Store κ ν) (vs : List ν) :
    vs.foldl (fun m v => m.insert (f v) v) m = m.insertMany (vs.map fun v => (f v, v)) := by
  induction vs generalizing m with
  | nil => rfl
  | cons v vs ih => rw [List.foldl_cons, ih, List.map_cons, insertMany_cons]

/-- The values of a store, written under the keys that `f` reads off them, make
the store again exactly when `f` reads off each value the key it is stored under. -/
theorem rebuild_eq_iff {f : ν → κ} {m : Store κ ν} :
    (m.toList.map Prod.snd).foldl (fun m v => m.insert (f v) v) ∅ = m ↔
      ∀ k v, m[k]? = some v → f v = k := by
  rw [foldl_insert, List.map_map]
  constructor
  · intro h k v hv
    rw [← h] at hv
    rcases get?_of_insertMany hv with hMem | ⟨-, hEmpty⟩
    · obtain ⟨kv, -, hEq⟩ := List.mem_map.mp hMem
      obtain ⟨rfl, rfl⟩ := Prod.mk.inj hEq
      rfl
    · simp at hEmpty
  · intro h
    have hSame : m.toList.map ((fun v => (f v, v)) ∘ Prod.snd) = m.toList := by
      refine (List.map_congr_left ?_).trans (List.map_id _)
      intro kv hkv
      exact Prod.ext (h kv.1 kv.2 (mem_toList.mp hkv)) rfl
    rw [hSame]
    refine Std.ExtTreeMap.ext_getElem? ?_
    intro k
    cases hv : m[k]? with
    | some v => exact get?_insertMany_of_mem (nodup_keys_toList m) (mem_toList.mpr hv)
    | none =>
      have hNot : k ∉ m.toList.map Prod.fst := by
        intro hMem
        obtain ⟨kv, hkv, rfl⟩ := List.mem_map.mp hMem
        rw [mem_toList.mp hkv] at hv
        cases hv
      rw [get?_insertMany_of_notMem hNot]
      simp

theorem mem_insertMany {m : Store κ ν} {kvs : List (κ × ν)} {k : κ} :
    k ∈ m.insertMany kvs ↔ k ∈ kvs.map Prod.fst ∨ k ∈ m := by
  induction kvs generalizing m with
  | nil => simp
  | cons kv kvs ih =>
    rw [insertMany_cons, ih, mem_insert, List.map_cons, List.mem_cons, or_left_comm, or_assoc]

omit [Std.LawfulEqOrd κ] in
theorem size_insert_of_mem {m : Store κ ν} {k : κ} {v : ν} (h : k ∈ m) :
    (m.insert k v).size = m.size := by
  rw [Std.ExtTreeMap.size_insert, if_pos (Std.ExtTreeMap.contains_iff_mem.mpr h)]

omit [Std.LawfulEqOrd κ] in
theorem size_insert_of_notMem {m : Store κ ν} {k : κ} {v : ν} (h : k ∉ m) :
    (m.insert k v).size = m.size + 1 := by
  rw [Std.ExtTreeMap.size_insert, if_neg (mt Std.ExtTreeMap.contains_iff_mem.mp h)]

omit [Std.LawfulEqOrd κ] in
/-- Each pair adds at most one entry. -/
theorem size_insertMany_le (m : Store κ ν) (kvs : List (κ × ν)) :
    (m.insertMany kvs).size ≤ m.size + kvs.length := by
  induction kvs generalizing m with
  | nil => exact le_refl _
  | cons kv kvs ih =>
    have hRest := ih (m.insert kv.1 kv.2)
    have hOne := Std.ExtTreeMap.size_insert_le (t := m) (k := kv.1) (v := kv.2)
    rw [insertMany_cons, List.length_cons]
    omega

/-- A list of writes adds as many entries as it is long exactly when no write
falls on an entry that is there already. -/
theorem size_insertMany_eq_iff (m : Store κ ν) (kvs : List (κ × ν)) :
    (m.insertMany kvs).size = m.size + kvs.length ↔
      (kvs.map Prod.fst).Nodup ∧ ∀ k ∈ kvs.map Prod.fst, k ∉ m := by
  induction kvs generalizing m with
  | nil => simp
  | cons kv kvs ih =>
    rw [insertMany_cons, List.length_cons, List.map_cons, List.nodup_cons, List.forall_mem_cons]
    by_cases hMem : kv.1 ∈ m
    · have hSame : (m.insert kv.1 kv.2).size = m.size := size_insert_of_mem hMem
      have hLe := size_insertMany_le (m.insert kv.1 kv.2) kvs
      refine iff_of_false (by omega) ?_
      intro h
      exact h.2.1 hMem
    · have hGrown : (m.insert kv.1 kv.2).size = m.size + 1 := size_insert_of_notMem hMem
      rw [show m.size + (kvs.length + 1) = (m.insert kv.1 kv.2).size + kvs.length by omega, ih]
      constructor
      · rintro ⟨hNodup, hFresh⟩
        refine ⟨⟨?_, hNodup⟩, hMem, ?_⟩
        · intro hIn
          exact hFresh kv.1 hIn (mem_insert.mpr (.inl rfl))
        · intro k hk hOld
          exact hFresh k hk (mem_insert.mpr (.inr hOld))
      · rintro ⟨⟨hNotMem, hNodup⟩, -, hFresh⟩
        refine ⟨hNodup, ?_⟩
        intro k hk hIn
        rcases mem_insert.mp hIn with rfl | hOld
        · exact hNotMem hk
        · exact hFresh k hk hOld

-- ---------------------------------------------------------------------------
-- Values stored each under a key of its own
-- ---------------------------------------------------------------------------

section Keyed

variable {f : ν → κ} {vs : List ν}

/-- The store filled from a list of values, each under the key `f` reads off it. -/
abbrev keyed (f : ν → κ) (vs : List ν) : Store κ ν :=
  (∅ : Store κ ν).insertMany (vs.map fun v => (f v, v))

/-- What is found was in the list, under its own key. -/
theorem of_get?_keyed {k : κ} {v : ν} (h : (keyed f vs)[k]? = some v) : v ∈ vs ∧ f v = k := by
  rcases get?_of_insertMany h with hMem | ⟨-, hEmpty⟩
  · obtain ⟨w, hw, hEq⟩ := List.mem_map.mp hMem
    obtain ⟨hKey, rfl⟩ := Prod.mk.inj hEq
    exact ⟨hw, hKey⟩
  · simp at hEmpty

/-- The entries of a store that was filled from a list of values with different
keys. -/
theorem get?_keyed_iff (hNodup : (vs.map f).Nodup) {k : κ} {v : ν} :
    (keyed f vs)[k]? = some v ↔ v ∈ vs ∧ f v = k := by
  constructor
  · exact of_get?_keyed
  · rintro ⟨hv, rfl⟩
    refine get?_insertMany_of_mem ?_ (List.mem_map.mpr ⟨v, hv, rfl⟩)
    rwa [List.map_map]

/-- Values that carry their keys give the keys of the store. -/
theorem map_values {m : Store κ ν} (h : ∀ k v, m[k]? = some v → f v = k) :
    (m.toList.map Prod.snd).map f = m.toList.map Prod.fst := by
  rw [List.map_map]
  exact List.map_congr_left fun kv hkv => h kv.1 kv.2 (mem_toList.mp hkv)

/-- Read back, the values stand in the order of their keys. -/
theorem pairwise_values_keyed (f : ν → κ) (vs : List ν) :
    ((keyed f vs).toList.map Prod.snd).Pairwise fun v w => compare (f v) (f w) = .lt := by
  have hKeys := map_values (m := keyed f vs) fun _ _ h => (of_get?_keyed h).2
  rw [← List.pairwise_map (R := fun k k' => compare k k' = .lt), hKeys, List.pairwise_map]
  exact Std.ExtTreeMap.ordered_keys_toList

/-- No value is kept twice. -/
theorem nodup_values_keyed (f : ν → κ) (vs : List ν) :
    ((keyed f vs).toList.map Prod.snd).Nodup := by
  have hKeys := map_values (m := keyed f vs) fun _ _ h => (of_get?_keyed h).2
  refine List.Nodup.of_map f ?_
  rw [hKeys]
  exact nodup_keys_toList _

/-- Every value that is kept was in the list. -/
theorem mem_of_mem_values_keyed {v : ν} (h : v ∈ (keyed f vs).toList.map Prod.snd) : v ∈ vs := by
  obtain ⟨kv, hkv, rfl⟩ := List.mem_map.mp h
  exact (of_get?_keyed (mem_toList.mp hkv)).1

/-- The values come back all and unrepeated exactly when their keys are different. -/
theorem values_keyed_perm_iff :
    ((keyed f vs).toList.map Prod.snd).Perm vs ↔ (vs.map f).Nodup := by
  constructor
  · intro hPerm
    have hKeys := map_values (m := keyed f vs) fun _ _ h => (of_get?_keyed h).2
    refine (hPerm.map f).nodup_iff.mp ?_
    rw [hKeys]
    exact nodup_keys_toList _
  · intro hNodup
    refine (List.perm_ext_iff_of_nodup (nodup_values_keyed f vs) (hNodup.of_map f)).mpr ?_
    intro v
    refine ⟨mem_of_mem_values_keyed, ?_⟩
    intro hv
    exact List.mem_map.mpr ⟨(f v, v), mem_toList.mpr ((get?_keyed_iff hNodup).mpr ⟨hv, rfl⟩), rfl⟩

/-- When they do not, one of them is lost. -/
theorem values_keyed_lost_iff [DecidableEq ν] :
    (∃ v ∈ vs, ((keyed f vs).toList.map Prod.snd).count v < vs.count v) ↔
      ¬ (vs.map f).Nodup := by
  rw [← values_keyed_perm_iff]
  constructor
  · rintro ⟨v, -, hLost⟩ hPerm
    exact absurd (hPerm.count_eq v) hLost.ne
  · intro hNotPerm
    by_contra hKept
    push Not at hKept
    refine hNotPerm (List.perm_iff_count.mpr ?_)
    intro v
    by_cases hv : v ∈ vs
    · have hBack : ((keyed f vs).toList.map Prod.snd).count v ≤ 1 :=
        List.nodup_iff_count_le_one.mp (nodup_values_keyed f vs) v
      have hGiven := List.one_le_count_iff.mpr hv
      have := hKept v hv
      omega
    · rw [List.count_eq_zero.mpr hv, List.count_eq_zero.mpr (mt mem_of_mem_values_keyed hv)]

end Keyed

-- ---------------------------------------------------------------------------
-- A list of removals
-- ---------------------------------------------------------------------------

/-- Removes what is stored under the keys, one after the other. -/
def eraseAll (m : Store κ ν) (ks : List κ) : Store κ ν := ks.foldl (fun m k => m.erase k) m

omit [Std.LawfulEqOrd κ] in
theorem eraseAll_cons (m : Store κ ν) (k : κ) (ks : List κ) :
    m.eraseAll (k :: ks) = eraseAll (m.erase k) ks := rfl

omit [Std.LawfulEqOrd κ] in
theorem eraseAll_append (m : Store κ ν) (ks ks' : List κ) :
    m.eraseAll (ks ++ ks') = (m.eraseAll ks).eraseAll ks' :=
  List.foldl_append

/-- Exactly the listed keys are gone. -/
theorem get?_eraseAll [DecidableEq κ] (m : Store κ ν) (ks : List κ) (a : κ) :
    (m.eraseAll ks)[a]? = if a ∈ ks then none else m[a]? := by
  induction ks generalizing m with
  | nil => rfl
  | cons k ks ih =>
    rw [eraseAll_cons, ih, get?_erase]
    by_cases hMem : a ∈ ks <;> by_cases hEq : a = k <;> simp [hMem, hEq]

/-- The entries that stay keep their order. -/
theorem toList_eraseAll [DecidableEq κ] (m : Store κ ν) (ks : List κ) :
    (m.eraseAll ks).toList = m.toList.filter fun kv => kv.1 ∉ ks := by
  have hFilter : m.eraseAll ks = m.filter fun k _ => k ∉ ks := by
    refine Std.ExtTreeMap.ext_getElem? ?_
    intro a
    rw [get?_eraseAll, Std.ExtTreeMap.getElem?_filter']
    refine Option.ext ?_
    intro v
    by_cases hMem : a ∈ ks <;> simp [hMem, Option.filter_eq_some_iff]
  rw [hFilter, Std.ExtTreeMap.toList_filter]

omit [Ord κ] [Std.TransOrd κ] [Std.LawfulEqOrd κ] in
/-- Of entries under different keys, the ones whose keys are not among the first `n`. -/
theorem filter_notMem_take [DecidableEq κ] {kvs : List (κ × ν)} (h : (kvs.map Prod.fst).Nodup)
    (n : Nat) : (kvs.filter fun kv => kv.1 ∉ (kvs.take n).map Prod.fst) = kvs.drop n := by
  have hFirst : ∀ kv ∈ kvs.take n, ¬ (decide (kv.1 ∉ (kvs.take n).map Prod.fst) = true) := by
    intro kv hkv hNot
    exact of_decide_eq_true hNot (List.mem_map_of_mem hkv)
  have hRest : ∀ kv ∈ kvs.drop n, decide (kv.1 ∉ (kvs.take n).map Prod.fst) = true := by
    intro kv hkv
    rw [← List.take_append_drop n kvs, List.map_append, List.nodup_append] at h
    refine decide_eq_true ?_
    exact fun hMem => h.2.2 _ hMem _ (List.mem_map_of_mem hkv) rfl
  conv_lhs => rw [← List.take_append_drop n kvs]
  rw [List.filter_append]
  simp only [List.take_append_drop]
  rw [List.filter_eq_nil_iff.mpr hFirst, List.filter_eq_self.mpr hRest, List.nil_append]

-- ---------------------------------------------------------------------------
-- Stores that agree on a class of values
-- ---------------------------------------------------------------------------

/-- The two stores have the same entries with a value in `P`. -/
def AgreeOn (P : ν → Prop) (m m' : Store κ ν) : Prop :=
  ∀ (k : κ) (v : ν), P v → (m[k]? = some v ↔ m'[k]? = some v)

section AgreeOn

variable {P : ν → Prop} {m m' m'' : Store κ ν}

omit [Std.LawfulEqOrd κ] in
theorem AgreeOn.refl (m : Store κ ν) : AgreeOn P m m := fun _ _ _ => Iff.rfl

omit [Std.LawfulEqOrd κ] in
theorem AgreeOn.symm (h : AgreeOn P m m') : AgreeOn P m' m :=
  fun k v hv => (h k v hv).symm

omit [Std.LawfulEqOrd κ] in
theorem AgreeOn.trans (h : AgreeOn P m m') (h' : AgreeOn P m' m'') : AgreeOn P m m'' :=
  fun k v hv => (h k v hv).trans (h' k v hv)

/-- The same write to both. -/
theorem AgreeOn.insert (h : AgreeOn P m m') (k : κ) (v : ν) :
    AgreeOn P (m.insert k v) (m'.insert k v) := by
  classical
  intro a w hw
  rw [get?_insert, get?_insert]
  split
  · exact Iff.rfl
  · exact h a w hw

/-- Erasing a key on both sides keeps the agreement. -/
theorem AgreeOn.erase (h : AgreeOn P m m') (k : κ) : AgreeOn P (m.erase k) (m'.erase k) := by
  classical
  intro a w hw
  rw [get?_erase, get?_erase]
  split
  · exact Iff.rfl
  · exact h a w hw

/-- A write that neither overwrites a value in `P` nor stores one. -/
theorem agreeOn_insert {k : κ} {v : ν} (hOld : ∀ w, m[k]? = some w → ¬ P w) (hNew : ¬ P v) :
    AgreeOn P m (m.insert k v) := by
  classical
  intro a w hw
  rw [get?_insert]
  split
  next hKey =>
    subst hKey
    refine iff_of_false (fun hStored => hOld w hStored hw) ?_
    intro hEq
    exact hNew (Option.some.inj hEq ▸ hw)
  next => exact Iff.rfl

/-- Erasing an entry that the agreement ignores keeps it. -/
theorem agreeOn_erase {k : κ} (hOld : ∀ w, m[k]? = some w → ¬ P w) : AgreeOn P m (m.erase k) := by
  classical
  intro a w hw
  rw [get?_erase]
  split
  next hKey =>
    subst hKey
    exact iff_of_false (fun hStored => hOld w hStored hw) (by simp)
  next => exact Iff.rfl

/-- Stores that agree on every class of values are equal. -/
theorem eq_of_agreeOn {α : Type} {f : ν → α} (h : ∀ a, AgreeOn (fun v => f v = a) m m') :
    m = m' := by
  refine Std.ExtTreeMap.ext_getElem? ?_
  intro a
  refine Option.ext ?_
  intro v
  exact h (f v) a v rfl

/-- The entries of the class come in the same order. -/
theorem AgreeOn.filter_toList [DecidablePred P] (h : AgreeOn P m m') :
    (m.toList.filter fun kv => P kv.2) = m'.toList.filter fun kv => P kv.2 := by
  have hFilter : m.filter (fun _ v => P v) = m'.filter (fun _ v => P v) := by
    refine Std.ExtTreeMap.ext_getElem? ?_
    intro a
    rw [Std.ExtTreeMap.getElem?_filter', Std.ExtTreeMap.getElem?_filter']
    refine Option.ext ?_
    intro v
    simp only [Option.filter_eq_some_iff, decide_eq_true_eq]
    exact ⟨fun ⟨hv, hP⟩ => ⟨(h a v hP).mp hv, hP⟩, fun ⟨hv, hP⟩ => ⟨(h a v hP).mpr hv, hP⟩⟩
  have hLists := congrArg Std.ExtTreeMap.toList hFilter
  rwa [Std.ExtTreeMap.toList_filter, Std.ExtTreeMap.toList_filter] at hLists

end AgreeOn

-- ---------------------------------------------------------------------------
-- Sums over all entries
-- ---------------------------------------------------------------------------

/-- The sum of `f` over all entries. -/
def total [AddCommMonoid M] (f : κ → ν → M) (m : Store κ ν) : M :=
  (m.toList.map fun kv => f kv.1 kv.2).sum

section Total

variable [AddCommMonoid M] (f : κ → ν → M)

omit [Std.LawfulEqOrd κ] in
theorem total_empty : total f (∅ : Store κ ν) = 0 := by
  have h : (∅ : Store κ ν).toList = [] := Std.ExtTreeMap.toList_eq_nil_iff.mpr rfl
  rw [total, h]
  rfl

/-- A new entry adds its weight. -/
theorem total_insert_of_fresh {m : Store κ ν} {k : κ} (v : ν) (h : m[k]? = none) :
    total f (m.insert k v) = f k v + total f m := by
  have hPerm := (toList_insert_perm v h).map fun kv => f kv.1 kv.2
  rw [total, hPerm.sum_eq, List.map_cons, List.sum_cons, total]

/-- An erased entry takes its weight away. -/
theorem total_erase {m : Store κ ν} {k : κ} {v : ν} (h : m[k]? = some v) :
    f k v + total f (m.erase k) = total f m := by
  have hPerm := (toList_erase_perm h).map fun kv => f kv.1 kv.2
  rw [total, total, hPerm.sum_eq, List.map_cons, List.sum_cons]

/-- Overwriting an entry trades its old amount for the new one. -/
theorem total_insert_of_some {m : Store κ ν} {k : κ} {v : ν} (w : ν) (h : m[k]? = some v) :
    f k v + total f (m.insert k w) = f k w + total f m := by
  rw [← insert_erase, total_insert_of_fresh f w Std.ExtTreeMap.getElem?_erase_self,
    ← total_erase f h]
  exact add_left_comm _ _ _

/-- Writing entries under new keys adds their amounts. -/
theorem total_insertMany_of_fresh {m : Store κ ν} {kvs : List (κ × ν)}
    (hNodup : (kvs.map Prod.fst).Nodup) (hFresh : ∀ k ∈ kvs.map Prod.fst, m[k]? = none) :
    total f (m.insertMany kvs) = (kvs.map fun kv => f kv.1 kv.2).sum + total f m := by
  induction kvs generalizing m with
  | nil => simp
  | cons kv kvs ih =>
    rw [List.map_cons, List.nodup_cons] at hNodup
    have hHead : m[kv.1]? = none := hFresh kv.1 (List.mem_cons_self ..)
    have hTail : ∀ k ∈ kvs.map Prod.fst, (m.insert kv.1 kv.2)[k]? = none := by
      intro k hk
      have hne : k ≠ kv.1 := fun hEq => hNodup.1 (hEq ▸ hk)
      rw [get?_insert_ne hne]
      exact hFresh k (List.mem_cons_of_mem _ hk)
    rw [insertMany_cons, ih hNodup.2 hTail, total_insert_of_fresh f kv.2 hHead, List.map_cons,
      List.sum_cons, ← add_assoc, add_comm (f kv.1 kv.2)]

omit [Std.LawfulEqOrd κ] in
theorem total_add (f g : κ → ν → M) (m : Store κ ν) :
    total (fun k v => f k v + g k v) m = total f m + total g m :=
  List.sum_map_add

/-- The total depends on the weights of the entries only. -/
theorem total_congr {f g : κ → ν → M} {m : Store κ ν}
    (h : ∀ k v, m[k]? = some v → f k v = g k v) : total f m = total g m := by
  unfold total
  congr 1
  exact List.map_congr_left fun kv hkv => h kv.1 kv.2 (mem_toList.mp hkv)

end Total

section Ordered

variable [AddCommMonoid M] [PartialOrder M] [IsOrderedAddMonoid M]

/-- Smaller weights, smaller total. -/
theorem total_le_total {f g : κ → ν → M} {m : Store κ ν}
    (h : ∀ k v, m[k]? = some v → f k v ≤ g k v) : total f m ≤ total g m :=
  List.sum_le_sum fun kv hkv => h kv.1 kv.2 (mem_toList.mp hkv)

theorem total_nonneg {f : κ → ν → M} {m : Store κ ν}
    (h : ∀ k v, m[k]? = some v → 0 ≤ f k v) : 0 ≤ total f m := by
  refine List.sum_nonneg ?_
  intro x hx
  obtain ⟨kv, hkv, rfl⟩ := List.mem_map.mp hx
  exact h kv.1 kv.2 (mem_toList.mp hkv)

/-- One entry's amount is at most the total of non-negative amounts. -/
theorem le_total {f : κ → ν → M} {m : Store κ ν} {k : κ} {v : ν}
    (hf : ∀ k v, m[k]? = some v → 0 ≤ f k v) (h : m[k]? = some v) : f k v ≤ total f m := by
  rw [← total_erase f h]
  refine le_add_of_nonneg_right (total_nonneg ?_)
  intro a w ha
  exact hf a w (get?_of_erase ha).2

/-- With weights that are not negative, erasing never adds. -/
theorem total_erase_le {f : κ → ν → M} {m : Store κ ν} (k : κ)
    (hf : ∀ k v, m[k]? = some v → 0 ≤ f k v) : total f (m.erase k) ≤ total f m := by
  cases h : m[k]? with
  | none => rw [erase_of_get?_none h]
  | some v =>
    rw [← total_erase f h]
    exact le_add_of_nonneg_left (hf k v h)

end Ordered

end Store
