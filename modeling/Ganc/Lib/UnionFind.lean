import Mathlib.Data.List.Basic
import Mathlib.Logic.Function.Basic

/-!
# Forests of parents

Disjoint classes of the numbers below `parent.length`: every number has a
parent, and a root is its own. `Forest parent root` says that the chain of
parents from `i` ends, at `root i`; so two numbers are in one class if their
roots are equal. The operations of a union-find structure are described by
what they do to `root`:

* `Forest.compress` — a parent is replaced by the root: nothing changes;
* `Forest.link` — a root gets another root as its parent: two classes join;
* `Forest.push` — a new class of its own.
-/

namespace UnionFind

/-- The chain of parents from a number ends at a root. -/
inductive Reaches (parent : List Nat) : Nat → Nat → Prop
  | root {r : Nat} (hRoot : parent[r]? = some r) : Reaches parent r r
  | step {i j r : Nat} (hParent : parent[i]? = some j) (hne : i ≠ j) (hRest : Reaches parent j r) :
      Reaches parent i r

variable {parent : List Nat} {root : Nat → Nat} {i j r s : Nat}

/-- A walk ends at a root. -/
theorem Reaches.isRoot (h : Reaches parent i r) : parent[r]? = some r := by
  induction h with
  | root hRoot => exact hRoot
  | step _ _ _ ih => exact ih

theorem Reaches.lt_length (h : Reaches parent i r) : i < parent.length := by
  cases h with
  | root hRoot => exact (List.getElem?_eq_some_iff.mp hRoot).1
  | step hParent => exact (List.getElem?_eq_some_iff.mp hParent).1

/-- A walk ends at one root only. -/
theorem Reaches.unique (h : Reaches parent i r) (h' : Reaches parent i s) : r = s := by
  induction h with
  | root hRoot =>
    cases h' with
    | root => rfl
    | step hParent hne => exact absurd (Option.some.inj (hRoot.symm.trans hParent)) hne
  | step hParent hne _ ih =>
    cases h' with
    | root hRoot => exact absurd (Option.some.inj (hRoot.symm.trans hParent)) hne
    | step hParent' _ hRest' =>
      obtain rfl := Option.some.inj (hParent.symm.trans hParent')
      exact ih hRest'

/-- Every chain ends, and at the root given. -/
def Forest (parent : List Nat) (root : Nat → Nat) : Prop :=
  ∀ i < parent.length, Reaches parent i (root i)

theorem forest_nil (root : Nat → Nat) : Forest [] root :=
  fun _ hi => absurd hi (Nat.not_lt_zero _)

/-- The root is where the walk ends. -/
theorem Forest.root_eq (h : Forest parent root) (hReach : Reaches parent i r) : root i = r :=
  (h i hReach.lt_length).unique hReach

/-- A root is its own root. -/
theorem Forest.root_root (h : Forest parent root) (hi : i < parent.length) :
    root (root i) = root i :=
  h.root_eq (.root (h i hi).isRoot)

theorem Forest.root_lt (h : Forest parent root) (hi : i < parent.length) :
    root i < parent.length :=
  (List.getElem?_eq_some_iff.mp (h i hi).isRoot).1

/-- Pointing an item straight at its root changes no root. -/
theorem Forest.compress (h : Forest parent root) (hReach : Reaches parent i r) :
    Forest (parent.set i r) root := by
  have hi := hReach.lt_length
  have hKeeps : ∀ {k s}, Reaches parent k s → Reaches (parent.set i r) k s := by
    intro k s hChain
    induction hChain with
    | root hRoot =>
      rename_i s
      refine .root ?_
      by_cases hEq : i = s
      · subst hEq
        obtain rfl := hReach.unique (.root hRoot)
        exact List.getElem?_set_self hi
      · rw [List.getElem?_set_ne hEq, hRoot]
    | step hParent hne hRest ih =>
      rename_i k j s
      by_cases hEq : i = k
      · subst hEq
        obtain rfl := hReach.unique (.step hParent hne hRest)
        have hDiffer : i ≠ r := by
          rintro rfl
          exact hne (Option.some.inj (hReach.isRoot.symm.trans hParent))
        refine .step (List.getElem?_set_self hi) hDiffer (.root ?_)
        rw [List.getElem?_set_ne hDiffer, hReach.isRoot]
      · exact .step ((List.getElem?_set_ne hEq).trans hParent) hne ih
  intro k hk
  exact hKeeps (h k (by rwa [List.length_set] at hk))

/-- The roots after the root `i` has got the parent `j`. -/
def linkRoot (root : Nat → Nat) (i j k : Nat) : Nat := if root k = i then j else root k

section LinkRoot

variable {k l : Nat}

theorem linkRoot_of_eq (hk : root k = i) : linkRoot root i j k = j := if_pos hk

theorem linkRoot_of_ne (hk : root k ≠ i) : linkRoot root i j k = root k := if_neg hk

theorem linkRoot_congr (h : root k = root l) : linkRoot root i j k = linkRoot root i j l := by
  rw [linkRoot, linkRoot, h]

/-- The class of `j` is now the union of two classes. -/
theorem linkRoot_eq_target : linkRoot root i j k = j ↔ root k = i ∨ root k = j := by
  by_cases hk : root k = i
  · exact iff_of_true (linkRoot_of_eq hk) (.inl hk)
  · rw [linkRoot_of_ne hk, or_iff_right hk]

/-- The other classes are what they were; the class of `i` is gone. -/
theorem linkRoot_eq_other (hl : l ≠ j) : linkRoot root i j k = l ↔ root k = l ∧ l ≠ i := by
  by_cases hk : root k = i
  · rw [linkRoot_of_eq hk]
    refine iff_of_false (Ne.symm hl) ?_
    rintro ⟨rfl, hNe⟩
    exact hNe hk
  · rw [linkRoot_of_ne hk]
    exact ⟨fun hEq => ⟨hEq, hEq ▸ hk⟩, fun h => h.1⟩

end LinkRoot

/-- Pointing one root at another joins the two classes. -/
theorem Forest.link (h : Forest parent root) (hi : parent[i]? = some i)
    (hj : parent[j]? = some j) : Forest (parent.set i j) (linkRoot root i j) := by
  have hLess := (List.getElem?_eq_some_iff.mp hi).1
  have hKeeps : ∀ {k s}, Reaches parent k s →
      Reaches (parent.set i j) k (if s = i then j else s) := by
    intro k s hChain
    induction hChain with
    | root hRoot =>
      rename_i s
      by_cases hEq : s = i
      · subst hEq
        rw [if_pos rfl]
        by_cases hSame : s = j
        · subst hSame
          exact .root (List.getElem?_set_self hLess)
        · refine .step (List.getElem?_set_self hLess) hSame (.root ?_)
          rw [List.getElem?_set_ne hSame, hj]
      · rw [if_neg hEq]
        exact .root ((List.getElem?_set_ne (Ne.symm hEq)).trans hRoot)
    | step hParent hne _ ih =>
      refine .step ((List.getElem?_set_ne ?_).trans hParent) hne ih
      rintro rfl
      exact hne (Option.some.inj (hi.symm.trans hParent))
  intro k hk
  exact hKeeps (h k (by rwa [List.length_set] at hk))

/-- A new item is a class of its own. -/
theorem Forest.push (h : Forest parent root) :
    Forest (parent ++ [parent.length])
      (Function.update root parent.length parent.length) := by
  have hKeeps : ∀ {k s}, Reaches parent k s → Reaches (parent ++ [parent.length]) k s := by
    intro k s hChain
    have hOld : ∀ {k j : Nat}, parent[k]? = some j → (parent ++ [parent.length])[k]? = some j := by
      intro k j hParent
      rw [List.getElem?_append_left (List.getElem?_eq_some_iff.mp hParent).1, hParent]
    induction hChain with
    | root hRoot => exact .root (hOld hRoot)
    | step hParent hne _ ih => exact .step (hOld hParent) hne ih
  intro k hk
  rw [List.length_append, List.length_singleton] at hk
  by_cases hEq : k = parent.length
  · rw [hEq, Function.update_self]
    exact .root List.getElem?_concat_length
  · rw [Function.update_of_ne hEq]
    exact hKeeps (h k (by omega))

end UnionFind
