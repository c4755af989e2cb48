import Mathlib.Data.List.Nodup
import Mathlib.Data.List.Perm.Basic

/-!
# Runs of a transition function

A system is a total function `step : σ → ι → σ`: what one operation does to
the state. A run performs a list of operations in order. This module holds
the rules by which a fact about single steps becomes a fact about runs:

* `exec_invariant` — an invariant every step keeps holds after every run;
* `exec_invariant_of_steps` — the same for runs whose steps all meet a side
  condition;
* `steps_iff` — two side conditions that an invariant makes equivalent hold of
  the same runs;
* `exec_relation` — a reflexive and transitive relation every step stays
  within relates the two ends of every run;
* `exec_trace` — an invariant that mentions what an observer has recorded so
  far (`trace`);
* `exec_history` — the same for runs whose record meets a condition that its
  prefixes inherit;
* `exec_recorded` — the same for runs whose steps all meet a side condition
  that may speak of the record made before them;
* `exec_simulation` — a relation between two systems, each step of the one
  answered by some steps of the other, relates the ends of their runs.
-/

namespace Run

variable {σ ι β : Type*} (step : σ → ι → σ)

-- ---------------------------------------------------------------------------
-- Runs, records and side conditions
-- ---------------------------------------------------------------------------

/-- The state after performing the operations in order. -/
def exec (s : σ) (ops : List ι) : σ :=
  ops.foldl step s

/-- What an observer of single steps records along a run. -/
def trace (obs : σ → ι → List β) : σ → List ι → List β
  | _, [] => []
  | s, op :: ops => obs s op ++ trace obs (step s op) ops

/-- Every step of the run meets `C` in the state it starts from. -/
def Steps (C : σ → ι → Prop) : σ → List ι → Prop
  | _, [] => True
  | s, op :: ops => C s op ∧ Steps C (step s op) ops

/-- Every step meets `C` of the state it starts from and of the record made
before it, which the run goes on with from `h`. -/
def RecordedSteps (obs : σ → ι → List β) (C : List β → σ → ι → Prop) :
    List β → σ → List ι → Prop
  | _, _, [] => True
  | h, s, op :: ops =>
    C h s op ∧ RecordedSteps obs C (h ++ obs s op) (step s op) ops

variable {step}

instance {C : σ → ι → Prop} [∀ s op, Decidable (C s op)] :
    ∀ (s : σ) (ops : List ι), Decidable (Steps step C s ops)
  | _, [] => inferInstanceAs (Decidable True)
  | s, op :: ops =>
    haveI : Decidable (Steps step C (step s op) ops) := instDecidableSteps (step s op) ops
    inferInstanceAs (Decidable (C s op ∧ Steps step C (step s op) ops))

instance decidableRecordedSteps {obs : σ → ι → List β} {C : List β → σ → ι → Prop}
    [∀ h s op, Decidable (C h s op)] :
    ∀ (h : List β) (s : σ) (ops : List ι), Decidable (RecordedSteps step obs C h s ops)
  | _, _, [] => inferInstanceAs (Decidable True)
  | h, s, op :: ops =>
    haveI : Decidable (RecordedSteps step obs C (h ++ obs s op) (step s op) ops) :=
      decidableRecordedSteps _ _ ops
    inferInstanceAs
      (Decidable (C h s op ∧ RecordedSteps step obs C (h ++ obs s op) (step s op) ops))

@[simp] theorem exec_nil (s : σ) : exec step s [] = s := rfl

@[simp] theorem exec_cons (s : σ) (op : ι) (ops : List ι) :
    exec step s (op :: ops) = exec step (step s op) ops := rfl

/-- A run of two lists is the second run from where the first has ended. -/
theorem exec_append (s : σ) (ops ops' : List ι) :
    exec step s (ops ++ ops') = exec step (exec step s ops) ops' :=
  List.foldl_append ..

@[simp] theorem trace_nil (obs : σ → ι → List β) (s : σ) :
    trace step obs s [] = [] := rfl

@[simp] theorem trace_cons (obs : σ → ι → List β) (s : σ) (op : ι) (ops : List ι) :
    trace step obs s (op :: ops) = obs s op ++ trace step obs (step s op) ops := rfl

theorem trace_append (obs : σ → ι → List β) (s : σ) (ops ops' : List ι) :
    trace step obs s (ops ++ ops') =
      trace step obs s ops ++ trace step obs (exec step s ops) ops' := by
  induction ops generalizing s with
  | nil => rfl
  | cons op ops ih => simp [ih]

@[simp] theorem steps_nil (C : σ → ι → Prop) (s : σ) : Steps step C s [] := trivial

@[simp] theorem steps_cons {C : σ → ι → Prop} {s : σ} {op : ι} {ops : List ι} :
    Steps step C s (op :: ops) ↔ C s op ∧ Steps step C (step s op) ops := Iff.rfl

/-- The steps of two lists are those of the first and, from its end, those of the second. -/
theorem steps_append {C : σ → ι → Prop} {s : σ} {ops ops' : List ι} :
    Steps step C s (ops ++ ops') ↔ Steps step C s ops ∧ Steps step C (exec step s ops) ops' := by
  induction ops generalizing s with
  | nil => simp
  | cons op ops ih => simp [ih, and_assoc]

theorem steps_and {C D : σ → ι → Prop} {s : σ} {ops : List ι} (hC : Steps step C s ops)
    (hD : Steps step D s ops) : Steps step (fun s op => C s op ∧ D s op) s ops := by
  induction ops generalizing s with
  | nil => trivial
  | cons op ops ih => exact ⟨⟨hC.1, hD.1⟩, ih hC.2 hD.2⟩

/-- A side condition on the operations alone holds whatever the states are. -/
theorem steps_of_forall {C : ι → Prop} {s : σ} {ops : List ι} (h : ∀ op ∈ ops, C op) :
    Steps step (fun _ op => C op) s ops := by
  induction ops generalizing s with
  | nil => trivial
  | cons op ops ih =>
    exact ⟨h op (List.mem_cons_self ..), ih fun op' hop => h op' (List.mem_cons_of_mem _ hop)⟩

-- ---------------------------------------------------------------------------
-- From steps to runs
-- ---------------------------------------------------------------------------

/-- What every step keeps, under its condition, a run of such steps keeps. -/
theorem exec_invariant_of_steps {I : σ → Prop} {C : σ → ι → Prop}
    (hStep : ∀ s op, C s op → I s → I (step s op)) {s : σ} {ops : List ι}
    (hC : Steps step C s ops) (hI : I s) : I (exec step s ops) := by
  induction ops generalizing s with
  | nil => exact hI
  | cons op ops ih => exact ih hC.2 (hStep s op hC.1 hI)

/-- What every step keeps, every run keeps. -/
theorem exec_invariant {I : σ → Prop} (hStep : ∀ s op, I s → I (step s op))
    {s : σ} (ops : List ι) (hI : I s) : I (exec step s ops) := by
  induction ops generalizing s with
  | nil => exact hI
  | cons op ops ih => exact ih (hStep s op hI)

/-- Two conditions that agree where the invariant holds agree along the run. -/
theorem steps_iff {I : σ → Prop} {C P Q : σ → ι → Prop}
    (hStep : ∀ s op, C s op → I s → I (step s op))
    (hIff : ∀ s op, C s op → I s → (P s op ↔ Q s op)) {s : σ} {ops : List ι}
    (hC : Steps step C s ops) (hI : I s) : Steps step P s ops ↔ Steps step Q s ops := by
  induction ops generalizing s with
  | nil => exact Iff.rfl
  | cons op ops ih => exact and_congr (hIff s op hC.1 hI) (ih hC.2 (hStep s op hC.1 hI))

/-- What relates a state to the next, reflexively and transitively, relates the ends of a run. -/
theorem exec_relation {R : σ → σ → Prop} (hRefl : ∀ s, R s s)
    (hTrans : ∀ {a b c}, R a b → R b c → R a c) (hStep : ∀ s op, R s (step s op))
    (s : σ) (ops : List ι) : R s (exec step s ops) := by
  induction ops generalizing s with
  | nil => exact hRefl s
  | cons op ops ih => exact hTrans (hStep s op) (ih (step s op))

/-- An invariant of the record `h` made so far and the state. -/
theorem exec_trace {obs : σ → ι → List β} {P : List β → σ → Prop}
    (hStep : ∀ h s op, P h s → P (h ++ obs s op) (step s op))
    {h : List β} {s : σ} (ops : List ι) (hP : P h s) :
    P (h ++ trace step obs s ops) (exec step s ops) := by
  induction ops generalizing h s with
  | nil => simpa using hP
  | cons op ops ih =>
    rw [trace_cons, ← List.append_assoc]
    exact ih (hStep h s op hP)

/-- As `exec_trace`, for runs with a side condition; `Q` is what the
whole record is known to satisfy, and every step may use it of the record
that includes its own entry. -/
theorem exec_history {obs : σ → ι → List β} {P : List β → σ → Prop}
    {C : σ → ι → Prop} {Q : List β → Prop} (hQ : ∀ l l', Q (l ++ l') → Q l)
    (hStep : ∀ h s op, C s op → Q (h ++ obs s op) → P h s →
      P (h ++ obs s op) (step s op))
    {h : List β} {s : σ} {ops : List ι} (hC : Steps step C s ops)
    (hAll : Q (h ++ trace step obs s ops)) (hP : P h s) :
    P (h ++ trace step obs s ops) (exec step s ops) := by
  induction ops generalizing h s with
  | nil => simpa using hP
  | cons op ops ih =>
    rw [trace_cons, ← List.append_assoc] at hAll ⊢
    exact ih hC.2 hAll (hStep h s op hC.1 (hQ _ _ hAll) hP)

/-- As `exec_history`, with a side condition that may speak of the record. -/
theorem exec_recorded {obs : σ → ι → List β} {P : List β → σ → Prop}
    {C : List β → σ → ι → Prop}
    (hStep : ∀ h s op, C h s op → P h s → P (h ++ obs s op) (step s op))
    {h : List β} {s : σ} {ops : List ι} (hC : RecordedSteps step obs C h s ops) (hP : P h s) :
    P (h ++ trace step obs s ops) (exec step s ops) := by
  induction ops generalizing h s with
  | nil => simpa using hP
  | cons op ops ih =>
    rw [trace_cons, ← List.append_assoc]
    exact ih hC.2 (hStep h s op hC.1 hP)

/-- The second system performs what `obs` emits of the first one's steps. -/
theorem exec_simulation {τ κ : Type*} {step' : τ → κ → τ} {obs : σ → ι → List κ}
    {R : σ → τ → Prop} {C : σ → ι → Prop}
    (hStep : ∀ s t op, C s op → R s t → R (step s op) (exec step' t (obs s op)))
    {s : σ} {t : τ} {ops : List ι} (hC : Steps step C s ops) (hR : R s t) :
    R (exec step s ops) (exec step' t (trace step obs s ops)) := by
  induction ops generalizing s t with
  | nil => exact hR
  | cons op ops ih =>
    rw [trace_cons, exec_append]
    exact ih hC.2 (hStep s t op hC.1 hR)

end Run
