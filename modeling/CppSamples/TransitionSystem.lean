/-
**Runs of a system with labelled steps.**

A concurrent program is given by a partial step function `step : σ → α → Option σ`: the action
`a` says which thread moves and how its free choices fall, and `none` says that the action is not
possible in that state.  A schedule is a list of actions.  This module defines the run of a
schedule and the rules by which what one step keeps is carried along whole runs.

Nothing here mentions a particular program.

Main definitions:

* `TransitionSystem.run` — the state a schedule leads to;
* `TransitionSystem.Reachable` — the states some schedule leads to;
* `TransitionSystem.Along` — every step of a schedule is taken in a state that meets a condition;
* `TransitionSystem.Terminal` — the states in which no action is possible.

Main results:

* `TransitionSystem.run_append` — schedules compose;
* `TransitionSystem.run_inv` — **the invariant rule** for the runs that meet a condition, and
  `TransitionSystem.Reachable.inv` for all runs;
* `TransitionSystem.exists_terminal_of_inv`, `TransitionSystem.length_le_measure_of_inv` — where a
  measure decreases, runs end;
* `TransitionSystem.run_rel` — a relation between two systems under one schedule.
-/

import Mathlib.Logic.Function.Basic
import Mathlib.Tactic.Common

set_option relaxedAutoImplicit false
set_option autoImplicit false

namespace TransitionSystem

variable {σ τ α : Type*} {step : σ → α → Option σ}

/-! ### Runs -/

/-- The state after the actions of a schedule, if each of them is possible when it is taken. -/
def run (step : σ → α → Option σ) : σ → List α → Option σ
  | s, [] => some s
  | s, a :: as => (step s a).bind fun t => run step t as

/-- `Reachable step s t`: some schedule leads from `s` to `t`. -/
def Reachable (step : σ → α → Option σ) (s t : σ) : Prop := ∃ as, run step s as = some t

/-- Every step of the schedule is taken in a state that meets `C`. -/
def Along (step : σ → α → Option σ) (C : σ → α → Prop) : σ → List α → Prop
  | _, [] => True
  | s, a :: as => C s a ∧ ∀ t, step s a = some t → Along step C t as

@[simp] theorem run_nil (s : σ) : run step s [] = some s := rfl

theorem run_cons (s : σ) (a : α) (as : List α) :
    run step s (a :: as) = (step s a).bind fun t => run step t as := rfl

/-- A run of a nonempty schedule is a first step and a run of the rest. -/
theorem run_cons_eq_some {s u : σ} {a : α} {as : List α} :
    run step s (a :: as) = some u ↔ ∃ t, step s a = some t ∧ run step t as = some u := by
  rw [run_cons, Option.bind_eq_some_iff]

/-- Schedules compose. -/
theorem run_append (s : σ) (as bs : List α) :
    run step s (as ++ bs) = (run step s as).bind fun t => run step t bs := by
  induction as generalizing s with
  | nil => rfl
  | cons a as ih =>
      rw [List.cons_append, run_cons, run_cons, Option.bind_assoc]
      exact Option.bind_congr fun t _ => ih t

/-- The last step of a run. -/
theorem run_concat_eq_some {s u : σ} {a : α} {as : List α} :
    run step s (as ++ [a]) = some u ↔ ∃ t, run step s as = some t ∧ step t a = some u := by
  simp [run_append, Option.bind_eq_some_iff, run_cons]

theorem Reachable.refl (s : σ) : Reachable step s s := ⟨[], rfl⟩

theorem Reachable.tail {s t u : σ} {a : α} (h : Reachable step s t) (hstep : step t a = some u) :
    Reachable step s u := by
  obtain ⟨as, has⟩ := h
  exact ⟨as ++ [a], run_concat_eq_some.2 ⟨t, has, hstep⟩⟩

/-- What a run from a reachable state leads to is reachable. -/
theorem Reachable.run {s t u : σ} {as : List α} (h : Reachable step s t)
    (hrun : run step t as = some u) : Reachable step s u := by
  obtain ⟨bs, hbs⟩ := h
  exact ⟨bs ++ as, by rw [run_append, hbs, Option.bind_some, hrun]⟩

/-! ### Invariants -/

/-- **The invariant rule.**  What holds at the start and is kept by every step that meets the
condition holds at the end of every run whose steps all meet it. -/
theorem run_inv {C : σ → α → Prop} (I : σ → Prop)
    (hstep : ∀ s a t, I s → C s a → step s a = some t → I t)
    {s t : σ} {as : List α} (h₀ : I s) (hC : Along step C s as) (hrun : run step s as = some t) :
    I t := by
  induction as generalizing s with
  | nil =>
      obtain rfl : s = t := by simpa using hrun
      exact h₀
  | cons a as ih =>
      obtain ⟨u, hsu, hut⟩ := run_cons_eq_some.1 hrun
      exact ih (hstep s a u h₀ hC.1 hsu) (hC.2 u hsu) hut

/-- The trivial condition is met by every schedule. -/
theorem along_true (s : σ) (as : List α) : Along step (fun _ _ => True) s as := by
  induction as generalizing s with
  | nil => trivial
  | cons a as ih => exact ⟨trivial, fun t _ => ih t⟩

/-- The invariant rule for all runs. -/
theorem Reachable.inv (I : σ → Prop) (hstep : ∀ s a t, I s → step s a = some t → I t)
    {s t : σ} (h₀ : I s) (h : Reachable step s t) : I t := by
  obtain ⟨as, has⟩ := h
  exact run_inv I (fun s a t hs _ => hstep s a t hs) h₀ (along_true s as) has

/-- A condition on the actions of a schedule alone. -/
theorem along_of_forall {C : σ → α → Prop} {as : List α} (h : ∀ a ∈ as, ∀ s, C s a) (s : σ) :
    Along step C s as := by
  induction as generalizing s with
  | nil => trivial
  | cons a as ih =>
      refine ⟨h a List.mem_cons_self s, fun t _ => ih (fun b hb => ?_) t⟩
      exact h b (List.mem_cons_of_mem a hb)

/-- A weaker condition is met by the same schedules. -/
theorem Along.imp {C D : σ → α → Prop} (h : ∀ s a, C s a → D s a) {s : σ} {as : List α}
    (hC : Along step C s as) : Along step D s as := by
  induction as generalizing s with
  | nil => trivial
  | cons a as ih => exact ⟨h s a hC.1, fun t ht => ih (hC.2 t ht)⟩

/-- A condition that follows from another one by an invariant is met by the same schedules. -/
theorem Along.imp_inv {C D : σ → α → Prop} (I : σ → Prop)
    (h : ∀ s a, I s → C s a → D s a ∧ ∀ t, step s a = some t → I t) {s : σ} {as : List α}
    (h₀ : I s) (hC : Along step C s as) : Along step D s as := by
  induction as generalizing s with
  | nil => trivial
  | cons a as ih =>
      obtain ⟨hD, hI⟩ := h s a h₀ hC.1
      exact ⟨hD, fun t ht => ih (hI t ht) (hC.2 t ht)⟩

/-- A longer schedule meets a condition when the shorter one does and the last step does. -/
theorem Along.concat {C : σ → α → Prop} {s : σ} {as : List α} {a : α} (h : Along step C s as)
    (ha : ∀ t, run step s as = some t → C t a) : Along step C s (as ++ [a]) := by
  induction as generalizing s with
  | nil => exact ⟨ha s rfl, fun _ _ => trivial⟩
  | cons b as ih =>
      refine ⟨h.1, fun t ht => ih (h.2 t ht) fun u hu => ha u ?_⟩
      exact run_cons_eq_some.2 ⟨t, ht, hu⟩

/-- A condition met along a schedule is met along its beginning. -/
theorem Along.of_append {C : σ → α → Prop} {s : σ} {as bs : List α}
    (h : Along step C s (as ++ bs)) : Along step C s as := by
  induction as generalizing s with
  | nil => trivial
  | cons a as ih => exact ⟨h.1, fun t ht => ih (h.2 t ht)⟩

/-- A condition is met along a schedule and then along what follows it. -/
theorem along_append {C : σ → α → Prop} {s : σ} {as bs : List α} :
    Along step C s (as ++ bs) ↔
      Along step C s as ∧ ∀ t, run step s as = some t → Along step C t bs := by
  induction as generalizing s with
  | nil => simp [Along]
  | cons a as ih =>
      simp only [List.cons_append, Along, ih, run_cons_eq_some]
      constructor
      · rintro ⟨ha, h⟩
        exact ⟨⟨ha, fun t ht => (h t ht).1⟩, fun u ⟨t, ht, hu⟩ => (h t ht).2 u hu⟩
      · rintro ⟨⟨ha, h⟩, hb⟩
        exact ⟨ha, fun t ht => ⟨h t ht, fun u hu => hb u ⟨t, ht, hu⟩⟩⟩

/-! ### Termination -/

/-- No action is possible. -/
def Terminal (step : σ → α → Option σ) (s : σ) : Prop := ∀ a, step s a = none

section Measure

variable {I : σ → Prop} {μ : σ → ℕ}

/-- **A measure that every step decreases** in the states of an invariant: each of them has a run
to a state in which no action is possible. -/
theorem exists_terminal_of_inv
    (hstep : ∀ s a t, I s → step s a = some t → I t ∧ μ t < μ s) {s : σ} (h₀ : I s) :
    ∃ as t, run step s as = some t ∧ Terminal step t := by
  induction hμ : μ s using Nat.strongRecOn generalizing s with
  | ind m ih =>
    by_cases hs : Terminal step s
    · exact ⟨[], s, rfl, hs⟩
    · obtain ⟨a, ha⟩ := not_forall.mp hs
      obtain ⟨t, ht⟩ := Option.ne_none_iff_exists'.mp ha
      obtain ⟨hI, hlt⟩ := hstep s a t h₀ ht
      obtain ⟨as, u, hrun, hu⟩ := ih (μ t) (hμ ▸ hlt) hI rfl
      exact ⟨a :: as, u, run_cons_eq_some.2 ⟨t, ht, hrun⟩, hu⟩

/-- Its value bounds the length of the runs. -/
theorem length_le_measure_of_inv
    (hstep : ∀ s a t, I s → step s a = some t → I t ∧ μ t < μ s)
    {s t : σ} {as : List α} (h₀ : I s) (hrun : run step s as = some t) :
    as.length + μ t ≤ μ s := by
  induction as generalizing s with
  | nil =>
    obtain rfl : s = t := by simpa using hrun
    simp
  | cons a as ih =>
    obtain ⟨u, hsu, hut⟩ := run_cons_eq_some.1 hrun
    obtain ⟨hI, hlt⟩ := hstep s a u h₀ hsu
    have hle := ih hI hut
    rw [List.length_cons]
    omega

end Measure

/-- The rule for a measure that every step decreases in all states. -/
theorem exists_terminal (μ : σ → ℕ) (hstep : ∀ s a t, step s a = some t → μ t < μ s) (s : σ) :
    ∃ as t, run step s as = some t ∧ Terminal step t :=
  exists_terminal_of_inv (I := fun _ => True) (fun s a t _ h => ⟨trivial, hstep s a t h⟩) trivial

/-- Its value bounds the length of the runs, too. -/
theorem length_le_measure (μ : σ → ℕ) (hstep : ∀ s a t, step s a = some t → μ t < μ s)
    {s t : σ} {as : List α} (hrun : run step s as = some t) : as.length + μ t ≤ μ s :=
  length_le_measure_of_inv (I := fun _ => True) (fun s a t _ h => ⟨trivial, hstep s a t h⟩)
    trivial hrun

/-! ### Two systems -/

/-- Two systems run side by side under one schedule: a relation that every step meeting the
condition keeps holds at the end of the runs whose steps all meet it. -/
theorem run_rel {step' : τ → α → Option τ} {C : τ → α → Prop} (R : σ → τ → Prop)
    (hstep : ∀ s t a s' t', R s t → C t a → step s a = some s' → step' t a = some t' → R s' t')
    {s s' : σ} {t t' : τ} {as : List α} (h₀ : R s t) (hC : Along step' C t as)
    (hs : run step s as = some s') (ht : run step' t as = some t') : R s' t' := by
  induction as generalizing s t with
  | nil =>
      obtain rfl : s = s' := by simpa using hs
      obtain rfl : t = t' := by simpa using ht
      exact h₀
  | cons a as ih =>
      obtain ⟨u, hsu, hus'⟩ := run_cons_eq_some.1 hs
      obtain ⟨v, htv, hvt'⟩ := run_cons_eq_some.1 ht
      exact ih (hstep s t a u v h₀ hC.1 hsu htv) (hC.2 v htv) hus' hvt'

end TransitionSystem
