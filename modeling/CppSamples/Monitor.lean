/-
**Monitors with one condition variable and `notify_all`.**

A monitor is a shared state whose calls run under one mutex: a call takes the mutex, waits on the
condition variable until its predicate holds, runs its body, notifies *all* waiters and returns.
Since the mutex is held from the (last) test of the predicate to the end of the body, a step of
the system is one critical section: the test that fails and goes to sleep, or the test that holds
with the whole body.  Threads may call anything at any time, waiters may wake up for no reason.

Nothing here mentions a particular monitor.

Main definitions:

* `Monitor` — the wait predicates and the bodies of a monitor's calls;
* `Monitor.State`, `Monitor.step` — any number of threads running calls of the monitor.

Main results:

* `Monitor.shared_inv` — what every body keeps holds of the shared state and of the record of
  completed calls in every reachable state, and `Monitor.shared_inv_along` for the runs whose
  critical sections meet a condition;
* `Monitor.not_guard_of_waiting` — **no lost wakeup**: a thread asleep in its wait has a predicate
  that is false in the current shared state.
-/

import CppSamples.TransitionSystem

set_option relaxedAutoImplicit false
set_option autoImplicit false

open TransitionSystem Function

/-- The calls of a monitor: the predicate each waits for, and the rest of its critical section,
which runs only when the predicate holds. -/
structure Monitor (σ κ ρ : Type*) where
  /-- The predicate the call waits for. -/
  guard : κ → σ → Prop
  /-- The predicates can be tested. -/
  decGuard : ∀ c s, Decidable (guard c s)
  /-- The critical section after the wait: the new shared state and the value returned. -/
  body : ∀ c s, guard c s → σ × ρ

namespace Monitor

variable {τ σ κ ρ : Type*}

/-! ### The threads of a monitor -/

/-- What a thread is doing. -/
inductive Phase (κ : Type*)
  /-- outside the monitor -/
  | idle
  /-- about to take the mutex for a call, either from its start or after waking up -/
  | entering (c : κ)
  /-- asleep in `wait` -/
  | waiting (c : κ)
  /-- ended -/
  | exited

/-- What `notify_all` does to a thread. -/
def Phase.notify : Phase κ → Phase κ
  | .waiting c => .entering c
  | p => p

/-- The call that a thread is inside of. -/
def Phase.call : Phase κ → Option κ
  | .entering c => some c
  | .waiting c => some c
  | _ => none

@[simp] theorem Phase.call_notify (p : Phase κ) : p.notify.call = p.call := by
  cases p <;> rfl

/-- The shared state, the threads, and the completed calls with their results, in order. -/
structure State (τ σ κ ρ : Type*) where
  shared : σ
  phase : τ → Phase κ
  log : List (κ × ρ)

/-- The steps a thread can take. -/
inductive Action (τ κ : Type*)
  /-- the thread makes a call -/
  | call (t : τ) (c : κ)
  /-- the thread takes the mutex and runs a critical section -/
  | enter (t : τ)
  /-- a spurious wakeup -/
  | wake (t : τ)
  /-- the thread ends -/
  | exit (t : τ)

/-- All threads are outside the monitor. -/
def State.init (s : σ) : State τ σ κ ρ := ⟨s, fun _ => .idle, []⟩

variable [DecidableEq τ] (m : Monitor σ κ ρ)

instance (c : κ) (s : σ) : Decidable (m.guard c s) := m.decGuard c s

/-- The critical section of the call `c` of the thread `t`. -/
def critical (s : State τ σ κ ρ) (t : τ) (c : κ) : State τ σ κ ρ :=
  if h : m.guard c s.shared then
    let (shared, result) := m.body c s.shared h
    { shared
      phase := update (fun u => (s.phase u).notify) t .idle
      log := s.log ++ [(c, result)] }
  else
    { s with phase := update s.phase t (.waiting c) }

/-- One step of the threads. -/
def step (s : State τ σ κ ρ) : Action τ κ → Option (State τ σ κ ρ)
  | .call t c =>
    match s.phase t with
    | .idle => some { s with phase := update s.phase t (.entering c) }
    | _ => none
  | .enter t =>
    match s.phase t with
    | .entering c => some (m.critical s t c)
    | _ => none
  | .wake t =>
    match s.phase t with
    | .waiting c => some { s with phase := update s.phase t (.entering c) }
    | _ => none
  | .exit t =>
    match s.phase t with
    | .idle => some { s with phase := update s.phase t .exited }
    | _ => none

variable {m}

/-! ### What a step can do -/

/-- A call is made by a thread outside the monitor. -/
theorem step_call_eq_some {s s' : State τ σ κ ρ} {t : τ} {c : κ}
    (h : m.step s (.call t c) = some s') :
    s.phase t = .idle ∧ s' = { s with phase := update s.phase t (.entering c) } := by
  cases hp : s.phase t with
  | idle =>
      simp only [step, hp, Option.some.injEq] at h
      exact ⟨rfl, h.symm⟩
  | _ => simp [step, hp] at h

/-- A thread that wakes up was asleep in a call. -/
theorem step_wake_eq_some {s s' : State τ σ κ ρ} {t : τ} (h : m.step s (.wake t) = some s') :
    ∃ c, s.phase t = .waiting c ∧ s' = { s with phase := update s.phase t (.entering c) } := by
  cases hp : s.phase t with
  | waiting c =>
      simp only [step, hp, Option.some.injEq] at h
      exact ⟨c, rfl, h.symm⟩
  | _ => simp [step, hp] at h

/-- A critical section is that of the call the thread is in. -/
theorem step_enter_eq_some {s s' : State τ σ κ ρ} {t : τ} (h : m.step s (.enter t) = some s') :
    ∃ c, s.phase t = .entering c ∧ s' = m.critical s t c := by
  cases hp : s.phase t with
  | entering c =>
      simp only [step, hp, Option.some.injEq] at h
      exact ⟨c, rfl, h.symm⟩
  | _ => simp [step, hp] at h

/-- A step completes a call, or puts a thread to sleep whose predicate is false, or only moves a
thread that is awake afterwards. -/
theorem step_cases {s s' : State τ σ κ ρ} {a : Action τ κ} (h : m.step s a = some s') :
    (∃ t c, ∃ hg : m.guard c s.shared, a = .enter t ∧ s.phase t = .entering c ∧
      s' = { shared := (m.body c s.shared hg).1
             phase := update (fun u => (s.phase u).notify) t .idle
             log := s.log ++ [(c, (m.body c s.shared hg).2)] }) ∨
    (∃ t c, ¬m.guard c s.shared ∧ a = .enter t ∧
      s' = { s with phase := update s.phase t (.waiting c) }) ∨
    ∃ t p, (∀ c, p ≠ .waiting c) ∧ s' = { s with phase := update s.phase t p } := by
  cases a with
  | call t c =>
      obtain ⟨-, rfl⟩ := step_call_eq_some h
      exact Or.inr (Or.inr ⟨t, .entering c, by simp, rfl⟩)
  | enter t =>
      obtain ⟨c, hp, rfl⟩ := step_enter_eq_some h
      by_cases hg : m.guard c s.shared
      · exact Or.inl ⟨t, c, hg, rfl, hp, dif_pos hg⟩
      · exact Or.inr (Or.inl ⟨t, c, hg, rfl, dif_neg hg⟩)
  | wake t =>
      obtain ⟨c, -, rfl⟩ := step_wake_eq_some h
      exact Or.inr (Or.inr ⟨t, .entering c, by simp, rfl⟩)
  | exit t =>
      cases hp : s.phase t with
      | idle =>
          simp only [step, hp, Option.some.injEq] at h
          exact Or.inr (Or.inr ⟨t, .exited, by simp, h.symm⟩)
      | _ => simp [step, hp] at h

/-- The step of a thread about to enter. -/
theorem step_enter {s s' : State τ σ κ ρ} {t : τ} {c : κ} (h : m.step s (.enter t) = some s')
    (ht : s.phase t = .entering c) : s' = m.critical s t c := by
  simpa only [step, ht, Option.some.injEq, eq_comm] using h

/-- The record of completed calls only grows. -/
theorem log_prefix_of_step {s s' : State τ σ κ ρ} {a : Action τ κ} (h : m.step s a = some s') :
    s.log <+: s'.log := by
  rcases step_cases h with ⟨t, c, hg, _, _, rfl⟩ | ⟨t, c, _, _, rfl⟩ | ⟨t, p, _, rfl⟩
  · exact List.prefix_append _ _
  · exact List.prefix_rfl
  · exact List.prefix_rfl

/-! ### Invariants of the shared state -/

/-- What a completed critical section requires of the shared state: the condition `C` on the call
and the state in which its body runs. -/
def Critical (C : κ → σ → Prop) (s : State τ σ κ ρ) : Action τ κ → Prop
  | .enter t => ∀ c, s.phase t = .entering c → C c s.shared
  | _ => True

/-- **The invariant rule** for the shared state and the record of completed calls, along the runs
whose critical sections meet a condition. -/
theorem shared_inv_along {C : κ → σ → Prop} (I : σ → List (κ × ρ) → Prop)
    (hbody : ∀ c s log (h : m.guard c s), I s log → C c s →
      I (m.body c s h).1 (log ++ [(c, (m.body c s h).2)]))
    {s s' : State τ σ κ ρ} {as : List (Action τ κ)} (h₀ : I s.shared s.log)
    (hC : Along m.step (Critical C) s as) (hrun : run m.step s as = some s') :
    I s'.shared s'.log := by
  refine run_inv (fun s => I s.shared s.log) ?_ h₀ hC hrun
  intro s a t hs hC hstep
  rcases step_cases hstep with ⟨u, c, hg, rfl, hp, rfl⟩ | ⟨u, c, _, _, rfl⟩ | ⟨u, p, _, rfl⟩
  · exact hbody c s.shared s.log hg hs (hC c hp)
  · exact hs
  · exact hs

/-- The invariant rule for the shared state and the record of completed calls. -/
theorem shared_inv (I : σ → List (κ × ρ) → Prop)
    (hbody : ∀ c s log (h : m.guard c s), I s log →
      I (m.body c s h).1 (log ++ [(c, (m.body c s h).2)]))
    {s s' : State τ σ κ ρ} (h₀ : I s.shared s.log) (h : Reachable m.step s s') :
    I s'.shared s'.log := by
  obtain ⟨as, has⟩ := h
  refine shared_inv_along (C := fun _ _ => True) I (fun c s log hg hI _ => hbody c s log hg hI) h₀
    ((along_true s as).imp ?_) has
  intro s a _
  cases a <;> simp [Critical]

/-! ### No lost wakeups -/

/-- After `notify_all` nobody is asleep. -/
theorem Phase.notify_ne_waiting (p : Phase κ) (c : κ) : p.notify ≠ .waiting c := by
  cases p <;> simp [Phase.notify]

/-- **No lost wakeup**: a thread that is asleep waits for a predicate that is false now. -/
theorem not_guard_of_waiting {s₀ : σ} {s : State τ σ κ ρ}
    (h : Reachable m.step (State.init s₀) s) {t : τ} {c : κ} (ht : s.phase t = .waiting c) :
    ¬m.guard c s.shared := by
  refine Reachable.inv (fun s => ∀ t c, s.phase t = .waiting c → ¬m.guard c s.shared) ?_ ?_ h t c ht
  · intro s a s' hs hstep t c ht
    rcases step_cases hstep with ⟨u, d, hg, _, _, rfl⟩ | ⟨u, d, hg, _, rfl⟩ | ⟨u, p, hp, rfl⟩
    · -- a completed call wakes everybody up
      by_cases htu : t = u
      · simp [htu] at ht
      · simp only [update_of_ne htu] at ht
        exact absurd ht (Phase.notify_ne_waiting _ _)
    · by_cases htu : t = u
      · simp only [htu, update_self, Phase.waiting.injEq] at ht
        exact ht ▸ hg
      · simp only [update_of_ne htu] at ht
        exact hs t c ht
    · by_cases htu : t = u
      · simp only [htu, update_self] at ht
        exact absurd ht (hp c)
      · simp only [update_of_ne htu] at ht
        exact hs t c ht
  · intro t c ht
    simp [State.init] at ht

end Monitor
