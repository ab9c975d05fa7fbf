/-
**Critical sections under one lock.**

Threads share a state that they touch only while they hold a lock.  A critical section is a list of
accesses: each reads the shared state and the registers of its thread and may change both.  Between
two accesses any other thread may move, and a thread that does not get the lock may try again as
often as it likes.  The lock is held in one of two ways: exclusively, or shared with others, and
what holds it shared only reads.

The threads are programs: what a thread does next depends on a control value of its own, which a
completed section changes according to the registers it ends with.

Nothing here mentions a particular program.

Main definitions:

* `LockedSections.Lock` — what an implementation of a lock has to guarantee;
* `LockedSections.Program`, `LockedSections.step` — the threads, one access at a time;
* `LockedSections.atomicStep` — the same threads, one whole section at a time.

Main results:

* `LockedSections.exclusion` — **who holds the lock exclusively is alone in it**;
* `LockedSections.exists_atomic_run` — **every run does what the run of its completed sections
  does**, one at a time and in the order in which they end;
* `LockedSections.progress_of_not_finished` — **no deadlock**;
* `LockedSections.progress_le_rank`, `LockedSections.exists_finished` — a bound on the steps that
  are not failed attempts, and a way to the end from every reachable state.
-/

import CppSamples.TransitionSystem
import Mathlib.Algebra.BigOperators.Fin
import Mathlib.Algebra.Order.BigOperators.Group.Finset

set_option relaxedAutoImplicit false
set_option autoImplicit false

open Function TransitionSystem

namespace LockedSections

variable {τ σ ρ κ : Type*} {L : Type*}

/-! ### Locks -/

/-- How a lock is held. -/
inductive Mode
  | shared
  | exclusive
  deriving DecidableEq

/-- An implementation of a lock: its free state, the attempt to take it, which may fail, and the
release; with what they do to the number of holders in each mode. -/
structure Lock (L : Type*) where
  free : L
  acquire : L → Mode → Option L
  release : L → Mode → L
  /-- How many hold it in each mode. -/
  holders : L → Mode → ℕ
  holders_free : ∀ m, holders free m = 0
  eq_free : ∀ l, (∀ m, holders l m = 0) → l = free
  acquire_eq_some : ∀ l m l', acquire l m = some l' →
    holders l .exclusive = 0 ∧ (m = .exclusive → holders l .shared = 0) ∧
      holders l' = update (holders l) m (holders l m + 1)
  holders_release : ∀ l m, 0 < holders l m →
    holders (release l m) = update (holders l) m (holders l m - 1)

/-! ### Sections and programs -/

/-- One access to the shared state, with the registers of the thread. -/
abbrev Access (σ ρ : Type*) := σ → ρ → σ × ρ

/-- The accesses of a list, one after the other. -/
def runAccesses (fs : List (Access σ ρ)) (x : σ × ρ) : σ × ρ :=
  fs.foldl (fun y f => f y.1 y.2) x

@[simp] theorem runAccesses_nil (x : σ × ρ) : runAccesses ([] : List (Access σ ρ)) x = x := rfl

@[simp] theorem runAccesses_cons (f : Access σ ρ) (fs : List (Access σ ρ)) (x : σ × ρ) :
    runAccesses (f :: fs) x = runAccesses fs (f x.1 x.2) := rfl

theorem runAccesses_append (fs gs : List (Access σ ρ)) (x : σ × ρ) :
    runAccesses (fs ++ gs) x = runAccesses gs (runAccesses fs x) := List.foldl_append

/-- A critical section.  What holds the lock shared only reads. -/
structure Section (σ ρ : Type*) where
  mode : Mode
  body : List (Access σ ρ)
  reads : mode = .shared → ∀ f ∈ body, ∀ s r, (f s r).1 = s

/-- Accesses that only read leave the shared state. -/
theorem runAccesses_fst {fs : List (Access σ ρ)} (h : ∀ f ∈ fs, ∀ s r, (f s r).1 = s)
    (x : σ × ρ) : (runAccesses fs x).1 = x.1 := by
  induction fs generalizing x with
  | nil => rfl
  | cons f fs ih =>
      rw [runAccesses_cons, ih fun g hg => h g (List.mem_cons_of_mem f hg)]
      exact h f List.mem_cons_self x.1 x.2

/-- The programs of the threads: the section that comes next at a control value, unless the thread
has ended, and the control value after it. -/
structure Program (τ σ ρ κ : Type*) where
  next : τ → κ → Option (Section σ ρ)
  after : τ → κ → ρ → κ
  /-- The registers a section begins with. -/
  fresh : ρ

/-! ### The threads -/

/-- Where a thread is. -/
inductive Phase (σ ρ κ : Type*)
  /-- before the next section, if there is one -/
  | outside (k : κ)
  /-- in the section `sec`, with the accesses `rest` to come and the registers `r` -/
  | inside (k : κ) (sec : Section σ ρ) (rest : List (Access σ ρ)) (r : ρ)

/-- How the thread holds the lock, if it does. -/
def Phase.mode : Phase σ ρ κ → Option Mode
  | .outside _ => none
  | .inside _ sec _ _ => some sec.mode

/-- The control value of the thread. -/
def Phase.control : Phase σ ρ κ → κ
  | .outside k => k
  | .inside k _ _ _ => k

/-- The lock, the shared state and the threads. -/
structure State (L τ σ ρ κ : Type*) where
  lock : L
  shared : σ
  phase : τ → Phase σ ρ κ

/-- The steps of the threads. -/
inductive Action (τ : Type*)
  /-- the thread takes the lock -/
  | acquire (t : τ)
  /-- the thread tries to take the lock and fails -/
  | spin (t : τ)
  /-- the next access of the section the thread is in -/
  | access (t : τ)
  /-- the thread gives the lock back -/
  | release (t : τ)
  deriving DecidableEq

/-- The steps that are not failed attempts. -/
def Action.progress : Action τ → Bool
  | .spin _ => false
  | _ => true

/-- The thread whose section ends in a step. -/
def Action.completes : Action τ → Option τ
  | .release t => some t
  | _ => none

variable [DecidableEq τ] (P : Program τ σ ρ κ) (K : Lock L)

/-- All threads are before their first section. -/
def State.init (s : σ) (control : τ → κ) : State L τ σ ρ κ :=
  ⟨K.free, s, fun t => .outside (control t)⟩

/-- One step of the threads. -/
def step (s : State L τ σ ρ κ) : Action τ → Option (State L τ σ ρ κ)
  | .acquire t =>
    match s.phase t with
    | .outside k =>
      (P.next t k).bind fun sec => (K.acquire s.lock sec.mode).map fun l =>
        { s with lock := l, phase := update s.phase t (.inside k sec sec.body P.fresh) }
    | _ => none
  | .spin t =>
    match s.phase t with
    | .outside k =>
      (P.next t k).bind fun sec => if (K.acquire s.lock sec.mode).isNone then some s else none
    | _ => none
  | .access t =>
    match s.phase t with
    | .inside k sec (f :: rest) r =>
      some { s with
        shared := (f s.shared r).1
        phase := update s.phase t (.inside k sec rest (f s.shared r).2) }
    | _ => none
  | .release t =>
    match s.phase t with
    | .inside k sec [] r =>
      some { s with
        lock := K.release s.lock sec.mode
        phase := update s.phase t (.outside (P.after t k r)) }
    | _ => none

/-- The threads when a section is one step: the shared state and the control values. -/
structure Atomic (τ σ κ : Type*) where
  shared : σ
  control : τ → κ

/-- The next section of the thread `t` as one step. -/
def atomicStep (a : Atomic τ σ κ) (t : τ) : Option (Atomic τ σ κ) :=
  (P.next t (a.control t)).map fun sec =>
    { shared := (runAccesses sec.body (a.shared, P.fresh)).1
      control := update a.control t
        (P.after t (a.control t) (runAccesses sec.body (a.shared, P.fresh)).2) }

variable {P K}

/-! ### What a step can do -/

theorem step_acquire_eq_some {s s' : State L τ σ ρ κ} {t : τ}
    (h : step P K s (.acquire t) = some s') :
    ∃ k sec l, s.phase t = .outside k ∧ P.next t k = some sec ∧
      K.acquire s.lock sec.mode = some l ∧
      s' = { s with lock := l, phase := update s.phase t (.inside k sec sec.body P.fresh) } := by
  cases hp : s.phase t with
  | inside k sec rest r => simp [step, hp] at h
  | outside k =>
      simp only [step, hp, Option.bind_eq_some_iff, Option.map_eq_some_iff] at h
      obtain ⟨sec, hsec, l, hl, rfl⟩ := h
      exact ⟨k, sec, l, rfl, hsec, hl, rfl⟩

/-- A failed attempt changes nothing. -/
theorem step_spin_eq_some {s s' : State L τ σ ρ κ} {t : τ}
    (h : step P K s (.spin t) = some s') : s' = s := by
  cases hp : s.phase t with
  | inside k sec rest r => simp [step, hp] at h
  | outside k =>
      simp only [step, hp, Option.bind_eq_some_iff, Option.ite_none_right_eq_some,
        Option.some.injEq] at h
      obtain ⟨sec, -, -, hs⟩ := h
      exact hs.symm

theorem step_access_eq_some {s s' : State L τ σ ρ κ} {t : τ}
    (h : step P K s (.access t) = some s') :
    ∃ k sec f rest r, s.phase t = .inside k sec (f :: rest) r ∧
      s' = { s with
        shared := (f s.shared r).1
        phase := update s.phase t (.inside k sec rest (f s.shared r).2) } := by
  cases hp : s.phase t with
  | outside k => simp [step, hp] at h
  | inside k sec rest r =>
      cases rest with
      | nil => simp [step, hp] at h
      | cons f rest =>
          simp only [step, hp, Option.some.injEq] at h
          exact ⟨k, sec, f, rest, r, rfl, h.symm⟩

theorem step_release_eq_some {s s' : State L τ σ ρ κ} {t : τ}
    (h : step P K s (.release t) = some s') :
    ∃ k sec r, s.phase t = .inside k sec [] r ∧
      s' = { s with
        lock := K.release s.lock sec.mode
        phase := update s.phase t (.outside (P.after t k r)) } := by
  cases hp : s.phase t with
  | outside k => simp [step, hp] at h
  | inside k sec rest r =>
      cases rest with
      | cons f rest => simp [step, hp] at h
      | nil =>
          simp only [step, hp, Option.some.injEq] at h
          exact ⟨k, sec, r, rfl, h.symm⟩

/-! ### Who holds the lock -/

/-- Whether a thread holds the lock in the mode `m`, as a number. -/
def Phase.holds (p : Phase σ ρ κ) (m : Mode) : ℕ := if p.mode = some m then 1 else 0

@[simp] theorem Phase.holds_outside (k : κ) (m : Mode) :
    (Phase.outside k : Phase σ ρ κ).holds m = 0 := rfl

theorem Phase.holds_inside (k : κ) (sec : Section σ ρ) (rest : List (Access σ ρ)) (r : ρ)
    (m : Mode) : (Phase.inside k sec rest r).holds m = if sec.mode = m then 1 else 0 := by
  simp only [holds, mode, Option.some.injEq]

variable [Fintype τ]

/-- How many threads hold the lock in the mode `m`. -/
def count (phase : τ → Phase σ ρ κ) (m : Mode) : ℕ := ∑ t, (phase t).holds m

/-- One thread moves. -/
theorem count_update (phase : τ → Phase σ ρ κ) (t : τ) (p : Phase σ ρ κ) (m : Mode) :
    count (update phase t p) m + (phase t).holds m = count phase m + p.holds m := by
  have hrest : ∑ u ∈ Finset.univ.erase t, (update phase t p u).holds m =
      ∑ u ∈ Finset.univ.erase t, (phase u).holds m :=
    Finset.sum_congr rfl fun u hu => by rw [update_of_ne (Finset.ne_of_mem_erase hu)]
  rw [count, count, ← Finset.add_sum_erase _ _ (Finset.mem_univ t), hrest, update_self,
    ← Finset.add_sum_erase Finset.univ (fun u => (phase u).holds m) (Finset.mem_univ t)]
  omega

omit [DecidableEq τ] in
/-- A thread that holds the lock is counted. -/
theorem holds_le_count (phase : τ → Phase σ ρ κ) (t : τ) (m : Mode) :
    (phase t).holds m ≤ count phase m :=
  Finset.single_le_sum (f := fun u => (phase u).holds m) (fun _ _ => Nat.zero_le _)
    (Finset.mem_univ t)

/-- Two threads that hold the lock are both counted. -/
theorem holds_add_holds_le_count (phase : τ → Phase σ ρ κ) {t u : τ} (h : t ≠ u) (m : Mode) :
    (phase t).holds m + (phase u).holds m ≤ count phase m := by
  have hmem : u ∈ Finset.univ.erase t := Finset.mem_erase.2 ⟨h.symm, Finset.mem_univ u⟩
  have hu : (phase u).holds m ≤ ∑ v ∈ Finset.univ.erase t, (phase v).holds m :=
    Finset.single_le_sum (f := fun v => (phase v).holds m) (fun _ _ => Nat.zero_le _) hmem
  rw [count, ← Finset.add_sum_erase _ _ (Finset.mem_univ t)]
  omega

variable (P K)

/-- The lock knows its holders, at most one of them holds it exclusively, and then nobody shares
it; a thread in a section is in the section its control value asks for. -/
structure Inv (s : State L τ σ ρ κ) : Prop where
  holders : ∀ m, K.holders s.lock m = count s.phase m
  exclusive : K.holders s.lock .exclusive = 0 ∨
    K.holders s.lock .exclusive = 1 ∧ K.holders s.lock .shared = 0
  next : ∀ t k sec rest r, s.phase t = .inside k sec rest r → P.next t k = some sec

variable {P K}

omit [DecidableEq τ] in
theorem Inv.init (s : σ) (control : τ → κ) : Inv P K (State.init K s control) where
  holders m := by simp [State.init, count, K.holders_free]
  exclusive := Or.inl (K.holders_free _)
  next t k sec rest r h := by simp [State.init] at h

omit [Fintype τ] in
/-- One thread moves: the section it is in afterwards is asked for by its control value. -/
theorem next_update {phase : τ → Phase σ ρ κ}
    (h : ∀ u k sec rest r, phase u = .inside k sec rest r → P.next u k = some sec) {t : τ}
    {p : Phase σ ρ κ} (hp : ∀ k sec rest r, p = .inside k sec rest r → P.next t k = some sec) :
    ∀ u k sec rest r, update phase t p u = .inside k sec rest r → P.next u k = some sec := by
  intro u k sec rest r hu
  by_cases htu : u = t
  · subst htu
    rw [update_self] at hu
    exact hp k sec rest r hu
  · rw [update_of_ne htu] at hu
    exact h u k sec rest r hu

/-- Taking the lock keeps it. -/
theorem Inv.acquire {s s' : State L τ σ ρ κ} {t : τ} (hI : Inv P K s)
    (h : step P K s (.acquire t) = some s') : Inv P K s' := by
  obtain ⟨k, sec, l, hp, hsec, hl, rfl⟩ := step_acquire_eq_some h
  obtain ⟨hexcl, hshared, hholders⟩ := K.acquire_eq_some _ _ _ hl
  refine ⟨fun m => ?_, ?_, next_update hI.next ?_⟩
  · have hcount := count_update s.phase t (.inside k sec sec.body P.fresh) m
    rw [hp, Phase.holds_outside, Phase.holds_inside] at hcount
    have hm := hI.holders m
    simp only [hholders, update_apply]
    split_ifs with hmode
    · subst hmode
      rw [if_pos rfl] at hcount
      omega
    · rw [if_neg (Ne.symm hmode)] at hcount
      omega
  · simp only [hholders, update_apply]
    cases hmode : sec.mode with
    | shared => exact Or.inl (by simpa using hexcl)
    | exclusive => exact Or.inr (by simpa [hexcl] using hshared hmode)
  · intro k' sec' rest r heq
    obtain ⟨rfl, rfl, -, -⟩ := Phase.inside.inj heq
    exact hsec

/-- An access keeps it. -/
theorem Inv.access {s s' : State L τ σ ρ κ} {t : τ} (hI : Inv P K s)
    (h : step P K s (.access t) = some s') : Inv P K s' := by
  obtain ⟨k, sec, f, rest, r, hp, rfl⟩ := step_access_eq_some h
  refine ⟨fun m => ?_, hI.exclusive, next_update hI.next ?_⟩
  · have hcount := count_update s.phase t (.inside k sec rest (f s.shared r).2) m
    rw [hp, Phase.holds_inside, Phase.holds_inside] at hcount
    have hm := hI.holders m
    simp only at hm ⊢
    omega
  · intro k' sec' rest' r' heq
    obtain ⟨rfl, rfl, -, -⟩ := Phase.inside.inj heq
    exact hI.next t _ _ _ _ hp

/-- Giving the lock back keeps it. -/
theorem Inv.release {s s' : State L τ σ ρ κ} {t : τ} (hI : Inv P K s)
    (h : step P K s (.release t) = some s') : Inv P K s' := by
  obtain ⟨k, sec, r, hp, rfl⟩ := step_release_eq_some h
  have hone : (s.phase t).holds sec.mode = 1 := by rw [hp, Phase.holds_inside, if_pos rfl]
  have hpos : 0 < K.holders s.lock sec.mode := by
    have := holds_le_count s.phase t sec.mode
    have := hI.holders sec.mode
    omega
  have hholders := K.holders_release s.lock sec.mode hpos
  refine ⟨fun m => ?_, ?_, next_update hI.next fun k' sec' rest' r' heq => nomatch heq⟩
  · have hcount := count_update s.phase t (.outside (P.after t k r)) m
    rw [hp, Phase.holds_outside, Phase.holds_inside] at hcount
    have hm := hI.holders m
    simp only [hholders, update_apply]
    split_ifs with hmode
    · subst hmode
      rw [if_pos rfl] at hcount
      omega
    · rw [if_neg (Ne.symm hmode)] at hcount
      omega
  · simp only [hholders, update_apply]
    cases hmode : sec.mode with
    | shared =>
        rw [hmode] at hpos
        exact Or.inl (by simpa using hI.exclusive.resolve_right fun h1 => by omega)
    | exclusive =>
        rw [hmode] at hpos
        obtain ⟨h1, -⟩ := hI.exclusive.resolve_left (by omega)
        exact Or.inl (by simp [h1])

/-- Every step keeps it. -/
theorem Inv.step {s s' : State L τ σ ρ κ} {a : Action τ} (hI : Inv P K s)
    (h : step P K s a = some s') : Inv P K s' := by
  cases a with
  | acquire t => exact hI.acquire h
  | spin t => exact step_spin_eq_some h ▸ hI
  | access t => exact hI.access h
  | release t => exact hI.release h

/-- It holds in every reachable state. -/
theorem Inv.of_reachable {s₀ : σ} {control : τ → κ} {s : State L τ σ ρ κ}
    (h : Reachable (LockedSections.step P K) (State.init K s₀ control) s) : Inv P K s :=
  h.inv (Inv P K) (fun _ _ _ hI hstep => hI.step hstep) (Inv.init s₀ control)

/-- **Mutual exclusion**: who holds the lock exclusively is alone in it. -/
theorem Inv.exclusion {s : State L τ σ ρ κ} (hI : Inv P K s) {t u : τ}
    (ht : (s.phase t).mode = some .exclusive) (hu : (s.phase u).mode ≠ none) : t = u := by
  by_contra htu
  have hone : (s.phase t).holds .exclusive = 1 := if_pos ht
  have hle := holds_le_count s.phase t .exclusive
  obtain ⟨m, hm⟩ := Option.ne_none_iff_exists'.1 hu
  have hm1 : (s.phase u).holds m = 1 := if_pos hm
  have hexcl := hI.holders .exclusive
  have hshared := hI.holders .shared
  rcases hI.exclusive with h0 | ⟨h1, h0⟩
  · omega
  · cases m with
    | shared =>
        have := holds_le_count s.phase u .shared
        omega
    | exclusive =>
        have := holds_add_holds_le_count s.phase htu .exclusive
        omega

theorem exclusion {s₀ : σ} {control : τ → κ} {s : State L τ σ ρ κ}
    (h : Reachable (step P K) (State.init K s₀ control) s) {t u : τ}
    (ht : (s.phase t).mode = some .exclusive) (hu : (s.phase u).mode ≠ none) : t = u :=
  (Inv.of_reachable h).exclusion ht hu

omit [DecidableEq τ] in
/-- Nobody holds a lock that can be taken exclusively, and nobody holds exclusively one that can be
taken at all. -/
theorem Inv.mode_ne_of_acquire {s : State L τ σ ρ κ} (hI : Inv P K s) {m : Mode} {l : L}
    (h : K.acquire s.lock m = some l) (t : τ) :
    (s.phase t).mode ≠ some .exclusive ∧ (m = .exclusive → (s.phase t).mode = none) := by
  obtain ⟨hexcl, hshared, -⟩ := K.acquire_eq_some _ _ _ h
  have he := (holds_le_count s.phase t .exclusive).trans_eq (hI.holders .exclusive).symm
  have hs := (holds_le_count s.phase t .shared).trans_eq (hI.holders .shared).symm
  have hne : (s.phase t).mode ≠ some .exclusive := by
    intro ht
    rw [Phase.holds, if_pos ht] at he
    omega
  refine ⟨hne, fun hm => ?_⟩
  cases hmode : (s.phase t).mode with
  | none => rfl
  | some m' =>
      cases m' with
      | exclusive => exact absurd hmode hne
      | shared =>
          rw [Phase.holds, if_pos hmode, hshared hm] at hs
          omega

/-! ### One section at a time -/

variable (P) in
/-- A state of the threads and a state in which no section has begun that has not ended: the
control values agree, a thread in a section has made the first of its accesses from the shared
state before it, and the shared states agree as long as nobody holds the lock exclusively. -/
structure Sim (s : State L τ σ ρ κ) (a : Atomic τ σ κ) : Prop where
  control : ∀ t, a.control t = (s.phase t).control
  shared : (∀ t, (s.phase t).mode ≠ some .exclusive) → s.shared = a.shared
  inside : ∀ t k sec rest r, s.phase t = .inside k sec rest r →
    ∃ made, sec.body = made ++ rest ∧ runAccesses made (a.shared, P.fresh) = (s.shared, r)

omit [DecidableEq τ] [Fintype τ] in
theorem Sim.init (s : σ) (control : τ → κ) : Sim P (State.init K s control) ⟨s, control⟩ where
  control _ := rfl
  shared _ := rfl
  inside t k sec rest r h := by simp [State.init] at h

omit [Fintype τ] in
/-- A thread moves inside its section: the control values stay. -/
theorem control_update {phase : τ → Phase σ ρ κ} {t : τ} {p : Phase σ ρ κ}
    (h : p.control = (phase t).control) (u : τ) :
    (update phase t p u).control = (phase u).control := by
  by_cases hut : u = t
  · rw [hut, update_self, h]
  · rw [update_of_ne hut]

/-- Taking the lock begins a section. -/
theorem Sim.acquire {s s' : State L τ σ ρ κ} {a : Atomic τ σ κ} {t : τ} (hI : Inv P K s)
    (hS : Sim P s a) (h : step P K s (.acquire t) = some s') : Sim P s' a := by
  obtain ⟨k, sec, l, hp, hsec, hl, rfl⟩ := step_acquire_eq_some h
  have hnone := hI.mode_ne_of_acquire hl
  have hshared : s.shared = a.shared := hS.shared fun u => (hnone u).1
  refine ⟨fun u => ?_, fun _ => hshared, fun u k' sec' rest r hu => ?_⟩
  · exact (hS.control u).trans (control_update (by rw [hp]; rfl) u).symm
  · by_cases hut : u = t
    · subst hut
      simp only [update_self] at hu
      obtain ⟨rfl, rfl, rfl, rfl⟩ := Phase.inside.inj hu
      exact ⟨[], rfl, by rw [hshared, runAccesses_nil]⟩
    · simp only [update_of_ne hut] at hu
      exact hS.inside u k' sec' rest r hu

/-- An access is a part of a section. -/
theorem Sim.access {s s' : State L τ σ ρ κ} {a : Atomic τ σ κ} {t : τ} (hI : Inv P K s)
    (hS : Sim P s a) (h : step P K s (.access t) = some s') : Sim P s' a := by
  obtain ⟨k, sec, f, rest, r, hp, rfl⟩ := step_access_eq_some h
  obtain ⟨made, hbody, hmade⟩ := hS.inside t k sec _ r hp
  have hf : f ∈ sec.body := hbody ▸ List.mem_append_right made List.mem_cons_self
  -- either nothing is written, or nobody else is in a section
  have hframe : (f s.shared r).1 = s.shared ∨ ∀ u, u ≠ t → (s.phase u).mode = none := by
    cases hmode : sec.mode with
    | shared => exact Or.inl (sec.reads hmode f hf _ _)
    | exclusive =>
        refine Or.inr fun u hut => ?_
        by_contra hu
        exact hut (hI.exclusion (by rw [hp, Phase.mode, hmode]) hu).symm
  refine ⟨fun u => ?_, fun hnone => ?_, fun u k' sec' rest' r' hu => ?_⟩
  · exact (hS.control u).trans (control_update (by rw [hp]; rfl) u).symm
  · have hmode : sec.mode = .shared := by
      have := hnone t
      simp only [update_self, Phase.mode] at this
      cases hm : sec.mode with
      | shared => rfl
      | exclusive => exact absurd (by rw [hm]) this
    have hread := sec.reads hmode f hf s.shared r
    simp only [hread]
    refine hS.shared fun u => ?_
    by_cases hut : u = t
    · rw [hut, hp, Phase.mode, hmode]
      simp
    · simpa only [update_of_ne hut] using hnone u
  · by_cases hut : u = t
    · subst hut
      simp only [update_self] at hu
      obtain ⟨rfl, rfl, rfl, rfl⟩ := Phase.inside.inj hu
      refine ⟨made ++ [f], by rw [hbody, List.append_assoc, List.singleton_append], ?_⟩
      rw [runAccesses_append, hmade, runAccesses_cons, runAccesses_nil]
    · simp only [update_of_ne hut] at hu
      rcases hframe with hread | hnone
      · simp only [hread]
        exact hS.inside u k' sec' rest' r' hu
      · exact absurd (hnone u hut) (by rw [hu, Phase.mode]; simp)

/-- Giving the lock back ends a section, which is one step of the threads that run their sections
as one step. -/
theorem Sim.release {s s' : State L τ σ ρ κ} {a : Atomic τ σ κ} {t : τ} (hI : Inv P K s)
    (hS : Sim P s a) (h : step P K s (.release t) = some s') :
    ∃ a', atomicStep P a t = some a' ∧ Sim P s' a' := by
  obtain ⟨k, sec, r, hp, rfl⟩ := step_release_eq_some h
  obtain ⟨made, hbody, hrun⟩ := hS.inside t k sec [] r hp
  rw [List.append_nil] at hbody
  subst hbody
  have hcontrol : a.control t = k := by rw [hS.control, hp, Phase.control]
  have hnext : P.next t (a.control t) = some sec := hcontrol.symm ▸ hI.next t k sec [] r hp
  refine ⟨⟨s.shared, update a.control t (P.after t k r)⟩, ?_, ?_⟩
  · rw [atomicStep, hnext, Option.map_some, hrun, hcontrol]
  -- the shared state is what it was before a section that only reads, and nobody else is in a
  -- section beside one that writes
  have hframe : s.shared = a.shared ∨ ∀ u, u ≠ t → (s.phase u).mode = none := by
    cases hmode : sec.mode with
    | shared =>
        have hfst := runAccesses_fst (sec.reads hmode) (a.shared, P.fresh)
        rw [hrun] at hfst
        exact Or.inl hfst
    | exclusive =>
        refine Or.inr fun u hut => ?_
        by_contra hu
        exact hut (hI.exclusion (by rw [hp, Phase.mode, hmode]) hu).symm
  refine ⟨fun u => ?_, fun _ => rfl, fun u k' sec' rest' r' hu => ?_⟩
  · by_cases hut : u = t
    · subst hut
      simp only [update_self, Phase.control]
    · simp only [update_of_ne hut, hS.control]
  · by_cases hut : u = t
    · subst hut
      simp at hu
    · simp only [update_of_ne hut] at hu
      rcases hframe with hread | hnone
      · simpa only [hread] using hS.inside u k' sec' rest' r' hu
      · exact absurd (hnone u hut) (by rw [hu, Phase.mode]; simp)

/-- The threads whose sections end in a schedule, in this order. -/
def completions (as : List (Action τ)) : List τ := as.filterMap Action.completes

/-- **Every run does what its completed sections do**, run as one step each in the order in which
they end. -/
theorem exists_atomic_run_of_sim {s s' : State L τ σ ρ κ} {a : Atomic τ σ κ}
    {as : List (Action τ)} (hI : Inv P K s) (hS : Sim P s a)
    (h : run (step P K) s as = some s') :
    ∃ a', run (atomicStep P) a (completions as) = some a' ∧ Sim P s' a' := by
  induction as generalizing s a with
  | nil =>
      obtain rfl : s = s' := by simpa using h
      exact ⟨a, rfl, hS⟩
  | cons b as ih =>
      obtain ⟨u, hsu, hus'⟩ := run_cons_eq_some.1 h
      have hI' := hI.step hsu
      cases b with
      | acquire t => exact ih hI' (hS.acquire hI hsu) hus'
      | spin t => exact ih hI' (step_spin_eq_some hsu ▸ hS) hus'
      | access t => exact ih hI' (hS.access hI hsu) hus'
      | release t =>
          obtain ⟨a₁, ha₁, hS₁⟩ := hS.release hI hsu
          obtain ⟨a', ha', hS'⟩ := ih hI' hS₁ hus'
          exact ⟨a', run_cons_eq_some.2 ⟨a₁, ha₁, ha'⟩, hS'⟩

/-- **Every run of the threads** does what the run of its completed sections does. -/
theorem exists_atomic_run {s₀ : σ} {control : τ → κ} {s : State L τ σ ρ κ} {as : List (Action τ)}
    (h : run (step P K) (State.init K s₀ control) as = some s) :
    ∃ a, run (atomicStep P) ⟨s₀, control⟩ (completions as) = some a ∧ Sim P s a :=
  exists_atomic_run_of_sim (Inv.init s₀ control) (Sim.init s₀ control) h

/-! ### Progress -/

variable (P) in
/-- All threads have ended. -/
def Finished (s : State L τ σ ρ κ) : Prop :=
  ∀ t, ∃ k, s.phase t = .outside k ∧ P.next t k = none

/-- **No deadlock**: where not all threads have ended, one of them has a step that is not a failed
attempt, provided that the free lock can be taken in the modes the threads ask for. -/
theorem progress_of_not_finished {s : State L τ σ ρ κ} (hI : Inv P K s)
    (hfree : ∀ t k sec, P.next t k = some sec → (K.acquire K.free sec.mode).isSome)
    (h : ¬Finished P s) : ∃ a s', a.progress ∧ step P K s a = some s' := by
  by_cases hin : ∃ t, (s.phase t).mode ≠ none
  · -- somebody is in a section and can go on with it
    obtain ⟨t, ht⟩ := hin
    cases hp : s.phase t with
    | outside k => simp [hp, Phase.mode] at ht
    | inside k sec rest r =>
        cases rest with
        | nil => exact ⟨.release t, _, rfl, by simp only [step, hp]; rfl⟩
        | cons f rest => exact ⟨.access t, _, rfl, by simp only [step, hp]; rfl⟩
  · -- nobody is, so the lock is free
    have hnone : ∀ t, (s.phase t).mode = none := by simpa using hin
    have hzero : ∀ m, K.holders s.lock m = 0 := by
      intro m
      rw [hI.holders, count]
      exact Finset.sum_eq_zero fun t _ => by rw [Phase.holds, hnone]; rfl
    obtain ⟨t, ht⟩ := not_forall.1 h
    cases hp : s.phase t with
    | inside k sec rest r => simpa [hp, Phase.mode] using hnone t
    | outside k =>
        cases hsec : P.next t k with
        | none => exact absurd ⟨k, hp, hsec⟩ ht
        | some sec =>
            obtain ⟨l, hl⟩ := Option.isSome_iff_exists.1 (hfree t k sec hsec)
            refine ⟨.acquire t, { s with
              lock := l, phase := update s.phase t (.inside k sec sec.body P.fresh) }, rfl, ?_⟩
            simp only [step, hp, hsec, K.eq_free _ hzero, hl, Option.bind_some, Option.map_some]

/-! ### How many steps there are -/

/-- A bound on the steps of a thread that are not failed attempts: a section takes one for the
lock, one for each access and one for the release. -/
def Program.Bounded (P : Program τ σ ρ κ) (μ : τ → κ → ℕ) : Prop :=
  ∀ t k sec, P.next t k = some sec → ∀ r, μ t (P.after t k r) + sec.body.length + 2 ≤ μ t k

/-- The steps that are left to a thread. -/
def Phase.rank (μ : κ → ℕ) : Phase σ ρ κ → ℕ
  | .outside k => μ k
  | .inside k sec rest _ => μ k - (sec.body.length + 2) + rest.length + 1

/-- The steps that are left to all of them. -/
def rank (μ : τ → κ → ℕ) (s : State L τ σ ρ κ) : ℕ := ∑ t, (s.phase t).rank (μ t)

/-- One thread moves and has fewer steps left. -/
theorem rank_update_lt {μ : τ → κ → ℕ} {phase : τ → Phase σ ρ κ} {t : τ} {p : Phase σ ρ κ}
    (h : p.rank (μ t) < (phase t).rank (μ t)) :
    ∑ u, (update phase t p u).rank (μ u) < ∑ u, (phase u).rank (μ u) := by
  refine Finset.sum_lt_sum (fun u _ => ?_) ⟨t, Finset.mem_univ t, by rwa [update_self]⟩
  by_cases hut : u = t
  · rw [hut, update_self]
    exact h.le
  · rw [update_of_ne hut]

/-- Every step that is not a failed attempt is counted. -/
theorem rank_lt_of_step {μ : τ → κ → ℕ} (hμ : P.Bounded μ) {s s' : State L τ σ ρ κ} {a : Action τ}
    (hI : Inv P K s) (ha : a.progress) (h : step P K s a = some s') : rank μ s' < rank μ s := by
  cases a with
  | spin t => simp [Action.progress] at ha
  | acquire t =>
      obtain ⟨k, sec, l, hp, hsec, -, rfl⟩ := step_acquire_eq_some h
      have hle := hμ t k sec hsec P.fresh
      refine rank_update_lt ?_
      rw [hp, Phase.rank, Phase.rank]
      omega
  | access t =>
      obtain ⟨k, sec, f, rest, r, hp, rfl⟩ := step_access_eq_some h
      refine rank_update_lt ?_
      rw [hp, Phase.rank, Phase.rank, List.length_cons]
      omega
  | release t =>
      obtain ⟨k, sec, r, hp, rfl⟩ := step_release_eq_some h
      have hle := hμ t k sec (hI.next t k sec [] r hp) r
      refine rank_update_lt ?_
      rw [hp, Phase.rank, Phase.rank, List.length_nil]
      omega

/-- **The steps of a run that are not failed attempts are bounded.** -/
theorem progress_le_rank {μ : τ → κ → ℕ} (hμ : P.Bounded μ) {s s' : State L τ σ ρ κ}
    {as : List (Action τ)} (hI : Inv P K s) (h : run (step P K) s as = some s') :
    as.countP Action.progress + rank μ s' ≤ rank μ s := by
  induction as generalizing s with
  | nil =>
      obtain rfl : s = s' := by simpa using h
      simp
  | cons a as ih =>
      obtain ⟨u, hsu, hus'⟩ := run_cons_eq_some.1 h
      have hle := ih (hI.step hsu) hus'
      cases ha : a.progress with
      | true =>
          have hlt := rank_lt_of_step hμ hI ha hsu
          rw [List.countP_cons_of_pos ha]
          omega
      | false =>
          obtain rfl : u = s := by
            cases a with
            | spin t => exact step_spin_eq_some hsu
            | _ => simp [Action.progress] at ha
          rwa [List.countP_cons_of_neg (by simp [ha])]

/-- From every state of the invariant there is a run in which all threads end. -/
theorem exists_finished {μ : τ → κ → ℕ} (hμ : P.Bounded μ)
    (hfree : ∀ t k sec, P.next t k = some sec → (K.acquire K.free sec.mode).isSome)
    {s : State L τ σ ρ κ} (hI : Inv P K s) :
    ∃ as s', run (step P K) s as = some s' ∧ Finished P s' := by
  induction hm : rank μ s using Nat.strongRecOn generalizing s with
  | ind m ih =>
      by_cases hs : Finished P s
      · exact ⟨[], s, rfl, hs⟩
      · obtain ⟨a, u, ha, hsu⟩ := progress_of_not_finished hI hfree hs
        have hlt := rank_lt_of_step hμ hI ha hsu
        obtain ⟨as, s', hrun, hs'⟩ := ih (rank μ u) (hm ▸ hlt) (hI.step hsu) rfl
        exact ⟨a :: as, s', run_cons_eq_some.2 ⟨u, hsu, hrun⟩, hs'⟩

end LockedSections
