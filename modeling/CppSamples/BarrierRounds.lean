/-
**Threads in rounds with a barrier between them.**

Each thread of a group makes a list of accesses to a shared state in every round, with registers of
its own, and then waits at a barrier until all threads have come there.  Any thread may make the
next access at any time.

Where the accesses of different threads in one round are independent, it does not matter how they
are interleaved: the threads may as well run one after the other, round by round.

Nothing here mentions a particular program.

Main definitions:

* `BarrierRounds.Independent` — two accesses of which neither notices the other;
* `BarrierRounds.Kernel`, `BarrierRounds.step` — the threads, one access at a time;
* `BarrierRounds.Kernel.sequential` — the same threads, one after the other;
* `BarrierRounds.Kernel.Computes` — what every interleaving leaves in the shared state.

Main results:

* `BarrierRounds.memory_of_finished` — **every interleaving does what the sequential run does**;
* `BarrierRounds.finished_of_terminal` — **no deadlock**;
* `BarrierRounds.left_step` — a bound on the steps that are left;
* `BarrierRounds.Kernel.Independent.computes` — the three together.
-/

import CppSamples.LockedSections
import Mathlib.Algebra.BigOperators.Intervals
import Mathlib.Data.Fintype.Lattice

set_option relaxedAutoImplicit false
set_option autoImplicit false

open Function TransitionSystem

namespace BarrierRounds

open LockedSections (Access)

variable {τ σ ρ : Type*}

/-! ### Independent accesses -/

/-- Neither access notices the other: the shared state and the registers do not depend on the
order. -/
def Independent (f g : Access σ ρ) : Prop :=
  ∀ s r r', (g (f s r).1 r').1 = (f (g s r').1 r).1 ∧ (f (g s r').1 r).2 = (f s r).2 ∧
    (g (f s r).1 r').2 = (g s r').2

theorem Independent.symm {f g : Access σ ρ} (h : Independent f g) : Independent g f :=
  fun s r r' => ⟨(h s r' r).1.symm, (h s r' r).2.2, (h s r' r).2.1⟩

variable [DecidableEq τ]

/-- The shared state and the registers of the threads. -/
abbrev Memory (τ σ ρ : Type*) := σ × (τ → ρ)

/-- An access of the thread `t`. -/
def act (t : τ) (f : Access σ ρ) (x : Memory τ σ ρ) : Memory τ σ ρ :=
  ((f x.1 (x.2 t)).1, update x.2 t (f x.1 (x.2 t)).2)

/-- Independent accesses of different threads commute. -/
theorem act_comm {t u : τ} (htu : t ≠ u) {f g : Access σ ρ} (h : Independent f g)
    (x : Memory τ σ ρ) : act u g (act t f x) = act t f (act u g x) := by
  obtain ⟨hshared, hf, hg⟩ := h x.1 (x.2 t) (x.2 u)
  simp only [act, update_of_ne htu, update_of_ne htu.symm]
  rw [hshared, hf, hg, update_comm htu]

/-- The accesses of a list, all of the thread `t`. -/
def acts (t : τ) (fs : List (Access σ ρ)) (x : Memory τ σ ρ) : Memory τ σ ρ :=
  fs.foldl (fun x f => act t f x) x

@[simp] theorem acts_nil (t : τ) (x : Memory τ σ ρ) : acts t [] x = x := rfl

@[simp] theorem acts_cons (t : τ) (f : Access σ ρ) (fs : List (Access σ ρ)) (x : Memory τ σ ρ) :
    acts t (f :: fs) x = acts t fs (act t f x) := rfl

theorem acts_concat (t : τ) (fs : List (Access σ ρ)) (f : Access σ ρ) (x : Memory τ σ ρ) :
    acts t (fs ++ [f]) x = act t f (acts t fs x) := by
  rw [acts, List.foldl_append]
  rfl

theorem act_acts_comm {t u : τ} (htu : t ≠ u) {f : Access σ ρ} {gs : List (Access σ ρ)}
    (h : ∀ g ∈ gs, Independent f g) (x : Memory τ σ ρ) :
    acts u gs (act t f x) = act t f (acts u gs x) := by
  induction gs generalizing x with
  | nil => rfl
  | cons g gs ih =>
      rw [acts_cons, acts_cons, act_comm htu (h g List.mem_cons_self),
        ih fun g hg => h g (List.mem_cons_of_mem _ hg)]

/-- The accesses of all threads of a list, one thread after the other. -/
def actAll (order : List τ) (fs : τ → List (Access σ ρ)) (x : Memory τ σ ρ) : Memory τ σ ρ :=
  order.foldl (fun x t => acts t (fs t) x) x

@[simp] theorem actAll_nil (fs : τ → List (Access σ ρ)) (x : Memory τ σ ρ) :
    actAll [] fs x = x := rfl

@[simp] theorem actAll_cons (t : τ) (order : List τ) (fs : τ → List (Access σ ρ))
    (x : Memory τ σ ρ) : actAll (t :: order) fs x = actAll order fs (acts t (fs t) x) := rfl

theorem actAll_congr {order : List τ} {fs gs : τ → List (Access σ ρ)}
    (h : ∀ t ∈ order, fs t = gs t) (x : Memory τ σ ρ) : actAll order fs x = actAll order gs x := by
  induction order generalizing x with
  | nil => rfl
  | cons t order ih =>
      rw [actAll_cons, actAll_cons, h t List.mem_cons_self,
        ih fun u hu => h u (List.mem_cons_of_mem t hu)]

/-- An access of a thread that is not among the others commutes with all of them. -/
theorem act_actAll_comm {order : List τ} {t : τ} (ht : t ∉ order) {f : Access σ ρ}
    {fs : τ → List (Access σ ρ)} (h : ∀ u ∈ order, ∀ g ∈ fs u, Independent f g)
    (x : Memory τ σ ρ) : actAll order fs (act t f x) = act t f (actAll order fs x) := by
  induction order generalizing x with
  | nil => rfl
  | cons u order ih =>
      have htu : t ≠ u := fun htu => ht (htu ▸ List.mem_cons_self)
      rw [actAll_cons, actAll_cons, act_acts_comm htu (h u List.mem_cons_self),
        ih (fun hmem => ht (List.mem_cons_of_mem u hmem))
          fun v hv => h v (List.mem_cons_of_mem u hv)]

/-- **One more access of one thread** comes last, wherever the thread stands in the order. -/
theorem actAll_update {order : List τ} (hnodup : order.Nodup) {t : τ} (ht : t ∈ order)
    {f : Access σ ρ} {fs : τ → List (Access σ ρ)}
    (h : ∀ u, u ≠ t → ∀ g ∈ fs u, Independent f g) (x : Memory τ σ ρ) :
    actAll order (update fs t (fs t ++ [f])) x = act t f (actAll order fs x) := by
  induction order generalizing x with
  | nil => exact absurd ht List.not_mem_nil
  | cons u order ih =>
      obtain ⟨hu, hnodup⟩ := List.nodup_cons.1 hnodup
      rw [actAll_cons, actAll_cons]
      by_cases htu : u = t
      · subst htu
        have hrest : ∀ v ∈ order, update fs u (fs u ++ [f]) v = fs v := by
          intro v hv
          have hvu : v ≠ u := fun hvu => hu (hvu ▸ hv)
          exact update_of_ne hvu _ _
        rw [update_self, acts_concat, actAll_congr hrest]
        exact act_actAll_comm hu (fun v hv => h v fun hvu => hu (hvu ▸ hv)) _
      · rw [update_of_ne htu]
        exact ih hnodup ((List.mem_cons.1 ht).resolve_left (Ne.symm htu)) _

/-- Threads that make no access. -/
theorem actAll_none {order : List τ} {fs : τ → List (Access σ ρ)} (h : ∀ t ∈ order, fs t = [])
    (x : Memory τ σ ρ) : actAll order fs x = x := by
  induction order generalizing x with
  | nil => rfl
  | cons t order ih =>
      rw [actAll_cons, h t List.mem_cons_self, acts_nil,
        ih fun u hu => h u (List.mem_cons_of_mem t hu)]

/-- Where one thread alone makes accesses. -/
theorem actAll_of_alone {order : List τ} (hnodup : order.Nodup) {t : τ} (ht : t ∈ order)
    {fs : τ → List (Access σ ρ)} (h : ∀ u, u ≠ t → fs u = []) (x : Memory τ σ ρ) :
    actAll order fs x = acts t (fs t) x := by
  induction order generalizing x with
  | nil => exact absurd ht List.not_mem_nil
  | cons u order ih =>
      obtain ⟨hu, hnodup⟩ := List.nodup_cons.1 hnodup
      rw [actAll_cons]
      by_cases htu : u = t
      · subst htu
        refine actAll_none (fun v hv => h v ?_) _
        rintro rfl
        exact hu hv
      · rw [h u htu, acts_nil]
        exact ih hnodup ((List.mem_cons.1 ht).resolve_left (Ne.symm htu)) x

/-- What the threads make of the shared state, where each has an effect of its own on it. -/
theorem actAll_fst {fs : τ → List (Access σ ρ)} {f : τ → σ → σ}
    (h : ∀ t y, (acts t (fs t) y).1 = f t y.1) (order : List τ) (x : Memory τ σ ρ) :
    (actAll order fs x).1 = order.foldl (fun s t => f t s) x.1 := by
  induction order generalizing x with
  | nil => rfl
  | cons t order ih => rw [actAll_cons, ih, h, List.foldl_cons]

/-! ### The threads -/

/-- The accesses of the threads in each of the rounds. -/
structure Kernel (τ σ ρ : Type*) where
  rounds : ℕ
  body : ℕ → τ → List (Access σ ρ)

/-- The accesses of a thread in a round, if there is one. -/
def Kernel.block (K : Kernel τ σ ρ) (k : ℕ) (t : τ) : List (Access σ ρ) :=
  if k < K.rounds then K.body k t else []

/-- Where a thread is: its round, and its accesses to come in the round. -/
structure Phase (σ ρ : Type*) where
  round : ℕ
  rest : List (Access σ ρ)

/-- The thread has made its accesses in the round `k`. -/
def Phase.Arrived (k : ℕ) (p : Phase σ ρ) : Prop := k < p.round ∨ p.round = k ∧ p.rest.isEmpty

instance (k : ℕ) (p : Phase σ ρ) : Decidable (p.Arrived k) :=
  inferInstanceAs (Decidable (_ ∨ _))

/-- The memory and the threads. -/
structure State (τ σ ρ : Type*) where
  memory : Memory τ σ ρ
  phase : τ → Phase σ ρ

/-- The steps of the threads. -/
inductive Action (τ : Type*)
  /-- the next access of the round -/
  | access (t : τ)
  /-- on to the next round -/
  | barrier (t : τ)

variable (K : Kernel τ σ ρ)

/-- All threads are before their first access. -/
def State.start (x : Memory τ σ ρ) : State τ σ ρ := ⟨x, fun t => ⟨0, K.block 0 t⟩⟩

/-- All rounds are over. -/
def State.Finished (s : State τ σ ρ) : Prop := ∀ t, (s.phase t).round = K.rounds

/-- The threads run one after the other in each round. -/
def Kernel.sequential (order : List τ) (x : Memory τ σ ρ) : ℕ → Memory τ σ ρ
  | 0 => x
  | k + 1 => actAll order (K.block k) (Kernel.sequential order x k)

variable [Fintype τ]

/-- One step of the threads. -/
def step (s : State τ σ ρ) : Action τ → Option (State τ σ ρ)
  | .access t =>
    match (s.phase t).rest with
    | [] => none
    | f :: rest =>
      some { memory := act t f s.memory, phase := update s.phase t ⟨(s.phase t).round, rest⟩ }
  | .barrier t =>
    let k := (s.phase t).round
    if k < K.rounds ∧ ∀ u, (s.phase u).Arrived k then
      some { s with phase := update s.phase t ⟨k + 1, K.block (k + 1) t⟩ }
    else none

variable {K}

/-! ### What a step can do -/

theorem step_access_eq_some {s s' : State τ σ ρ} {t : τ} (h : step K s (.access t) = some s') :
    ∃ f rest, (s.phase t).rest = f :: rest ∧
      s' = { memory := act t f s.memory
             phase := update s.phase t ⟨(s.phase t).round, rest⟩ } := by
  cases hrest : (s.phase t).rest with
  | nil => simp [step, hrest] at h
  | cons f rest =>
      simp only [step, hrest, Option.some.injEq] at h
      exact ⟨f, rest, rfl, h.symm⟩

theorem step_barrier_eq_some {s s' : State τ σ ρ} {t : τ} (h : step K s (.barrier t) = some s') :
    (s.phase t).round < K.rounds ∧ (∀ u, (s.phase u).Arrived (s.phase t).round) ∧
      s' = { s with
        phase := update s.phase t
          ⟨(s.phase t).round + 1, K.block ((s.phase t).round + 1) t⟩ } := by
  simp only [step, Option.ite_none_right_eq_some, Option.some.injEq] at h
  obtain ⟨⟨hlt, hall⟩, hs⟩ := h
  exact ⟨hlt, hall, hs.symm⟩

/-! ### The sequential run -/

/-- Different threads are independent in each round. -/
def Kernel.Independent (K : Kernel τ σ ρ) : Prop :=
  ∀ k t u, t ≠ u → ∀ f ∈ K.block k t, ∀ g ∈ K.block k u, BarrierRounds.Independent f g

omit [DecidableEq τ] [Fintype τ] in
/-- It is enough to look at the rounds there are. -/
theorem Kernel.independent_of_body (h : ∀ k < K.rounds, ∀ t u, t ≠ u → ∀ f ∈ K.body k t,
    ∀ g ∈ K.body k u, BarrierRounds.Independent f g) : K.Independent := by
  intro k t u htu f hf g hg
  unfold Kernel.block at hf hg
  split_ifs at hf hg with hk
  · exact h k hk t u htu f hf g hg
  · exact absurd hf List.not_mem_nil

/-- A thread in the current round `c` has made the accesses `made`; one that has not come there has
made all of the round before. -/
def Current (K : Kernel τ σ ρ) (c : ℕ) (made : List (Access σ ρ)) (t : τ) (p : Phase σ ρ) : Prop :=
  p.round = c ∧ made ++ p.rest = K.block c t ∨ p.round + 1 = c ∧ p.rest = [] ∧ made = []

/-- What the memory holds: the rounds before the current one, and what has been made of it. -/
def Inv (K : Kernel τ σ ρ) (order : List τ) (x : Memory τ σ ρ) (s : State τ σ ρ) : Prop :=
  ∃ c ≤ K.rounds, ∃ made : τ → List (Access σ ρ), (∀ t, Current K c (made t) t (s.phase t)) ∧
    s.memory = actAll order made (K.sequential order x c)

variable {order : List τ} {x : Memory τ σ ρ}

omit [Fintype τ] in
theorem Inv.start : Inv K order x (State.start K x) :=
  ⟨0, Nat.zero_le _, fun _ => [], fun _ => Or.inl ⟨rfl, rfl⟩, (actAll_none (fun _ _ => rfl) x).symm⟩

/-- **A step keeps it.** -/
theorem Inv.step (hK : K.Independent) (hnodup : order.Nodup) (horder : ∀ t, t ∈ order)
    {s s' : State τ σ ρ} {a : Action τ} (hI : Inv K order x s) (h : step K s a = some s') :
    Inv K order x s' := by
  obtain ⟨c, hc, made, hcur, hmem⟩ := hI
  cases a with
  | access t =>
      obtain ⟨f, rest, hrest, rfl⟩ := step_access_eq_some h
      -- the thread is in the current round
      obtain ⟨hround, hblock⟩ : (s.phase t).round = c ∧ made t ++ f :: rest = K.block c t := by
        rcases hcur t with ⟨hround, hblock⟩ | ⟨-, hnil, -⟩
        · exact ⟨hround, hrest ▸ hblock⟩
        · rw [hrest] at hnil
          exact absurd hnil (List.cons_ne_nil f rest)
      have hf : f ∈ K.block c t := by
        rw [← hblock]
        exact List.mem_append_right _ List.mem_cons_self
      have hind : ∀ u, u ≠ t → ∀ g ∈ made u, BarrierRounds.Independent f g := by
        intro u hu g hg
        rcases hcur u with ⟨-, hblock'⟩ | ⟨-, -, hnil⟩
        · exact hK c t u (Ne.symm hu) f hf g (hblock' ▸ List.mem_append_left _ hg)
        · rw [hnil] at hg
          exact absurd hg List.not_mem_nil
      refine ⟨c, hc, update made t (made t ++ [f]), fun u => ?_, ?_⟩
      · by_cases hut : u = t
        · subst hut
          simp only [update_self]
          exact Or.inl ⟨hround, by rw [List.append_assoc, List.singleton_append, hblock]⟩
        · simp only [update_of_ne hut]
          exact hcur u
      · rw [actAll_update hnodup (horder t) hind, ← hmem]
  | barrier t =>
      obtain ⟨hlt, hall, rfl⟩ := step_barrier_eq_some h
      rcases hcur t with ⟨hround, -⟩ | ⟨hround, -, hnil⟩
      · -- the first thread that leaves the current round: all have made all of it
        have hfull : ∀ u, (s.phase u).round = c ∧ (s.phase u).rest = [] ∧
            made u = K.block c u := by
          intro u
          rcases hcur u with ⟨hu, hblock⟩ | ⟨hu, -, -⟩
          · rcases hall u with hbeyond | ⟨-, hempty⟩
            · omega
            · have hnil := List.isEmpty_iff.1 hempty
              rw [hnil, List.append_nil] at hblock
              exact ⟨hu, hnil, hblock⟩
          · rcases hall u with hbeyond | ⟨heq, -⟩ <;> omega
        refine ⟨c + 1, by omega, fun _ => [], fun u => ?_, ?_⟩
        · by_cases hut : u = t
          · subst hut
            simp only [update_self, hround]
            exact Or.inl ⟨rfl, rfl⟩
          · simp only [update_of_ne hut]
            exact Or.inr ⟨by rw [(hfull u).1], (hfull u).2.1, rfl⟩
        · rw [hmem, Kernel.sequential, actAll_congr fun u _ => (hfull u).2.2,
            actAll_none fun _ _ => rfl]
      · -- a thread that comes to the current round
        refine ⟨c, hc, made, fun u => ?_, hmem⟩
        by_cases hut : u = t
        · subst hut
          simp only [update_self, hround, hnil]
          exact Or.inl ⟨rfl, rfl⟩
        · simp only [update_of_ne hut]
          exact hcur u

omit [Fintype τ] in
/-- A run of no threads. -/
theorem sequential_nil (x : Memory τ σ ρ) (k : ℕ) : K.sequential [] x k = x := by
  induction k with
  | zero => rfl
  | succ k ih => rw [Kernel.sequential, actAll_nil, ih]

/-- **Every interleaving does what the sequential run does.** -/
theorem memory_of_finished (hK : K.Independent) (hnodup : order.Nodup) (horder : ∀ t, t ∈ order)
    {s : State τ σ ρ} (h : Reachable (BarrierRounds.step K) (State.start K x) s)
    (hs : s.Finished K) : s.memory = K.sequential order x K.rounds := by
  obtain ⟨c, hc, made, hcur, hmem⟩ :=
    h.inv (Inv K order x) (fun _ _ _ hI => hI.step hK hnodup horder) Inv.start
  rcases isEmpty_or_nonempty τ with hempty | ⟨⟨t⟩⟩
  · have hnil : order = [] := List.eq_nil_iff_forall_not_mem.2 fun t => hempty.elim t
    subst hnil
    rw [hmem, sequential_nil, sequential_nil, actAll_nil]
  -- all threads are behind the last barrier, where nothing has been made
  have hround : c = K.rounds := by
    have ht := hs t
    rcases hcur t with ⟨hround, -⟩ | ⟨hround, -, -⟩ <;> omega
  have hmade : ∀ t ∈ order, made t = [] := by
    intro t _
    rcases hcur t with ⟨-, hblock⟩ | ⟨-, -, hnil⟩
    · rw [Kernel.block, if_neg (by omega)] at hblock
      exact (List.append_eq_nil_iff.1 hblock).1
    · exact hnil
  rw [hmem, actAll_none hmade, hround]

/-! ### No deadlock -/

/-- No thread is beyond the last round. -/
theorem round_le {s : State τ σ ρ} (h : Reachable (step K) (State.start K x) s) (t : τ) :
    (s.phase t).round ≤ K.rounds := by
  refine h.inv (fun s => ∀ t, (s.phase t).round ≤ K.rounds) (fun s a s' hI hstep t => ?_)
    (fun _ => Nat.zero_le _) t
  cases a with
  | access u =>
      obtain ⟨f, rest, -, rfl⟩ := step_access_eq_some hstep
      by_cases htu : t = u
      · subst htu
        simp only [update_self]
        exact hI t
      · simp only [update_of_ne htu]
        exact hI t
  | barrier u =>
      obtain ⟨hlt, -, rfl⟩ := step_barrier_eq_some hstep
      by_cases htu : t = u
      · subst htu
        simp only [update_self]
        exact hlt
      · simp only [update_of_ne htu]
        exact hI t

/-- **No deadlock**: where no thread can move, all rounds are over. -/
theorem finished_of_terminal {s : State τ σ ρ} (h : Reachable (step K) (State.start K x) s)
    (hs : Terminal (step K) s) : s.Finished K := by
  have hrest : ∀ u, (s.phase u).rest = [] := by
    intro u
    cases hu : (s.phase u).rest with
    | nil => rfl
    | cons f rest =>
        have hnone := hs (.access u)
        simp [step, hu] at hnone
  intro t
  by_contra hne
  -- the thread that is furthest behind could go on
  have : Nonempty τ := ⟨t⟩
  obtain ⟨u, hu⟩ := Finite.exists_min fun v => (s.phase v).round
  have hlt : (s.phase u).round < K.rounds :=
    lt_of_le_of_lt (hu t) (lt_of_le_of_ne (round_le h t) hne)
  have hall : ∀ v, (s.phase v).Arrived (s.phase u).round := by
    intro v
    rcases Nat.lt_or_eq_of_le (hu v) with hbeyond | heq
    · exact Or.inl hbeyond
    · exact Or.inr ⟨heq.symm, List.isEmpty_iff.2 (hrest v)⟩
  have hnone := hs (.barrier u)
  rw [step, if_pos ⟨hlt, hall⟩] at hnone
  exact Option.some_ne_none _ hnone

/-! ### How long a run is -/

/-- The steps that a thread has to make. -/
def Phase.left (K : Kernel τ σ ρ) (t : τ) (p : Phase σ ρ) : ℕ :=
  p.rest.length + ∑ k ∈ Finset.Ico (p.round + 1) (K.rounds + 1), (1 + (K.block k t).length)

/-- The steps that all threads have to make. -/
def State.left (K : Kernel τ σ ρ) (s : State τ σ ρ) : ℕ := ∑ t, (s.phase t).left K t

/-- One thread moves. -/
theorem left_update_lt {s : State τ σ ρ} {t : τ} {p : Phase σ ρ} {y : Memory τ σ ρ}
    (h : p.left K t < (s.phase t).left K t) :
    State.left K ⟨y, update s.phase t p⟩ < s.left K := by
  refine Finset.sum_lt_sum (fun u _ => ?_) ⟨t, Finset.mem_univ t, ?_⟩
  · by_cases hut : u = t
    · subst hut
      simp only [update_self]
      exact h.le
    · simp only [update_of_ne hut]
      exact le_rfl
  · simp only [update_self]
    exact h

/-- **A step less.** -/
theorem left_step {s s' : State τ σ ρ} {a : Action τ} (h : step K s a = some s') :
    s'.left K < s.left K := by
  cases a with
  | access t =>
      obtain ⟨f, rest, hrest, rfl⟩ := step_access_eq_some h
      refine left_update_lt ?_
      simp only [Phase.left, hrest, List.length_cons]
      omega
  | barrier t =>
      obtain ⟨hlt, hall, rfl⟩ := step_barrier_eq_some h
      refine left_update_lt ?_
      have hsum := Finset.sum_eq_sum_Ico_succ_bot
        (by omega : (s.phase t).round + 1 < K.rounds + 1) fun k => 1 + (K.block k t).length
      simp only [Phase.left, hsum]
      omega

/-- **What a kernel computes**, however its threads are interleaved: no run is longer than a bound,
every run can be carried on to an end, and an end is reached with all rounds over and with `y` in
the shared state. -/
structure Kernel.Computes (K : Kernel τ σ ρ) (x : Memory τ σ ρ) (y : σ) : Prop where
  bounded : ∃ n, ∀ as s, run (step K) (State.start K x) as = some s → as.length ≤ n
  ends : ∀ s, Reachable (step K) (State.start K x) s →
    ∃ as s', run (step K) s as = some s' ∧ Terminal (step K) s'
  shared : ∀ s, Reachable (step K) (State.start K x) s → Terminal (step K) s →
    s.Finished K ∧ s.memory.1 = y

/-- **A kernel with independent threads computes what its sequential run computes**, in any order of
the threads. -/
theorem Kernel.Independent.computes (hK : K.Independent) (hnodup : order.Nodup)
    (horder : ∀ t, t ∈ order) (x : Memory τ σ ρ) :
    K.Computes x (K.sequential order x K.rounds).1 where
  bounded := by
    refine ⟨(State.start K x).left K, fun as s h => ?_⟩
    have hle := length_le_measure (State.left K) (fun _ _ _ => left_step) h
    omega
  ends s _ := exists_terminal (State.left K) (fun _ _ _ => left_step) s
  shared s h hs := by
    have hfin := finished_of_terminal h hs
    exact ⟨hfin, by rw [memory_of_finished hK hnodup horder h hfin]⟩

end BarrierRounds
