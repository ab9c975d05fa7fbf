/-
**The kernel with shared memory.**

`histogramGPUSharedMem` counts in an array of each block, which has no values at first, and then
adds these arrays to the global counters.  Thread `t` of a block sets the counter `t` of the block
to zero before the loop and adds it to the global ones after it.

The threads are interleaved in any order in which they wait for each other at the two barriers.

Main definitions:

* `Histogram.Phase` — where a thread is;
* `Histogram.SharedMem`, `Histogram.histogramGPUSharedMem` — the kernel;
* `Histogram.Control` — what the barriers guarantee.

Main results:

* `Histogram.shared_step_cases` — the steps of a thread;
* `Histogram.Control.goto`, `Histogram.Control.visit` — what the barriers guarantee is kept;
* `Histogram.histogramGPUSharedMem_ends` — **every run ends**;
* `Histogram.all_done_of_terminal` — no thread waits for ever.
-/

import CppSamples.Histogram

set_option relaxedAutoImplicit false
set_option autoImplicit false

namespace Histogram

open Function GridStride TransitionSystem

/-- Where a thread is in the kernel. -/
inductive Phase
  /-- before `s_res[threadIdx.x] = 0` -/
  | initializing
  /-- at the first `__syncthreads()` -/
  | firstBarrier
  /-- in the loop -/
  | adding
  /-- at the second `__syncthreads()` -/
  | secondBarrier
  /-- before the addition to `res` -/
  | combining
  | done
  deriving DecidableEq

/-- The phases in their order. -/
def Phase.rank : Phase → ℕ
  | .initializing => 0
  | .firstBarrier => 1
  | .adding => 2
  | .secondBarrier => 3
  | .combining => 4
  | .done => 5

theorem Phase.rank_injective : Injective Phase.rank := by
  intro p q h
  cases p <;> cases q <;> first | rfl | exact absurd h (by decide)

/-- The state of the kernel: the phases, the loop variables, the counters of the blocks and the
global ones, and the indices whose pass has been made. -/
structure SharedMem (G T : ℕ) where
  phase : Thread G T → Phase
  i : Thread G T → BitVec 64
  sRes : Fin G → Counters
  res : Counters
  visits : List ℕ

variable (d : Dialect) {G T : ℕ}

/-- The state before the kernel.  The counters of the blocks have arbitrary values. -/
def SharedMem.start (sRes : Fin G → Counters) (res : Counters) : SharedMem G T :=
  ⟨fun _ => .initializing, tid d, sRes, res, []⟩

/-- The thread `a` goes on to the phase `p`. -/
def SharedMem.goto (s : SharedMem G T) (a : Thread G T) (p : Phase) : SharedMem G T :=
  { s with phase := update s.phase a p }

/-- `s_res[threadIdx.x] = 0` under its test. -/
def SharedMem.clear (s : SharedMem G T) (a : Thread G T) : SharedMem G T :=
  if a.2 < numBins then
    { s with sRes := update s.sRes a.1 (update (s.sRes a.1) a.2 0#32) }
  else s

/-- A pass of the loop. -/
def SharedMem.add (input : ℕ → BitVec 32) (s : SharedMem G T) (a : Thread G T) : SharedMem G T :=
  { s with
    i := update s.i a (s.i a + stride d G T)
    sRes := update s.sRes a.1 (increment (s.sRes a.1) (input (s.i a).toNat))
    visits := s.visits ++ [(s.i a).toNat] }

/-- `atomicAdd(&res[threadIdx.x], s_res[threadIdx.x])` under its test. -/
def SharedMem.combine (s : SharedMem G T) (a : Thread G T) : SharedMem G T :=
  if a.2 < numBins then { s with res := update s.res a.2 (s.res a.2 + s.sRes a.1 a.2) } else s

/-- **The kernel**: a step of the thread `a`.  At a barrier it goes on when all threads of its block
have come there. -/
def histogramGPUSharedMem (input : ℕ → BitVec 32) (n : BitVec 32) (s : SharedMem G T)
    (a : Thread G T) : Option (SharedMem G T) :=
  match s.phase a with
  | .initializing => some ((s.clear a).goto a .firstBarrier)
  | .firstBarrier =>
    if ∀ t, Phase.firstBarrier.rank ≤ (s.phase (a.1, t)).rank then some (s.goto a .adding)
    else none
  | .adding =>
    if s.i a < n.setWidth 64 then some (s.add d input a) else some (s.goto a .secondBarrier)
  | .secondBarrier =>
    if ∀ t, Phase.secondBarrier.rank ≤ (s.phase (a.1, t)).rank then some (s.goto a .combining)
    else none
  | .combining => some ((s.combine a).goto a .done)
  | .done => none

variable {input : ℕ → BitVec 32} {n : BitVec 32} {s t : SharedMem G T} {a : Thread G T}

@[simp] theorem clear_phase : (s.clear a).phase = s.phase := by
  unfold SharedMem.clear
  split <;> rfl

@[simp] theorem clear_i : (s.clear a).i = s.i := by
  unfold SharedMem.clear
  split <;> rfl

@[simp] theorem clear_visits : (s.clear a).visits = s.visits := by
  unfold SharedMem.clear
  split <;> rfl

@[simp] theorem clear_res : (s.clear a).res = s.res := by
  unfold SharedMem.clear
  split <;> rfl

@[simp] theorem combine_phase : (s.combine a).phase = s.phase := by
  unfold SharedMem.combine
  split <;> rfl

@[simp] theorem combine_i : (s.combine a).i = s.i := by
  unfold SharedMem.combine
  split <;> rfl

@[simp] theorem combine_visits : (s.combine a).visits = s.visits := by
  unfold SharedMem.combine
  split <;> rfl

@[simp] theorem combine_sRes : (s.combine a).sRes = s.sRes := by
  unfold SharedMem.combine
  split <;> rfl

/-- **The steps of a thread.** -/
theorem shared_step_cases (h : histogramGPUSharedMem d input n s a = some t) :
    (s.phase a = .initializing ∧ t = (s.clear a).goto a .firstBarrier) ∨
      (s.phase a = .firstBarrier ∧ (∀ u, 1 ≤ (s.phase (a.1, u)).rank) ∧ t = s.goto a .adding) ∨
      (s.phase a = .adding ∧ s.i a < n.setWidth 64 ∧ t = s.add d input a) ∨
      (s.phase a = .adding ∧ ¬s.i a < n.setWidth 64 ∧ t = s.goto a .secondBarrier) ∨
      (s.phase a = .secondBarrier ∧ (∀ u, 3 ≤ (s.phase (a.1, u)).rank) ∧
        t = s.goto a .combining) ∨
      (s.phase a = .combining ∧ t = (s.combine a).goto a .done) := by
  unfold histogramGPUSharedMem at h
  split at h
  · exact .inl ⟨‹_›, (Option.some.inj h).symm⟩
  · split_ifs at h with hall
    exact .inr (.inl ⟨‹_›, hall, (Option.some.inj h).symm⟩)
  · split_ifs at h with hlt
    · exact .inr (.inr (.inl ⟨‹_›, hlt, (Option.some.inj h).symm⟩))
    · exact .inr (.inr (.inr (.inl ⟨‹_›, hlt, (Option.some.inj h).symm⟩)))
  · split_ifs at h with hall
    exact .inr (.inr (.inr (.inr (.inl ⟨‹_›, hall, (Option.some.inj h).symm⟩))))
  · exact .inr (.inr (.inr (.inr (.inr ⟨‹_›, (Option.some.inj h).symm⟩))))
  · exact absurd h (by simp)

/-! ### The barriers -/

/-- **What the barriers guarantee.**  No thread is behind a barrier that another one of its block
has not reached; behind the loop the loop variable has come to the end, and before it to its
beginning. -/
structure Control (n : ℕ) (phase : Thread G T → Phase) (cursor : Thread G T → ℕ) : Prop where
  first : ∀ b t u, 2 ≤ (phase (b, t)).rank → 1 ≤ (phase (b, u)).rank
  second : ∀ b t u, 4 ≤ (phase (b, t)).rank → 3 ≤ (phase (b, u)).rank
  finished : ∀ a, 3 ≤ (phase a).rank → n ≤ cursor a
  unstarted : ∀ a, (phase a).rank ≤ 1 → cursor a = number G T a

namespace Control

variable {m : ℕ} {phase : Thread G T → Phase} {cursor : Thread G T → ℕ}

/-- A thread that goes on does not fall behind. -/
theorem rank_le_update {q : Phase} (hq : (phase a).rank ≤ q.rank) (b : Thread G T) :
    (phase b).rank ≤ (update phase a q b).rank := by
  by_cases hb : b = a
  · subst hb
    rwa [update_self]
  · rw [update_of_ne hb]

/-- **A thread goes on to the next phase.** -/
theorem goto (h : Control m phase cursor) {q : Phase} (hq : q.rank = (phase a).rank + 1)
    (hfirst : q = .adding → ∀ u, 1 ≤ (phase (a.1, u)).rank)
    (hsecond : q = .combining → ∀ u, 3 ≤ (phase (a.1, u)).rank)
    (hfinished : q = .secondBarrier → m ≤ cursor a) : Control m (update phase a q) cursor where
  first b t u ht := by
    refine le_trans ?_ (rank_le_update (by omega) (b, u))
    by_cases hb : (b, t) = a
    · subst hb
      rw [update_self] at ht
      by_cases hadding : q = .adding
      · exact hfirst hadding u
      · have hne : q.rank ≠ 2 := fun hrank => hadding (Phase.rank_injective hrank)
        exact h.first b t u (by omega)
    · rw [update_of_ne hb] at ht
      exact h.first b t u ht
  second b t u ht := by
    refine le_trans ?_ (rank_le_update (by omega) (b, u))
    by_cases hb : (b, t) = a
    · subst hb
      rw [update_self] at ht
      by_cases hcombining : q = .combining
      · exact hsecond hcombining u
      · have hne : q.rank ≠ 4 := fun hrank => hcombining (Phase.rank_injective hrank)
        exact h.second b t u (by omega)
    · rw [update_of_ne hb] at ht
      exact h.second b t u ht
  finished b hb := by
    by_cases hba : b = a
    · subst hba
      rw [update_self] at hb
      by_cases hsecondBarrier : q = .secondBarrier
      · exact hfinished hsecondBarrier
      · have hne : q.rank ≠ 3 := fun hrank => hsecondBarrier (Phase.rank_injective hrank)
        exact h.finished b (by omega)
    · rw [update_of_ne hba] at hb
      exact h.finished b hb
  unstarted b hb := h.unstarted b ((rank_le_update (by omega) b).trans hb)

/-- A thread in the loop may move its loop variable. -/
theorem visit (h : Control m phase cursor) (ha : phase a = .adding) (x : ℕ) :
    Control m phase (update cursor a x) where
  first := h.first
  second := h.second
  finished b hb := by
    have hne : b ≠ a := by
      rintro rfl
      rw [ha] at hb
      exact absurd hb (by decide)
    rw [update_of_ne hne]
    exact h.finished b hb
  unstarted b hb := by
    have hne : b ≠ a := by
      rintro rfl
      rw [ha] at hb
      exact absurd hb (by decide)
    rw [update_of_ne hne]
    exact h.unstarted b hb

end Control

/-! ### Termination -/

/-- How far a thread is from its end. -/
def remaining (n : BitVec 32) (s : SharedMem G T) (a : Thread G T) : ℕ :=
  (n.toNat - (s.i a).toNat) + (Phase.done.rank - (s.phase a).rank)

/-- A thread that goes on to the next phase comes nearer to its end. -/
theorem remaining_goto {q : Phase} (hq : q.rank = (s.phase a).rank + 1)
    (hphase : t.phase = update s.phase a q) (hi : t.i = s.i) :
    remaining n t a < remaining n s a ∧ ∀ b, b ≠ a → remaining n t b = remaining n s b := by
  have hle : q.rank ≤ Phase.done.rank := by
    cases q <;> decide
  refine ⟨?_, fun b hb => ?_⟩
  · unfold remaining
    rw [hphase, hi, update_self]
    omega
  · unfold remaining
    rw [hphase, hi, update_of_ne hb]

/-- **Every step brings its thread nearer to its end.** -/
theorem remaining_lt (hpos : 0 < G * T) (hGT : G * T < 2 ^ 31)
    (hstep : histogramGPUSharedMem d input n s a = some t) :
    ∑ b, remaining n t b < ∑ b, remaining n s b := by
  have hthread : remaining n t a < remaining n s a ∧
      ∀ b, b ≠ a → remaining n t b = remaining n s b := by
    obtain ⟨ha, rfl⟩ | ⟨ha, -, rfl⟩ | ⟨ha, hlt, rfl⟩ | ⟨ha, -, rfl⟩ | ⟨ha, -, rfl⟩ | ⟨ha, rfl⟩ :=
      shared_step_cases d hstep
    · exact remaining_goto (q := .firstBarrier) (by rw [ha]; rfl) (by simp [SharedMem.goto])
        (by simp [SharedMem.goto])
    · exact remaining_goto (q := .adding) (by rw [ha]; rfl) rfl rfl
    · have hnext := add_stride_toNat d hGT hlt
      rw [lt_setWidth_iff] at hlt
      refine ⟨?_, fun b hb => ?_⟩
      · simp only [remaining, SharedMem.add, update_self]
        omega
      · simp only [remaining, SharedMem.add, update_of_ne hb]
    · exact remaining_goto (q := .secondBarrier) (by rw [ha]; rfl) rfl rfl
    · exact remaining_goto (q := .combining) (by rw [ha]; rfl) rfl rfl
    · exact remaining_goto (q := .done) (by rw [ha]; rfl) (by simp [SharedMem.goto])
        (by simp [SharedMem.goto])
  exact sum_lt_of_lt_at hthread.1 hthread.2

/-- **Every run ends**, and its length is bounded. -/
theorem histogramGPUSharedMem_ends (hpos : 0 < G * T) (hGT : G * T < 2 ^ 31) (input : ℕ → BitVec 32)
    (n : BitVec 32) (s : SharedMem G T) :
    (∀ as t, run (histogramGPUSharedMem d input n) s as = some t →
      as.length ≤ ∑ b, remaining n s b) ∧
    ∃ as t, run (histogramGPUSharedMem d input n) s as = some t ∧
      Terminal (histogramGPUSharedMem d input n) t := by
  have hstep : ∀ (s : SharedMem G T) a t, histogramGPUSharedMem d input n s a = some t →
      ∑ b, remaining n t b < ∑ b, remaining n s b := fun _ _ _ => remaining_lt d hpos hGT
  refine ⟨fun as t hrun => ?_, exists_terminal _ hstep s⟩
  exact (Nat.le_add_right _ _).trans (length_le_measure _ hstep hrun)

/-- Where no step is possible all threads have come to the first barrier. -/
theorem first_le_of_terminal (hend : Terminal (histogramGPUSharedMem d input n) s)
    (a : Thread G T) : Phase.firstBarrier.rank ≤ (s.phase a).rank := by
  have hnone : histogramGPUSharedMem d input n s a = none := hend a
  unfold histogramGPUSharedMem at hnone
  cases hphase : s.phase a with
  | initializing =>
    rw [hphase] at hnone
    exact absurd hnone (by simp)
  | firstBarrier => exact le_rfl
  | adding => decide
  | secondBarrier => decide
  | combining => decide
  | done => decide

/-- They do not wait there, so they have come to the second one. -/
theorem second_le_of_terminal (hend : Terminal (histogramGPUSharedMem d input n) s)
    (a : Thread G T) : Phase.secondBarrier.rank ≤ (s.phase a).rank := by
  have hfirst := first_le_of_terminal d hend
  have hnone : histogramGPUSharedMem d input n s a = none := hend a
  unfold histogramGPUSharedMem at hnone
  cases hphase : s.phase a with
  | initializing =>
    have ha := hfirst a
    rw [hphase] at ha
    exact absurd ha (by decide)
  | firstBarrier =>
    rw [hphase] at hnone
    dsimp only at hnone
    rw [if_pos fun u => hfirst (a.1, u)] at hnone
    exact absurd hnone (by simp)
  | adding =>
    rw [hphase] at hnone
    dsimp only at hnone
    split_ifs at hnone
  | secondBarrier => exact le_rfl
  | combining => decide
  | done => decide

/-- **No thread waits for ever**: where no step is possible all threads are done. -/
theorem all_done_of_terminal (hend : Terminal (histogramGPUSharedMem d input n) s)
    (a : Thread G T) : s.phase a = .done := by
  have hsecond := second_le_of_terminal d hend
  have hnone : histogramGPUSharedMem d input n s a = none := hend a
  have ha := hsecond a
  unfold histogramGPUSharedMem at hnone
  cases hphase : s.phase a with
  | initializing =>
    rw [hphase] at ha
    exact absurd ha (by decide)
  | firstBarrier =>
    rw [hphase] at ha
    exact absurd ha (by decide)
  | adding =>
    rw [hphase] at ha
    exact absurd ha (by decide)
  | secondBarrier =>
    rw [hphase] at hnone
    dsimp only at hnone
    rw [if_pos fun u => hsecond (a.1, u)] at hnone
    exact absurd hnone (by simp)
  | combining =>
    rw [hphase] at hnone
    exact absurd hnone (by simp)
  | done => rfl

end Histogram
