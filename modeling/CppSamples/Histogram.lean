/-
**Histograms on a graphics processor.**

`histogramCPU` counts the values of an array one after the other.  `histogramGPUGlobalMem` counts
them by all threads of a grid at once, each in a loop with the stride of the grid and with atomic
additions to the same counters.  The kernel exists in two dialects, which differ in the width of the
arithmetic for the number of a thread.

The threads are interleaved in any order.  The only effect of a pass of the loop that other threads
see is its atomic addition, so a pass is one step.  As an auxiliary variable the state keeps the
indices whose pass has been made.

Main definitions:

* `Histogram.histogramCPU` — the sequential count;
* `Histogram.tid`, `Histogram.stride` — the first index of a thread and the stride;
* `Histogram.GlobalMem`, `Histogram.histogramGPUGlobalMem` — the kernel;
* `Histogram.GlobalInv` — its invariant.

Main results:

* `Histogram.histogramCPU_apply` — the sequential count is the number of the occurrences;
* `Histogram.tid_toNat`, `Histogram.stride_toNat` — the arithmetic does not overflow;
* `Histogram.GlobalInv.step` — the invariant is kept;
* `Histogram.histogramGPUGlobalMem_spec` — **every run ends, visits every index once and counts as
  the sequential one**.
-/

import CppSamples.CountedLoop
import CppSamples.GridStride
import CppSamples.TransitionSystem
import Mathlib.Data.BitVec
import Mathlib.Logic.Equiv.Fin.Basic

set_option relaxedAutoImplicit false
set_option autoImplicit false

namespace Histogram

open CountedLoop Function GridStride TransitionSystem

/-! ### Counters -/

/-- `NUM_BINS` -/
def numBins : ℕ := 256

/-- An array of counters of 32 bits. -/
abbrev Counters := ℕ → BitVec 32

/-- The addition of one to the counter `v`. -/
def increment (res : Counters) (v : BitVec 32) : Counters :=
  update res v.toNat (res v.toNat + 1#32)

/-- **The sequential count.** -/
def histogramCPU (input : ℕ → BitVec 32) (res : Counters) (n : BitVec 32) : Counters :=
  forBelow 0 n.toNat res fun i res => increment res (input i)

/-- How many of the indices have the value `v`. -/
def tally (input : ℕ → BitVec 32) (v : ℕ) (indices : List ℕ) : ℕ :=
  indices.countP fun i => (input i).toNat = v

theorem tally_concat (input : ℕ → BitVec 32) (v : ℕ) (indices : List ℕ) (i : ℕ) :
    tally input v (indices ++ [i]) =
      tally input v indices + if (input i).toNat = v then 1 else 0 := by
  unfold tally
  rw [List.countP_append, List.countP_singleton]
  simp

/-- An increment carries a count along. -/
theorem increment_apply {input : ℕ → BitVec 32} {res res₀ : Counters} {indices : List ℕ}
    (h : ∀ v, res v = res₀ v + BitVec.ofNat 32 (tally input v indices)) (i v : ℕ) :
    increment res (input i) v = res₀ v + BitVec.ofNat 32 (tally input v (indices ++ [i])) := by
  unfold increment
  rw [tally_concat]
  by_cases hv : (input i).toNat = v
  · subst hv
    rw [update_self, h, if_pos rfl, BitVec.ofNat_add, BitVec.add_assoc]
  · rw [update_of_ne (Ne.symm hv), h, if_neg hv, Nat.add_zero]

/-- **The sequential count is the number of the occurrences.** -/
theorem histogramCPU_apply (input : ℕ → BitVec 32) (res : Counters) (n : BitVec 32) (v : ℕ) :
    histogramCPU input res n v = res v + BitVec.ofNat 32 (tally input v (List.range n.toNat)) := by
  unfold histogramCPU
  generalize n.toNat = m
  induction m generalizing v with
  | zero => simp [tally]
  | succ m ih =>
    rw [forBelow_succ (Nat.zero_le m), List.range_succ]
    exact increment_apply ih m v

/-- Where all values are below `NUM_BINS`, nothing behind the counters is touched. -/
theorem histogramCPU_of_numBins_le {input : ℕ → BitVec 32} {n : BitVec 32}
    (hinput : ∀ i < n.toNat, (input i).toNat < numBins) (res : Counters) {v : ℕ}
    (hv : numBins ≤ v) : histogramCPU input res n v = res v := by
  have hzero : tally input v (List.range n.toNat) = 0 := by
    refine List.countP_eq_zero.mpr fun i hi => ?_
    have hlt := hinput i (List.mem_range.mp hi)
    simp
    omega
  rw [histogramCPU_apply, hzero]
  simp

/-! ### The grid -/

/-- The two versions of the kernels. -/
inductive Dialect
  /-- `histogram.cu`, where the dimensions of the grid are `unsigned` -/
  | cuda
  /-- `histogram.dp.cpp`, where they are of type `size_t` -/
  | sycl

/-- The width of the dimensions of the grid. -/
def Dialect.width : Dialect → ℕ
  | .cuda => 32
  | .sycl => 64

/-- The threads of a grid: the number of the block, and the number of the thread in it. -/
abbrev Thread (G T : ℕ) := Fin G × Fin T

variable (d : Dialect) {G T : ℕ}

/-- `int tid = blockIdx.x * blockDim.x + threadIdx.x;`, as the `size_t` that the loop begins
with. -/
def tid (a : Thread G T) : BitVec 64 :=
  let id : BitVec d.width :=
    BitVec.ofNat d.width a.1 * BitVec.ofNat d.width T + BitVec.ofNat d.width a.2
  (id.setWidth 32).signExtend 64

/-- `gridDim.x * blockDim.x`, as the `size_t` that is added to the index. -/
def stride (G T : ℕ) : BitVec 64 :=
  (BitVec.ofNat d.width G * BitVec.ofNat d.width T).setWidth 64

/-- The number of a thread among all threads. -/
abbrev number (G T : ℕ) : Thread G T ≃ Fin (G * T) := finProdFinEquiv

theorem number_val (a : Thread G T) : (number G T a : ℕ) = a.2 + T * a.1 := rfl

theorem width_ge : 32 ≤ d.width := by
  cases d <;> decide

/-- A number that fits into 31 bits survives all conversions. -/
theorem ofNat_width_toNat {x : ℕ} (hx : x < 2 ^ 31) : x % 2 ^ d.width = x := by
  have hpow : 2 ^ 32 ≤ 2 ^ d.width := Nat.pow_le_pow_right (by decide) (width_ge d)
  exact Nat.mod_eq_of_lt (by omega)

theorem signExtend_toNat {x : BitVec 32} (hx : x.toNat < 2 ^ 31) :
    (x.signExtend 64).toNat = x.toNat := by
  have hmsb : x.msb = false := by
    rw [BitVec.msb_eq_decide]
    simpa using hx
  rw [BitVec.signExtend_eq_setWidth_of_msb_false hmsb, BitVec.toNat_setWidth]
  omega

variable (hGT : G * T < 2 ^ 31)

include hGT

/-- **The first index of a thread is its number.** -/
theorem tid_toNat (a : Thread G T) : (tid d a).toNat = number G T a := by
  have hlt : (number G T a : ℕ) < 2 ^ 31 := (number G T a).isLt.trans hGT
  rw [number_val] at hlt ⊢
  have hid : ((BitVec.ofNat d.width a.1 * BitVec.ofNat d.width T +
      BitVec.ofNat d.width a.2).setWidth 32).toNat = a.2 + T * a.1 := by
    rw [BitVec.toNat_setWidth, BitVec.toNat_add, BitVec.toNat_mul, BitVec.toNat_ofNat,
      BitVec.toNat_ofNat, BitVec.toNat_ofNat, ← Nat.mul_mod, ← Nat.add_mod, Nat.mul_comm,
      Nat.add_comm, ofNat_width_toNat d hlt]
    omega
  rw [tid, signExtend_toNat (by rw [hid]; exact hlt), hid]

/-- **The stride is the number of all threads.** -/
theorem stride_toNat : (stride d G T).toNat = G * T := by
  rw [stride, BitVec.toNat_setWidth, BitVec.toNat_mul, BitVec.toNat_ofNat, BitVec.toNat_ofNat,
    ← Nat.mul_mod, ofNat_width_toNat d hGT]
  omega

/-- The next index of a thread. -/
theorem add_stride_toNat {i : BitVec 64} {n : BitVec 32} (hi : i < n.setWidth 64) :
    (i + stride d G T).toNat = i.toNat + G * T := by
  have hn := n.isLt
  rw [BitVec.lt_def, BitVec.toNat_setWidth] at hi
  rw [BitVec.toNat_add, stride_toNat d hGT]
  omega

omit hGT

theorem lt_setWidth_iff {i : BitVec 64} {n : BitVec 32} :
    i < n.setWidth 64 ↔ i.toNat < n.toNat := by
  have hn := n.isLt
  rw [BitVec.lt_def, BitVec.toNat_setWidth]
  omega

/-! ### The kernel on the global counters -/

/-- The state of the kernel: the loop variables, the counters, and the indices whose pass has been
made. -/
structure GlobalMem (G T : ℕ) where
  i : Thread G T → BitVec 64
  res : Counters
  visits : List ℕ

def GlobalMem.start (G T : ℕ) (res : Counters) : GlobalMem G T := ⟨tid d, res, []⟩

/-- **The kernel**: a pass of the loop of the thread `a`, where the loop goes on. -/
def histogramGPUGlobalMem (input : ℕ → BitVec 32) (n : BitVec 32) (s : GlobalMem G T)
    (a : Thread G T) : Option (GlobalMem G T) :=
  if s.i a < n.setWidth 64 then
    some
      { i := update s.i a (s.i a + stride d G T)
        res := increment s.res (input (s.i a).toNat)
        visits := s.visits ++ [(s.i a).toNat] }
  else none

section Global

variable {input : ℕ → BitVec 32} {n : BitVec 32} {res : Counters} {s t : GlobalMem G T}

/-- What a step does. -/
theorem global_step_eq_some {a : Thread G T} :
    histogramGPUGlobalMem d input n s a = some t ↔ s.i a < n.setWidth 64 ∧
      t = { i := update s.i a (s.i a + stride d G T)
            res := increment s.res (input (s.i a).toNat)
            visits := s.visits ++ [(s.i a).toNat] } := by
  unfold histogramGPUGlobalMem
  split_ifs with h
  · simp [h, eq_comm]
  · simp [h]

/-- **The invariant**: the loops have covered the visited indices, and these are counted. -/
structure GlobalInv (input : ℕ → BitVec 32) (n : BitVec 32) (res : Counters)
    (s : GlobalMem G T) : Prop where
  covered : Covered (number G T) n.toNat (fun a => (s.i a).toNat) s.visits
  res_eq : ∀ v, s.res v = res v + BitVec.ofNat 32 (tally input v s.visits)

theorem globalInv_start (hGT : G * T < 2 ^ 31) :
    GlobalInv input n res (GlobalMem.start d G T res) where
  covered := by
    have hstart : (fun a => ((GlobalMem.start d G T res).i a).toNat) =
        fun a => (number G T a : ℕ) := funext (tid_toNat d hGT)
    rw [hstart]
    exact covered_start (number G T) n.toNat
  res_eq v := by simp [GlobalMem.start, tally]

/-- The loop variables after a pass. -/
theorem toNat_update (hGT : G * T < 2 ^ 31) {i : Thread G T → BitVec 64} {a : Thread G T}
    (ha : i a < n.setWidth 64) :
    (fun b => (update i a (i a + stride d G T) b).toNat) =
      update (fun b => (i b).toNat) a ((i a).toNat + G * T) := by
  rw [← add_stride_toNat d hGT ha]
  exact funext fun b => apply_update (fun _ x => BitVec.toNat x) i a _ b

/-- **The invariant is kept.** -/
theorem GlobalInv.step (hGT : G * T < 2 ^ 31) (h : GlobalInv input n res s) {a : Thread G T}
    (hstep : histogramGPUGlobalMem d input n s a = some t) : GlobalInv input n res t := by
  obtain ⟨ha, rfl⟩ := (global_step_eq_some d).mp hstep
  refine ⟨?_, ?_⟩
  · dsimp only
    rw [toNat_update d hGT ha]
    exact h.covered.visit (lt_setWidth_iff.mp ha)
  · exact fun v => increment_apply h.res_eq (s.i a).toNat v

theorem GlobalInv.run (hGT : G * T < 2 ^ 31) {as : List (Thread G T)}
    (hrun : run (histogramGPUGlobalMem d input n) (GlobalMem.start d G T res) as = some s) :
    GlobalInv input n res s :=
  Reachable.inv (GlobalInv input n res) (fun _ _ _ h hstep => h.step d hGT hstep)
    (globalInv_start d hGT) ⟨as, hrun⟩

/-- A step makes one visit. -/
theorem visits_length {as : List (Thread G T)}
    (hrun : run (histogramGPUGlobalMem d input n) s as = some t) :
    t.visits.length = s.visits.length + as.length := by
  induction as generalizing s with
  | nil =>
    obtain rfl : s = t := by simpa using hrun
    simp
  | cons a as ih =>
    obtain ⟨u, hsu, hut⟩ := run_cons_eq_some.1 hrun
    obtain ⟨-, rfl⟩ := (global_step_eq_some d).mp hsu
    rw [ih hut]
    simp
    omega

/-- Every run can be brought to an end. -/
theorem exists_global_terminal (hpos : 0 < G * T) (hGT : G * T < 2 ^ 31) (s : GlobalMem G T) :
    ∃ as t, run (histogramGPUGlobalMem d input n) s as = some t ∧
      Terminal (histogramGPUGlobalMem d input n) t := by
  -- the distances of the loop variables from the end
  refine exists_terminal (fun s => ∑ a, (n.toNat - (s.i a).toNat)) (fun s a t hstep => ?_) s
  obtain ⟨ha, rfl⟩ := (global_step_eq_some d).mp hstep
  have hlt := lt_setWidth_iff.mp ha
  refine sum_lt_of_lt_at (a := a) ?_ fun b hb => ?_
  · dsimp only
    rw [update_self, add_stride_toNat d hGT ha]
    omega
  · dsimp only
    rw [update_of_ne hb]

/-- Where no step is possible all loop variables have come to the end. -/
theorem le_of_global_terminal (hend : Terminal (histogramGPUGlobalMem d input n) s)
    (a : Thread G T) : n.toNat ≤ (s.i a).toNat := by
  have hnone : histogramGPUGlobalMem d input n s a = none := hend a
  unfold histogramGPUGlobalMem at hnone
  split_ifs at hnone with hge
  rw [lt_setWidth_iff] at hge
  exact not_lt.mp hge

/-- **Every run ends**, after at most `n` passes.  At the end every index below `n` has been visited
exactly once, and the counters are those of the sequential count; nothing behind them has been
touched. -/
theorem histogramGPUGlobalMem_spec (hG : 1 ≤ G) (hT : 1 ≤ T) (hGT : G * T < 2 ^ 31)
    (hinput : ∀ i < n.toNat, (input i).toNat < numBins) {as : List (Thread G T)}
    (hrun : run (histogramGPUGlobalMem d input n) (GlobalMem.start d G T res) as = some s) :
    as.length ≤ n.toNat ∧
      (∃ bs t, run (histogramGPUGlobalMem d input n) s bs = some t ∧
        Terminal (histogramGPUGlobalMem d input n) t) ∧
      (Terminal (histogramGPUGlobalMem d input n) s →
        s.visits.Perm (List.range n.toNat) ∧ s.res = histogramCPU input res n ∧
          ∀ v, numBins ≤ v → s.res v = res v) := by
  have hpos : 0 < G * T := Nat.mul_pos hG hT
  have hinv := GlobalInv.run d hGT hrun
  refine ⟨?_, exists_global_terminal d hpos hGT s, fun hend => ?_⟩
  · have hlength := visits_length d hrun
    have hle := hinv.covered.length_le hpos
    simp only [GlobalMem.start, List.length_nil, Nat.zero_add] at hlength
    omega
  · have hperm := hinv.covered.perm_range hpos (le_of_global_terminal d hend)
    have hres : s.res = histogramCPU input res n := by
      funext v
      rw [hinv.res_eq, tally, hperm.countP_eq, histogramCPU_apply, tally]
    exact ⟨hperm, hres, fun v hv => hres ▸ histogramCPU_of_numBins_le hinput res hv⟩

/-- Two blocks of one thread count five values, three passes in one and two in the other. -/
theorem histogramGPUGlobalMem_spec_two :
    let input : ℕ → BitVec 32 := fun i => BitVec.ofNat 32 (i / 2)
    let kernel := histogramGPUGlobalMem .cuda input 5#32
    let schedule : List (Thread 2 1) := [(1, 0), (0, 0), (0, 0), (1, 0), (0, 0)]
    ∃ s, run kernel (GlobalMem.start .cuda 2 1 fun _ => 0#32) schedule = some s ∧
      schedule.length ≤ 5 ∧ (∃ bs t, run kernel s bs = some t ∧ Terminal kernel t) ∧
      s.visits.Perm (List.range 5) ∧ s.res = histogramCPU input (fun _ => 0#32) 5#32 ∧
        ∀ v, numBins ≤ v → s.res v = 0#32 := by
  intro input kernel schedule
  obtain ⟨s, hrun, hend⟩ : ∃ s, run kernel (GlobalMem.start .cuda 2 1 fun _ => 0#32) schedule =
      some s ∧ Terminal kernel s := by
    have hthreads : ∀ a : Thread 2 1, a = (0, 0) ∨ a = (1, 0) := by decide
    refine ⟨_, rfl, fun a => ?_⟩
    rcases hthreads a with rfl | rfl <;> rfl
  obtain ⟨hlength, hfinish, hcount⟩ := histogramGPUGlobalMem_spec .cuda (by decide) (by decide)
    (by decide) (by decide : ∀ i < (5#32).toNat, (input i).toNat < numBins) hrun
  exact ⟨s, hrun, hlength, hfinish, hcount hend⟩

end Global

end Histogram
