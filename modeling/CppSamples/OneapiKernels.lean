/-
**The kernels of the `oneapi` samples.**

`histo.cpp` counts in three kernels.  The first one has `N` work-items that increment the counters
without atomic operations, by a load and a store; it takes `N` rounds with a barrier after each, and
in each round one work-item makes its increment.  The second one makes the same increments as atomic
operations, in any order, and the third one increments the counters of the values of an array.
`simple2.cpp` and `simple-sycl-app.cpp` fill an array with the numbers of its cells.

All of them are threads in rounds, whose accesses in one round are independent.

Main definitions:

* `OneapiKernels.byRounds`, `OneapiKernels.atomically`, `OneapiKernels.histogram` — the kernels of
  `histo.cpp`;
* `OneapiKernels.fillBuffer`, `OneapiKernels.mismatchFound` — the kernel of the other two, and the
  check behind it.

Main results:

* `OneapiKernels.byRounds_computes` — **the increments without atomic operations count as the
  sequential histogram**;
* `OneapiKernels.histogram_computes` — so do the atomic ones;
* `OneapiKernels.fillBuffer_computes` — the check finds no mismatch.
-/

import CppSamples.BarrierRounds
import CppSamples.Histogram

set_option relaxedAutoImplicit false
set_option autoImplicit false

namespace OneapiKernels

open BarrierRounds CountedLoop Function Histogram TransitionSystem
open LockedSections (Access)

/-! ### The kernels -/

/-- Reading a value into the register. -/
def load (j : ℕ) : Access Counters (BitVec 32) := fun data _ => (data, data j)

/-- Writing the value in the register, and one more. -/
def store (j : ℕ) : Access Counters (BitVec 32) := fun data r => (update data j (r + 1#32), r)

/-- An atomic increment. -/
def atomicIncrement (v : BitVec 32) : Access Counters (BitVec 32) :=
  fun data r => (increment data v, r)

/-- **The first kernel of `histo.cpp`**: work-item `i` increments `data[j]` in round `i`. -/
def byRounds (N M : ℕ) : Kernel (Fin N) Counters (BitVec 32) where
  rounds := N
  body round i :=
    let j := i % M
    if i = round then [load j, store j] else []

/-- **The second kernel of `histo.cpp`**: work-item `i` increments `acc[j]`. -/
def atomically (N M : ℕ) : Kernel (Fin N) Counters (BitVec 32) where
  rounds := 1
  body _ i :=
    let j := i % M
    [atomicIncrement (BitVec.ofNat 32 j)]

/-- **The third kernel of `histo.cpp`**, which is that of `histogram_dpcpp.cpp`: work-item `i` reads
`acc2[i]` into the register and increments the counter of this value. -/
def histogram (N : ℕ) (acc2 : ℕ → BitVec 32) : Kernel (Fin N) Counters (BitVec 32) where
  rounds := 1
  body _ i := [fun acc _ => (acc, acc2 i), fun acc j => (increment acc j, j)]

/-- **The kernel of `simple2.cpp` and `simple-sycl-app.cpp`**: work-item `i` writes its number. -/
def fillBuffer (size : ℕ) : Kernel (Fin size) (ℕ → BitVec 32) Unit where
  rounds := 1
  body _ idx := [fun A r => (update A idx (BitVec.ofNat 32 idx), r)]

/-- The check of `simple-sycl-app.cpp`; the `cl_int` in the buffer is compared as a `size_t`. -/
def mismatchFound (size : ℕ) (A : ℕ → BitVec 32) : Bool :=
  (List.range size).any fun I => (A I).signExtend 64 != BitVec.ofNat 64 I

/-! ### Independent work-items -/

/-- Increments commute, of the same counter as of different ones. -/
theorem increment_comm (acc : Counters) (v w : BitVec 32) :
    increment (increment acc v) w = increment (increment acc w) v := by
  unfold increment
  by_cases hvw : v.toNat = w.toNat
  · rw [hvw]
  · rw [update_of_ne (Ne.symm hvw), update_of_ne hvw, update_comm (Ne.symm hvw)]

theorem byRounds_independent (N M : ℕ) : (byRounds N M).Independent := by
  refine Kernel.independent_of_body fun k _ t u htu f hf g hg => ?_
  -- at most one of the two makes accesses
  simp only [byRounds] at hf hg
  split_ifs at hf hg with ht hu
  · exact absurd (Fin.ext (ht.trans hu.symm)) htu
  all_goals exact absurd ‹_ ∈ []› List.not_mem_nil

theorem atomically_independent (N M : ℕ) : (atomically N M).Independent := by
  refine Kernel.independent_of_body fun k _ t u _ f hf g hg => ?_
  simp only [atomically, List.mem_singleton] at hf hg
  subst hf hg
  exact fun acc _ _ => ⟨increment_comm acc _ _, rfl, rfl⟩

theorem histogram_independent (N : ℕ) (acc2 : ℕ → BitVec 32) :
    (histogram N acc2).Independent := by
  refine Kernel.independent_of_body fun k _ t u _ f hf g hg => ?_
  simp only [histogram, List.mem_cons, List.not_mem_nil, or_false] at hf hg
  rcases hf with rfl | rfl <;> rcases hg with rfl | rfl
  · exact fun _ _ _ => ⟨rfl, rfl, rfl⟩
  · exact fun _ _ _ => ⟨rfl, rfl, rfl⟩
  · exact fun _ _ _ => ⟨rfl, rfl, rfl⟩
  · exact fun acc v w => ⟨increment_comm acc v w, rfl, rfl⟩

theorem fillBuffer_independent (size : ℕ) : (fillBuffer size).Independent := by
  refine Kernel.independent_of_body fun k _ t u htu f hf g hg => ?_
  simp only [fillBuffer, List.mem_singleton] at hf hg
  subst hf hg
  exact fun A _ _ => ⟨update_comm (fun h => htu (Fin.ext h)) _ _ _, rfl, rfl⟩

/-! ### One work-item after the other -/

/-- The values of the sequential histogram that the first two kernels make. -/
def residues (M : ℕ) (i : ℕ) : BitVec 32 := BitVec.ofNat 32 (i % M)

/-- A number of work-items as an `unsigned`. -/
theorem ofNat_toNat {n : ℕ} (hn : n < 2 ^ 32) : (BitVec.ofNat 32 n).toNat = n := by
  rw [BitVec.toNat_ofNat]
  exact Nat.mod_eq_of_lt hn

section Computes

variable {N M : ℕ} (hN : N ≤ 2 ^ 31) (hM : 0 < M) (data : Counters) (regs : Fin N → BitVec 32)

include hN

theorem residues_toNat {i : ℕ} (hi : i < N) : (residues M i).toNat = i % M := by
  have hle := Nat.mod_le i M
  exact ofNat_toNat (by omega)

include hM in
/-- The values are the remainders, as numbers of the type `int`, and each is that of a counter. -/
theorem residues_spec {i : ℕ} (hi : i < N) :
    (residues M i).toInt = (i % M : ℕ) ∧ (residues M i).toNat < M := by
  have hnat := residues_toNat (M := M) hN hi
  have hle := Nat.mod_le i M
  refine ⟨?_, hnat ▸ Nat.mod_lt i hM⟩
  rw [BitVec.toInt_eq_toNat_of_lt (by omega), hnat]

/-- The rounds of the first kernel. -/
theorem byRounds_sequential {k : ℕ} (hk : k ≤ N) :
    ((byRounds N M).sequential (List.finRange N) (data, regs) k).1 =
      forBelow 0 k data fun i data => increment data (residues M i) := by
  induction k with
  | zero => rfl
  | succ k ih =>
      have hblock : ∀ u : Fin N, (byRounds N M).block k u =
          if (u : ℕ) = k then [load (u % M), store (u % M)] else [] := fun u => if_pos hk
      have halone : ∀ u : Fin N, u ≠ ⟨k, hk⟩ → (byRounds N M).block k u = [] :=
        fun u hu => (hblock u).trans (if_neg fun h => hu (Fin.ext h))
      rw [Kernel.sequential,
        actAll_of_alone (List.nodup_finRange N) (List.mem_finRange _) halone, hblock, if_pos rfl,
        forBelow_succ k.zero_le, ← ih (by omega), increment, residues_toNat hN hk]
      simp only [acts_cons, acts_nil, act, load, store, update_self]

include hM

/-- **The increments without atomic operations count as the sequential histogram.**  The numbers of
the work-items and of the rounds are of the type `int`. -/
theorem byRounds_computes :
    (∀ i < N, (residues M i).toInt = (i % M : ℕ) ∧ (residues M i).toNat < M) ∧
      (byRounds N M).Computes (data, regs)
        (histogramCPU (residues M) data (BitVec.ofNat 32 N)) := by
  have heq : ((byRounds N M).sequential (List.finRange N) (data, regs) (byRounds N M).rounds).1 =
      histogramCPU (residues M) data (BitVec.ofNat 32 N) := by
    rw [histogramCPU, ofNat_toNat (by omega)]
    exact byRounds_sequential hN data regs le_rfl
  exact ⟨fun i hi => residues_spec hN hM hi,
    heq ▸ (byRounds_independent N M).computes (List.nodup_finRange N) List.mem_finRange _⟩

/-- **The atomic increments count as the sequential histogram.** -/
theorem atomically_computes :
    (∀ i < N, (residues M i).toInt = (i % M : ℕ) ∧ (residues M i).toNat < M) ∧
      (atomically N M).Computes (data, regs)
        (histogramCPU (residues M) data (BitVec.ofNat 32 N)) := by
  have heq : ((atomically N M).sequential (List.finRange N) (data, regs)
      (atomically N M).rounds).1 = histogramCPU (residues M) data (BitVec.ofNat 32 N) := by
    rw [histogramCPU, ofNat_toNat (by omega), ← foldl_finRange]
    exact actAll_fst (fun _ _ => rfl) _ _
  exact ⟨fun i hi => residues_spec hN hM hi,
    heq ▸ (atomically_independent N M).computes (List.nodup_finRange N) List.mem_finRange _⟩

end Computes

/-- **The histogram of an array**, all of whose values are below `NUM_BINS`, is the sequential one;
nothing behind the counters is touched. -/
theorem histogram_computes {N : ℕ} (hN : N < 2 ^ 32) {acc2 : ℕ → BitVec 32}
    (hacc2 : ∀ i < N, (acc2 i).toNat < numBins) (acc : Counters) (regs : Fin N → BitVec 32) :
    (histogram N acc2).Computes (acc, regs) (histogramCPU acc2 acc (BitVec.ofNat 32 N)) ∧
      ∀ v, numBins ≤ v → histogramCPU acc2 acc (BitVec.ofNat 32 N) v = acc v := by
  have hnat := ofNat_toNat hN
  have heq : ((histogram N acc2).sequential (List.finRange N) (acc, regs)
      (histogram N acc2).rounds).1 = histogramCPU acc2 acc (BitVec.ofNat 32 N) := by
    rw [histogramCPU, hnat, ← foldl_finRange]
    refine actAll_fst (fun t y => ?_) _ _
    simp only [Kernel.block, histogram, Nat.lt_one_iff, if_true, acts_cons, acts_nil, act,
      update_self]
  exact ⟨heq ▸ (histogram_independent N acc2).computes (List.nodup_finRange N) List.mem_finRange _,
    fun v hv => histogramCPU_of_numBins_le (by rwa [hnat]) acc hv⟩

/-- The program's own numbers: 256 work-items and 16 counters. -/
theorem byRounds_computes_program :
    (∀ i < 256, (residues 16 i).toInt = (i % 16 : ℕ) ∧ (residues 16 i).toNat < 16) ∧
      (byRounds 256 16).Computes (fun _ => 0#32, fun _ => 0#32)
        (histogramCPU (residues 16) (fun _ => 0#32) (BitVec.ofNat 32 256)) :=
  byRounds_computes (by decide) (by decide) _ _

/-- An array of 65536 values. -/
theorem histogram_computes_program :
    (histogram 65536 fun i => BitVec.ofNat 32 (i % 256)).Computes (fun _ => 0#32, fun _ => 0#32)
        (histogramCPU (fun i => BitVec.ofNat 32 (i % 256)) (fun _ => 0#32)
          (BitVec.ofNat 32 65536)) ∧
      ∀ v, numBins ≤ v → histogramCPU (fun i => BitVec.ofNat 32 (i % 256)) (fun _ => 0#32)
        (BitVec.ofNat 32 65536) v = 0#32 :=
  histogram_computes (by decide) (fun i _ => by simp [numBins]; omega) _ _

/-! ### The array of numbers -/

/-- The array after the kernel. -/
def filled (size : ℕ) (A : ℕ → BitVec 32) (i : ℕ) : BitVec 32 :=
  if i < size then BitVec.ofNat 32 i else A i

/-- **The kernel fills the array with the numbers of its cells** and leaves what is behind it alone,
and the check finds no mismatch. -/
theorem fillBuffer_computes {size : ℕ} (hsize : size ≤ 2 ^ 31) (A : ℕ → BitVec 32)
    (regs : Fin size → Unit) :
    (fillBuffer size).Computes (A, regs) (filled size A) ∧
      mismatchFound size (filled size A) = false := by
  have heq : ((fillBuffer size).sequential (List.finRange size) (A, regs)
      (fillBuffer size).rounds).1 = filled size A := by
    have hloop : ((fillBuffer size).sequential (List.finRange size) (A, regs)
        (fillBuffer size).rounds).1 =
        forBelow 0 size A fun i B => update B i (BitVec.ofNat 32 i) := by
      rw [← foldl_finRange]
      exact actAll_fst (fun _ _ => rfl) _ _
    rw [hloop]
    refine forBelow_inv size.zero_le (fun n B => B = filled n A) ?_ ?_
    · funext i
      exact (if_neg i.not_lt_zero).symm
    · rintro n - - B rfl
      funext i
      by_cases hi : i = n
      · subst hi
        rw [update_self, filled, if_pos i.lt_succ_self]
      · rw [update_of_ne hi]
        exact if_congr (by omega) rfl rfl
  refine ⟨heq ▸ (fillBuffer_independent size).computes (List.nodup_finRange size)
    List.mem_finRange _, ?_⟩
  rw [mismatchFound, List.any_eq_false]
  intro i hi
  have hi := List.mem_range.1 hi
  have hnat : (BitVec.ofNat 32 i).toNat = i := ofNat_toNat (by omega)
  have hext : (BitVec.ofNat 32 i).signExtend 64 = BitVec.ofNat 64 i := by
    refine BitVec.eq_of_toNat_eq ?_
    rw [signExtend_toNat (by omega), hnat, BitVec.toNat_ofNat]
    exact (Nat.mod_eq_of_lt (by omega)).symm
  rw [filled, if_pos hi, hext]
  simp

end OneapiKernels
