/-
**Systems that the back substitution cannot solve.**

The system of a pair of diagonal blocks of `shrslv` is singular when an eigenvalue of one block is
the negative of an eigenvalue of the other.  With one row and one column the source tests the sum it
divides by, and throws; the larger systems go to the LU solvers, which return something on every
system.

Main definitions:

* `Chebyshev.BS.ZeroPair` — a row and a column that are blocks of their own, with a zero sum;
* `Chebyshev.BS.diagonalBlock`, `Chebyshev.BS.OppositeEigenvalues` — the blocks and their
  eigenvalues.

Main results:

* `Chebyshev.BS.solveRows_eq_error_iff`, `Chebyshev.BS.solveColumns_eq_error_iff` — the two loops,
  by induction on the blocks that are left;
* `Chebyshev.BS.shrslv_eq_error_iff` — **what `shrslv` throws on**;
* `Chebyshev.BS.not_nonsingular_iff` — the eigenvalues of the singular systems;
* `Chebyshev.BS.shrslv_detects_iff` — **the singular systems that are detected**;
* `Chebyshev.BS.shrslv_two_rows` — one that is not.
-/

import CppSamples.SylvesterSolve
import Mathlib.Algebra.Algebra.Spectrum.Basic
import Mathlib.Algebra.QuadraticDiscriminant
import Mathlib.Analysis.Complex.Polynomial.Basic
import Mathlib.LinearAlgebra.Matrix.NonsingularInverse

set_option relaxedAutoImplicit false
set_option autoImplicit false

namespace Chebyshev.BS

open Function

/-! ### What the loops throw on -/

section Throws

variable {K : Type*} [Field K] [ZeroTest K]

/-- A row and a column that are blocks of their own and whose diagonal entries add up to zero. -/
def ZeroPair (m n : ℕ) (a b : Mat K) : Prop :=
  ∃ k ≤ m, RowStart a k ∧ rowBlock m a k = 1 ∧
    ∃ l ≤ n, ColumnStart b l ∧ columnBlock n b l = 1 ∧ a (k, k) + b (l, l) = 0

variable [LawfulZeroTest K] {lu : EigenLU K} {m n k l dk dl : ℕ} {a b : Mat K} {e : String}

/-- A block throws where it is one row and one column with a zero sum. -/
theorem solveBlock_eq_error_iff (hdk : dk = 1 ∨ dk = 2) (hdl : dl = 1 ∨ dl = 2) (c : Mat K) :
    solveBlock lu a b k dk l dl c = .error e ↔
      e = "** SHRSLV:unable to solve" ∧ dk = 1 ∧ dl = 1 ∧ a (k, k) + b (l, l) = 0 := by
  rcases hdk with rfl | rfl
  · rcases hdl with rfl | rfl
    · by_cases hzero : a (k, k) + b (l, l) = 0
      · have hz := (LawfulZeroTest.isZero_iff _).2 hzero
        have hthrows : solveBlock lu a b k 1 l 1 c = .error "** SHRSLV:unable to solve" := by
          simp [solveBlock, hz]
        rw [hthrows, Except.error.injEq, eq_comm]
        exact (and_iff_left ⟨rfl, rfl, hzero⟩).symm
      · have hz := mt (LawfulZeroTest.isZero_iff _).1 hzero
        simp [solveBlock, hz, hzero]
    · simp [solveBlock]
  · rcases hdl with rfl | rfl
    · simp [solveBlock]
    · simp [solveBlock]

/-- The second row of a block is no start. -/
theorem not_rowStart_succ (h : rowBlock m a k = 2) : ¬RowStart a (k + 1) := by
  intro hstart
  have hzero := (LawfulZeroTest.isZero_iff _).2 (hstart.resolve_left (Nat.succ_ne_zero k))
  rw [Nat.add_sub_cancel] at hzero
  rw [rowBlock, if_neg (by simp [hzero])] at h
  cases h

/-- The second column of a block is no start. -/
theorem not_columnStart_succ (h : columnBlock n b l = 2) : ¬ColumnStart b (l + 1) := by
  intro hstart
  have hzero := (LawfulZeroTest.isZero_iff _).2 (hstart.resolve_left (Nat.succ_ne_zero l))
  rw [Nat.add_sub_cancel] at hzero
  rw [columnBlock, if_neg (by simp [hzero])] at h
  cases h

/-- The starts of blocks from `k` on are `k` and those behind the block at `k`. -/
theorem exists_start_iff {Start : ℕ → Prop} {d : ℕ} (hk : k ≤ m) (hstart : Start k)
    (hd : d = 1 ∨ d = 2) (hsecond : d = 2 → ¬Start (k + 1)) (P : ℕ → Prop) :
    (∃ i, k ≤ i ∧ i ≤ m ∧ Start i ∧ P i) ↔ P k ∨ ∃ i, k + d ≤ i ∧ i ≤ m ∧ Start i ∧ P i := by
  constructor
  · rintro ⟨i, hki, him, hi, hP⟩
    rcases Nat.lt_or_ge i (k + d) with hlt | hge
    · obtain rfl | rfl : i = k ∨ i = k + 1 := by omega
      · exact Or.inl hP
      · exact absurd hi (hsecond (by omega))
    · exact Or.inr ⟨i, hge, him, hi, hP⟩
  · rintro (hP | ⟨i, hki, him, hi, hP⟩)
    · exact ⟨k, le_rfl, hk, hstart, hP⟩
    · exact ⟨i, by omega, him, hi, hP⟩

/-- **What the loop over the block rows throws on**: the columns are one, and some row is a block
of its own and has a zero sum with it. -/
theorem solveRows_eq_error_iff (ha : QuasiLower m a) (hdl : dl = 1 ∨ dl = 2) (k : ℕ) (hk : k ≤ m)
    (hstart : RowStart a k) (c : Mat K) :
    solveRows lu m a b l dl k c = .error e ↔
      e = "** SHRSLV:unable to solve" ∧ ∃ i, k ≤ i ∧ i ≤ m ∧ RowStart a i ∧
        rowBlock m a i = 1 ∧ dl = 1 ∧ a (i, i) + b (l, l) = 0 := by
  obtain ⟨hdk, hend, hnext⟩ := rowBlock_spec ha hk
  rw [exists_start_iff hk hstart hdk not_rowStart_succ, solveRows]
  cases hsolve : solveBlock lu a b k (rowBlock m a k) l dl
    (subtractRows k (rowBlock m a k) l dl a c) with
  | error e' =>
      obtain ⟨rfl, hzero⟩ := (solveBlock_eq_error_iff hdk hdl _).1 hsolve
      change Except.error _ = Except.error e ↔ _
      rw [Except.error.injEq, eq_comm]
      exact (and_iff_left (Or.inl hzero)).symm
  | ok d =>
      -- this block has no zero sum
      rw [or_iff_right fun hzero => by
        cases hsolve.symm.trans ((solveBlock_eq_error_iff hdk hdl _).2 ⟨rfl, hzero⟩)]
      change (if k + rowBlock m a k ≤ m then _ else Except.ok d) = _ ↔ _
      split_ifs with hmore
      · exact solveRows_eq_error_iff ha hdl _ hmore (.inr (hnext hmore)) d
      · refine iff_of_false (by simp) ?_
        rintro ⟨-, i, hki, him, -⟩
        omega
  termination_by m + 1 - k

/-- **What the loop over the block columns throws on.** -/
theorem solveColumns_eq_error_iff (ha : QuasiLower m a) (hb : QuasiTriangular n b) (l : ℕ)
    (hl : l ≤ n) (hstart : ColumnStart b l) (c : Mat K) :
    solveColumns lu m n a b l c = .error e ↔
      e = "** SHRSLV:unable to solve" ∧ ∃ j, l ≤ j ∧ j ≤ n ∧ ColumnStart b j ∧
        ∃ i, 0 ≤ i ∧ i ≤ m ∧ RowStart a i ∧
          rowBlock m a i = 1 ∧ columnBlock n b j = 1 ∧ a (i, i) + b (j, j) = 0 := by
  obtain ⟨hdl, hend, hnext⟩ := columnBlock_spec hb hl
  rw [exists_start_iff hl hstart hdl not_columnStart_succ, solveColumns]
  cases hsolve : solveRows lu m a b l (columnBlock n b l) 0
    (subtractColumns m l (columnBlock n b l) b c) with
  | error e' =>
      obtain ⟨rfl, hzero⟩ :=
        (solveRows_eq_error_iff ha hdl 0 (Nat.zero_le m) (.inl rfl) _).1 hsolve
      change Except.error _ = Except.error e ↔ _
      rw [Except.error.injEq, eq_comm]
      exact (and_iff_left (Or.inl hzero)).symm
  | ok d =>
      -- no row has a zero sum with these columns
      rw [or_iff_right fun hzero => by
        cases hsolve.symm.trans
          ((solveRows_eq_error_iff ha hdl 0 (Nat.zero_le m) (.inl rfl) _).2 ⟨rfl, hzero⟩)]
      change (if l + columnBlock n b l ≤ n then _ else Except.ok d) = _ ↔ _
      split_ifs with hmore
      · exact solveColumns_eq_error_iff ha hb _ hmore (.inr (hnext hmore)) d
      · refine iff_of_false (by simp) ?_
        rintro ⟨-, j, hlj, hjn, -⟩
        omega
  termination_by n + 1 - l

/-- **What `shrslv` throws on**: a row and a column that are blocks of their own, with a zero
sum. -/
theorem shrslv_eq_error_iff (ha : QuasiLower m a) (hb : QuasiTriangular n b) (c : Mat K) :
    shrslv lu m n a b c = .error e ↔ e = "** SHRSLV:unable to solve" ∧ ZeroPair m n a b := by
  rw [shrslv, solveColumns_eq_error_iff ha hb 0 (Nat.zero_le n) (.inl rfl)]
  refine and_congr_right fun _ => ⟨?_, ?_⟩
  · rintro ⟨l, -, hl, hcolumn, k, -, hk, hrow, hone, hone', hzero⟩
    exact ⟨k, hk, hrow, hone, l, hl, hcolumn, hone', hzero⟩
  · rintro ⟨k, hk, hrow, hone, l, hl, hcolumn, hone', hzero⟩
    exact ⟨l, Nat.zero_le l, hl, hcolumn, k, Nat.zero_le k, hk, hrow, hone, hone', hzero⟩

end Throws

/-! ### The eigenvalues of the blocks -/

section Eigenvalues

/-- The diagonal block of `d` rows and columns at `k`. -/
def diagonalBlock (a : Mat ℝ) (k d : ℕ) : Matrix (Fin d) (Fin d) ℂ :=
  Matrix.of fun i j => ((a (k + i, k + j) : ℝ) : ℂ)

/-- Some diagonal block of one matrix has an eigenvalue whose negative is one of a diagonal block of
the other. -/
def OppositeEigenvalues (m n : ℕ) (a b : Mat ℝ) : Prop :=
  ∃ k ≤ m, RowStart a k ∧ ∃ l ≤ n, ColumnStart b l ∧
    ∃ z, z ∈ spectrum ℂ (diagonalBlock a k (rowBlock m a k)) ∧
      -z ∈ spectrum ℂ (diagonalBlock b l (columnBlock n b l))

variable {m n k l dk dl : ℕ} {a b : Mat ℝ} {z : ℂ}

theorem mem_spectrum_iff_det {d : ℕ} (t : Matrix (Fin d) (Fin d) ℂ) :
    z ∈ spectrum ℂ t ↔ (algebraMap ℂ (Matrix (Fin d) (Fin d) ℂ) z - t).det = 0 := by
  rw [spectrum.mem_iff, Matrix.isUnit_iff_isUnit_det, isUnit_iff_ne_zero, not_not]

theorem mem_spectrum_one : z ∈ spectrum ℂ (diagonalBlock a k 1) ↔ z = a (k, k) := by
  rw [mem_spectrum_iff_det, Matrix.det_fin_one, Matrix.sub_apply, Matrix.algebraMap_matrix_apply,
    if_pos rfl, sub_eq_zero]
  rfl

theorem mem_spectrum_two : z ∈ spectrum ℂ (diagonalBlock a k 2) ↔
    (z - a (k, k)) * (z - a (k + 1, k + 1)) - a (k, k + 1) * a (k + 1, k) = 0 := by
  rw [mem_spectrum_iff_det, Matrix.det_fin_two]
  simp [Matrix.algebraMap_matrix_apply, diagonalBlock]

/-- **The eigenvalues of a block of two**, by their sum and their product. -/
theorem exists_eigenvalues (a : Mat ℝ) (k : ℕ) : ∃ x y : ℂ,
    x + y = a (k, k) + a (k + 1, k + 1) ∧
      x * y = a (k, k) * a (k + 1, k + 1) - a (k, k + 1) * a (k + 1, k) ∧
      ∀ z, z ∈ spectrum ℂ (diagonalBlock a k 2) ↔ z = x ∨ z = y := by
  obtain ⟨t, ht⟩ : ∃ t : ℂ, t = a (k, k) + a (k + 1, k + 1) := ⟨_, rfl⟩
  obtain ⟨d, hd⟩ : ∃ d : ℂ, d = a (k, k) * a (k + 1, k + 1) - a (k, k + 1) * a (k + 1, k) :=
    ⟨_, rfl⟩
  obtain ⟨x, hx⟩ : ∃ x : ℂ, 1 * (x * x) + -t * x + d = 0 :=
    exists_quadratic_eq_zero one_ne_zero (IsAlgClosed.exists_eq_mul_self _)
  refine ⟨x, t - x, ?_, ?_, ?_⟩
  · rw [← ht]
    ring
  · rw [← hd]
    linear_combination -hx
  · intro z
    have hfactor : (z - a (k, k)) * (z - a (k + 1, k + 1)) - a (k, k + 1) * a (k + 1, k) =
        (z - x) * (z - (t - x)) := by
      linear_combination z * ht - hd + hx
    rw [mem_spectrum_two, hfactor, mul_eq_zero, sub_eq_zero, sub_eq_zero]

/-- The determinant of the system of two rows and two columns. -/
theorem det_system22 (a b : Mat ℝ) (k l : ℕ) {x y : ℂ}
    (hsum : x + y = a (k, k) + a (k + 1, k + 1))
    (hprod : x * y = a (k, k) * a (k + 1, k + 1) - a (k, k + 1) * a (k + 1, k)) :
    ((system22 a b k l).det : ℂ) =
      ((-x - b (l, l)) * (-x - b (l + 1, l + 1)) - b (l, l + 1) * b (l + 1, l)) *
        ((-y - b (l, l)) * (-y - b (l + 1, l + 1)) - b (l, l + 1) * b (l + 1, l)) := by
  obtain ⟨s, hs⟩ : ∃ s : ℂ, s = b (l, l) + b (l + 1, l + 1) := ⟨_, rfl⟩
  obtain ⟨e, he⟩ : ∃ e : ℂ, e = b (l, l) * b (l + 1, l + 1) - b (l, l + 1) * b (l + 1, l) :=
    ⟨_, rfl⟩
  -- the right side is symmetric in `x` and `y`
  have hsymm : ((-x - b (l, l)) * (-x - b (l + 1, l + 1)) - b (l, l + 1) * b (l + 1, l)) *
      ((-y - b (l, l)) * (-y - b (l + 1, l + 1)) - b (l, l + 1) * b (l + 1, l)) =
        (x * y) ^ 2 + s * (x * y) * (x + y) + e * ((x + y) ^ 2 - 2 * (x * y)) + s ^ 2 * (x * y) +
          s * e * (x + y) + e ^ 2 := by
    rw [hs, he]
    ring
  rw [hsymm, hsum, hprod, hs, he]
  simp [system22, Matrix.det_succ_row_zero, Fin.sum_univ_succ, Fin.succAbove]
  ring

/-- **The eigenvalues of a singular system.** -/
theorem not_blockSystem_iff (hdk : dk = 1 ∨ dk = 2) (hdl : dl = 1 ∨ dl = 2) :
    ¬BlockSystem a b k dk l dl ↔
      ∃ z, z ∈ spectrum ℂ (diagonalBlock a k dk) ∧ -z ∈ spectrum ℂ (diagonalBlock b l dl) := by
  rcases hdk with rfl | rfl
  · -- one row: its entry is the eigenvalue
    simp only [mem_spectrum_one, exists_eq_left]
    rcases hdl with rfl | rfl
    · rw [mem_spectrum_one, neg_eq_iff_add_eq_zero, ← Complex.ofReal_add, Complex.ofReal_eq_zero]
      exact not_not
    · have hdet : (-(a (k, k) : ℂ) - b (l, l)) * (-a (k, k) - b (l + 1, l + 1)) -
          b (l, l + 1) * b (l + 1, l) = ((system12 a b k l).det : ℝ) := by
        rw [system12, Matrix.det_fin_two_of]
        push_cast
        ring
      rw [mem_spectrum_two, hdet, Complex.ofReal_eq_zero]
      exact not_not
  · rcases hdl with rfl | rfl
    · have hdet : (-(b (l, l) : ℂ) - a (k, k)) * (-b (l, l) - a (k + 1, k + 1)) -
          a (k, k + 1) * a (k + 1, k) = ((system21 a b k l).det : ℝ) := by
        rw [system21, Matrix.det_fin_two_of]
        push_cast
        ring
      have hz : ∀ z : ℂ, -z ∈ spectrum ℂ (diagonalBlock b l 1) ↔ z = -b (l, l) := fun z =>
        mem_spectrum_one.trans neg_eq_iff_eq_neg
      simp only [hz, exists_eq_right]
      rw [mem_spectrum_two, hdet, Complex.ofReal_eq_zero]
      exact not_not
    · obtain ⟨x, y, hsum, hprod, hspectrum⟩ := exists_eigenvalues a k
      simp only [hspectrum, mem_spectrum_two, or_and_right, exists_or, exists_eq_left]
      rw [← mul_eq_zero, ← det_system22 a b k l hsum hprod, Complex.ofReal_eq_zero]
      exact not_not

/-- **The singular systems**, by the eigenvalues of the blocks. -/
theorem not_nonsingular_iff (ha : QuasiLower m a) (hb : QuasiTriangular n b) :
    ¬Nonsingular m n a b ↔ OppositeEigenvalues m n a b := by
  constructor
  · intro h
    by_contra hnot
    refine h ?_
    intro k hk hrow l hl hcolumn
    by_contra hsys
    refine hnot ⟨k, hk, hrow, l, hl, hcolumn, ?_⟩
    exact (not_blockSystem_iff (rowBlock_spec ha hk).1 (columnBlock_spec hb hl).1).1 hsys
  · rintro ⟨k, hk, hrow, l, hl, hcolumn, hz⟩ h
    exact (not_blockSystem_iff (rowBlock_spec ha hk).1 (columnBlock_spec hb hl).1).2 hz
      (h k hk hrow l hl hcolumn)

/-- A row and a column with a zero sum make a singular system. -/
theorem not_nonsingular_of_zeroPair (h : ZeroPair m n a b) : ¬Nonsingular m n a b := by
  obtain ⟨k, hk, hrow, hone, l, hl, hcolumn, hone', hzero⟩ := h
  intro hsys
  have hblock := hsys k hk hrow l hl hcolumn
  rw [hone, hone'] at hblock
  exact hblock hzero

/-- **The singular systems that are detected**: those with a row and a column that are blocks of
their own and have a zero sum. -/
theorem shrslv_detects_iff (lu : EigenLU ℝ) (ha : QuasiLower m a) (hb : QuasiTriangular n b)
    (c : Mat ℝ) :
    (¬Nonsingular m n a b ↔ OppositeEigenvalues m n a b) ∧
      ((¬Nonsingular m n a b → shrslv lu m n a b c = .error "** SHRSLV:unable to solve") ↔
        Nonsingular m n a b ∨ ZeroPair m n a b) := by
  refine ⟨not_nonsingular_iff ha hb, ?_⟩
  rw [shrslv_eq_error_iff ha hb, or_iff_not_imp_left]
  exact forall_congr' fun _ => and_iff_right rfl

/-- A row behind a block of two rows, and a column before a block of two columns. -/
theorem shrslv_detects_iff_three :
    let a : Mat ℝ := fun x => if x = (0, 1) then 1 else if x = (1, 0) then -1
      else if x = (2, 2) then 3 else 0
    let b : Mat ℝ := fun x => if x = (0, 0) then -3 else if x = (1, 2) then 2
      else if x = (2, 1) then -2 else 0
    rowBlock 2 a 0 = 2 ∧ columnBlock 2 b 1 = 2 ∧ OppositeEigenvalues 2 2 a b ∧
      shrslv exactLU 2 2 a b (fun _ => 1) = .error "** SHRSLV:unable to solve" := by
  intro a b
  have hquasi : QuasiLower 2 a := by
    intro k hk hkm
    obtain rfl : k = 1 := by omega
    exact .inr (by simp [a])
  have hquasi' : QuasiTriangular 2 b := by
    intro l hl hln
    obtain rfl : l = 1 := by omega
    exact .inl (by simp [b])
  have hpair : ZeroPair 2 2 a b := by
    refine ⟨2, le_rfl, .inr ?_, if_neg (by simp), 0, Nat.zero_le 2, .inl rfl, if_neg ?_, ?_⟩
    · simp [a]
    · simp [b, isZero_real]
    · simp [a, b]
  have hsingular := not_nonsingular_of_zeroPair hpair
  obtain ⟨heigenvalues, hdetects⟩ := shrslv_detects_iff exactLU hquasi hquasi' fun _ => 1
  refine ⟨if_pos ?_, if_pos ?_, heigenvalues.1 hsingular, hdetects.2 (.inr hpair) hsingular⟩
  · simp [a, isZero_real]
  · simp [b, isZero_real]

/-- **A singular system of two rows** goes to the LU solver. -/
theorem shrslv_two_rows : ¬∀ (lu : EigenLU ℝ) (m n : ℕ) (a b c : Mat ℝ), QuasiLower m a →
    QuasiTriangular n b → ¬Nonsingular m n a b →
      shrslv lu m n a b c = .error "** SHRSLV:unable to solve" := by
  intro h
  obtain ⟨a, ha⟩ : ∃ a : Mat ℝ, a = fun x => if x = (0, 1) then 1 else 0 := ⟨_, rfl⟩
  have ha₀₁ : a (0, 1) = 1 := by
    rw [ha]
    exact if_pos rfl
  have hblock : rowBlock 1 a 0 = 2 := by simp [rowBlock, isZero_real, ha₀₁]
  have hquasi : QuasiLower 1 a := fun k h₀ h₁ => absurd h₁ (by omega)
  have hquasi' : QuasiTriangular 0 (0 : Mat ℝ) := fun k h₀ h₁ => absurd h₁ (by omega)
  have hsingular : ¬Nonsingular 1 0 a 0 := by
    intro hsys
    have hdet := hsys 0 (Nat.zero_le 1) (.inl rfl) 0 le_rfl (.inl rfl)
    rw [hblock] at hdet
    refine hdet ?_
    simp [system21, Matrix.det_fin_two_of, ha]
  obtain ⟨-, k, hk, hrow, hone, -⟩ := (shrslv_eq_error_iff hquasi hquasi' 0).1
    (h exactLU 1 0 a 0 0 hquasi hquasi' hsingular)
  obtain rfl | rfl : k = 0 ∨ k = 1 := by omega
  · rw [hblock] at hone
    cases hone
  · have hzero := hrow.resolve_left one_ne_zero
    rw [ha₀₁] at hzero
    exact one_ne_zero hzero

end Eigenvalues

end Chebyshev.BS
