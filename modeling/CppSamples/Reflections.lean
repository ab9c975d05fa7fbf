/-
**Orthogonal similarity by reflections.**

Programs that transform a matrix in place apply reflections `1 - c w wᵀ` to the rows and to the
columns of an array.  This module relates the two operations on arrays to the product with an
orthogonal matrix, and keeps the result of a sequence of them as one orthogonal similarity.  It ends
with the use such similarities are put to: a Sylvester equation `AᵀX + XB = -C` is solved in the
transformed coordinates.

Nothing here mentions a particular program.

Main definitions:

* `Reflections.block` — the leading block of an array, as a matrix;
* `Reflections.reflector` — the matrix `1 - c w wᵀ`;
* `Reflections.onRows`, `Reflections.onCols` — its products with an array from the two sides;
* `Reflections.Turns` — an orthogonal matrix turns one matrix into another.

Main results:

* `Reflections.Turns.reflect` — a reflection on both sides extends the similarity;
* `Reflections.sylvester_of_turns` — the solution in the old coordinates.
-/

import CppSamples.Numerals
import Mathlib.Algebra.BigOperators.Fin
import Mathlib.LinearAlgebra.Matrix.NonsingularInverse
import Mathlib.Tactic.LinearCombination

set_option relaxedAutoImplicit false
set_option autoImplicit false

namespace Reflections

open Finset Matrix

variable {K : Type*}

/-! ### Arrays and their leading blocks -/

/-- Rows `0, …, m` and columns `0, …, n` of an array. -/
def block (m n : ℕ) (a : ℕ × ℕ → K) : Matrix (Fin (m + 1)) (Fin (n + 1)) K := of fun i j => a (i, j)

@[simp] theorem block_apply (m n : ℕ) (a : ℕ × ℕ → K) (i : Fin (m + 1)) (j : Fin (n + 1)) :
    block m n a i j = a (i, j) := rfl

/-- Two arrays have the same leading block when their entries there are the same. -/
theorem block_congr {m n : ℕ} {a b : ℕ × ℕ → K} (h : ∀ i ≤ m, ∀ j ≤ n, a (i, j) = b (i, j)) :
    block m n a = block m n b := by
  ext i j
  exact h i (by omega) j (by omega)

variable [CommRing K]

/-- The entries of a product of leading blocks. -/
theorem block_mul_apply {m n p : ℕ} (a b : ℕ × ℕ → K) (i : Fin (m + 1)) (j : Fin (p + 1)) :
    (block m n a * block n p b) i j = ∑ k ∈ range (n + 1), a (i, k) * b (k, j) := by
  rw [mul_apply, ← Fin.sum_univ_eq_sum_range (fun k => a (i, k) * b (k, j))]
  rfl

theorem block_transpose_mul_apply {m n p : ℕ} (a b : ℕ × ℕ → K) (i : Fin (n + 1))
    (j : Fin (p + 1)) :
    ((block m n a)ᵀ * block m p b) i j = ∑ k ∈ range (m + 1), a (k, i) * b (k, j) := by
  rw [mul_apply, ← Fin.sum_univ_eq_sum_range (fun k => a (k, i) * b (k, j))]
  rfl

/-! ### Reflections -/

/-- The matrix `1 - c w wᵀ`. -/
def reflector (n : ℕ) (c : K) (w : ℕ → K) : Matrix (Fin (n + 1)) (Fin (n + 1)) K :=
  1 - block n n fun x => c * w x.1 * w x.2

/-- The product with `1 - c w wᵀ` from the left. -/
def onRows (n : ℕ) (c : K) (w : ℕ → K) (a : ℕ × ℕ → K) : ℕ × ℕ → K :=
  fun x => a x - c * w x.1 * ∑ k ∈ range (n + 1), w k * a (k, x.2)

/-- The product with `1 - c w wᵀ` from the right. -/
def onCols (n : ℕ) (c : K) (w : ℕ → K) (a : ℕ × ℕ → K) : ℕ × ℕ → K :=
  fun x => a x - c * (∑ k ∈ range (n + 1), a (x.1, k) * w k) * w x.2

/-- The condition for `1 - c w wᵀ` to be a reflection, or the identity. -/
def IsReflector (n : ℕ) (c : K) (w : ℕ → K) : Prop :=
  c * (c * ∑ k ∈ range (n + 1), w k * w k - 2) = 0

/-- Rows that the vector does not meet stay as they are. -/
theorem onRows_of_eq_zero {n : ℕ} {c : K} {w : ℕ → K} {a : ℕ × ℕ → K} {i j : ℕ} (h : w i = 0) :
    onRows n c w a (i, j) = a (i, j) := by
  simp only [onRows, h, mul_zero, zero_mul, sub_zero]

/-- Columns that the vector does not meet stay as they are. -/
theorem onCols_of_eq_zero {n : ℕ} {c : K} {w : ℕ → K} {a : ℕ × ℕ → K} {i j : ℕ} (h : w j = 0) :
    onCols n c w a (i, j) = a (i, j) := by
  simp only [onCols, h, mul_zero, sub_zero]

@[simp] theorem onRows_zero (n : ℕ) (w : ℕ → K) (a : ℕ × ℕ → K) : onRows n 0 w a = a := by
  funext x
  simp only [onRows, zero_mul, sub_zero]

@[simp] theorem onCols_zero (n : ℕ) (w : ℕ → K) (a : ℕ × ℕ → K) : onCols n 0 w a = a := by
  funext x
  simp only [onCols, zero_mul, sub_zero]

theorem isReflector_zero (n : ℕ) (w : ℕ → K) : IsReflector n 0 w := zero_mul _

/-- The product from the left reads one column. -/
theorem onRows_congr {n : ℕ} {c : K} {w : ℕ → K} {a b : ℕ × ℕ → K} {i j : ℕ}
    (hi : a (i, j) = b (i, j)) (h : ∀ k ≤ n, w k ≠ 0 → a (k, j) = b (k, j)) :
    onRows n c w a (i, j) = onRows n c w b (i, j) := by
  have hsum : ∑ k ∈ range (n + 1), w k * a (k, j) = ∑ k ∈ range (n + 1), w k * b (k, j) := by
    refine sum_congr rfl ?_
    intro k hk
    by_cases hw : w k = 0
    · rw [hw, zero_mul, zero_mul]
    · rw [h k (by simpa [Nat.lt_succ_iff] using hk) hw]
  simp only [onRows, hi, hsum]

/-- The product from the right reads one row. -/
theorem onCols_congr {n : ℕ} {c : K} {w : ℕ → K} {a b : ℕ × ℕ → K} {i j : ℕ}
    (hj : a (i, j) = b (i, j)) (h : ∀ k ≤ n, w k ≠ 0 → a (i, k) = b (i, k)) :
    onCols n c w a (i, j) = onCols n c w b (i, j) := by
  have hsum : ∑ k ∈ range (n + 1), a (i, k) * w k = ∑ k ∈ range (n + 1), b (i, k) * w k := by
    refine sum_congr rfl ?_
    intro k hk
    by_cases hw : w k = 0
    · rw [hw, mul_zero, mul_zero]
    · rw [h k (by simpa [Nat.lt_succ_iff] using hk) hw]
  simp only [onCols, hj, hsum]

/-- Columns that are zero wherever the vector is not stay as they are. -/
theorem onRows_of_column {n : ℕ} {c : K} {w : ℕ → K} {a : ℕ × ℕ → K} {i j : ℕ}
    (h : ∀ k ≤ n, w k ≠ 0 → a (k, j) = 0) : onRows n c w a (i, j) = a (i, j) := by
  have hsum : ∑ k ∈ range (n + 1), w k * a (k, j) = 0 := by
    refine sum_eq_zero ?_
    intro k hk
    by_cases hw : w k = 0
    · rw [hw, zero_mul]
    · rw [h k (by simpa [Nat.lt_succ_iff] using hk) hw, mul_zero]
  simp only [onRows, hsum, mul_zero, sub_zero]

/-- Rows that are zero wherever the vector is not stay as they are. -/
theorem onCols_of_row {n : ℕ} {c : K} {w : ℕ → K} {a : ℕ × ℕ → K} {i j : ℕ}
    (h : ∀ k ≤ n, w k ≠ 0 → a (i, k) = 0) : onCols n c w a (i, j) = a (i, j) := by
  have hsum : ∑ k ∈ range (n + 1), a (i, k) * w k = 0 := by
    refine sum_eq_zero ?_
    intro k hk
    by_cases hw : w k = 0
    · rw [hw, mul_zero]
    · rw [h k (by simpa [Nat.lt_succ_iff] using hk) hw, zero_mul]
  simp only [onCols, hsum, mul_zero, zero_mul, sub_zero]

theorem block_onRows (n p : ℕ) (c : K) (w : ℕ → K) (a : ℕ × ℕ → K) :
    block n p (onRows n c w a) = reflector n c w * block n p a := by
  ext i j
  rw [reflector, Matrix.sub_mul, Matrix.one_mul, Matrix.sub_apply, block_mul_apply]
  simp only [block_apply, onRows, mul_assoc, ← mul_sum]

theorem block_onCols (m n : ℕ) (c : K) (w : ℕ → K) (a : ℕ × ℕ → K) :
    block m n (onCols n c w a) = block m n a * reflector n c w := by
  ext i j
  rw [reflector, Matrix.mul_sub, Matrix.mul_one, Matrix.sub_apply, block_mul_apply]
  simp only [block_apply, onCols, mul_sum, sum_mul]
  congr 1
  exact sum_congr rfl fun k _ => by ring

theorem reflector_transpose (n : ℕ) (c : K) (w : ℕ → K) :
    (reflector n c w)ᵀ = reflector n c w := by
  ext i j
  rw [transpose_apply, reflector, Matrix.sub_apply, Matrix.sub_apply, ← transpose_apply 1,
    transpose_one, block_apply, block_apply]
  ring

/-- A reflection is its own inverse. -/
theorem reflector_mul_self {n : ℕ} {c : K} {w : ℕ → K} (h : IsReflector n c w) :
    reflector n c w * reflector n c w = 1 := by
  have hprod : block n n (fun x => c * w x.1 * w x.2) * block n n (fun x => c * w x.1 * w x.2) =
      block n n (fun x => c * w x.1 * w x.2) + block n n fun x => c * w x.1 * w x.2 := by
    ext i j
    rw [block_mul_apply, Matrix.add_apply, block_apply]
    have hsum : ∑ k ∈ range (n + 1), c * w i * w k * (c * w k * w j) =
        c * c * w i * w j * ∑ k ∈ range (n + 1), w k * w k := by
      rw [mul_sum]
      exact sum_congr rfl fun k _ => by ring
    rw [hsum]
    rw [IsReflector] at h
    linear_combination (w i * w j) * h
  rw [reflector, Matrix.sub_mul, Matrix.one_mul, Matrix.mul_sub, Matrix.mul_one, hprod]
  abel

/-! ### Similarity -/

section Turns

variable {ι : Type*} [Fintype ι] [DecidableEq ι]

/-- The orthogonal matrix `Q` turns `A` into `B`. -/
structure Turns (Q A B : Matrix ι ι K) : Prop where
  orthogonal : Qᵀ * Q = 1
  turned : B = Qᵀ * A * Q

theorem Turns.refl (A : Matrix ι ι K) : Turns 1 A A := by
  constructor
  · rw [transpose_one, one_mul]
  · rw [transpose_one, one_mul, mul_one]

theorem Turns.trans {Q P A B C : Matrix ι ι K} (hQ : Turns Q A B) (hP : Turns P B C) :
    Turns (Q * P) A C := by
  constructor
  · rw [transpose_mul, Matrix.mul_assoc, ← Matrix.mul_assoc _ Q, hQ.orthogonal, Matrix.one_mul,
      hP.orthogonal]
  · rw [hP.turned, hQ.turned, transpose_mul]
    simp only [Matrix.mul_assoc]

/-- An orthogonal matrix is inverse to its transpose on the other side as well. -/
theorem Turns.mul_transpose {Q A B : Matrix ι ι K} (h : Turns Q A B) : Q * Qᵀ = 1 :=
  mul_eq_one_comm.1 h.orthogonal

/-- Turning back. -/
theorem Turns.eq_conj {Q A B : Matrix ι ι K} (h : Turns Q A B) : A = Q * B * Qᵀ := by
  rw [h.turned, Matrix.mul_assoc, Matrix.mul_assoc, Matrix.mul_assoc, h.mul_transpose,
    Matrix.mul_one, ← Matrix.mul_assoc, h.mul_transpose, Matrix.one_mul]

/-- **Sylvester's equation in the transformed coordinates**: from a solution there, the solution in
the old ones. -/
theorem sylvester_of_turns {κ : Type*} [Fintype κ] [DecidableEq κ] {U A S : Matrix ι ι K}
    {V B R : Matrix κ κ K} {C Y : Matrix ι κ K} (hU : Turns U A S) (hV : Turns V B R)
    (hY : Sᵀ * Y + Y * R = -(Uᵀ * C * V)) :
    Aᵀ * (U * Y * Vᵀ) + U * Y * Vᵀ * B = -C := by
  have hleft : Aᵀ * (U * Y * Vᵀ) = U * (Sᵀ * Y) * Vᵀ := by
    rw [hU.eq_conj, transpose_mul, transpose_mul, transpose_transpose]
    simp only [Matrix.mul_assoc]
    rw [← Matrix.mul_assoc Uᵀ U, hU.orthogonal, Matrix.one_mul]
  have hright : U * Y * Vᵀ * B = U * (Y * R) * Vᵀ := by
    rw [hV.eq_conj]
    simp only [Matrix.mul_assoc]
    rw [← Matrix.mul_assoc Vᵀ V, hV.orthogonal, Matrix.one_mul]
  rw [hleft, hright, ← Matrix.add_mul, ← Matrix.mul_add, hY, Matrix.mul_neg, Matrix.neg_mul]
  congr 1
  simp only [Matrix.mul_assoc]
  rw [hV.mul_transpose, Matrix.mul_one, ← Matrix.mul_assoc, hU.mul_transpose, Matrix.one_mul]

end Turns

/-- **A reflection on both sides** extends a similarity. -/
theorem Turns.reflect {n : ℕ} {Q A : Matrix (Fin (n + 1)) (Fin (n + 1)) K} {g : ℕ × ℕ → K} {c : K}
    {w : ℕ → K} (h : Turns Q A (block n n g)) (hc : IsReflector n c w) :
    Turns (Q * reflector n c w) A (block n n (onCols n c w (onRows n c w g))) := by
  refine h.trans ?_
  constructor
  · rw [reflector_transpose, reflector_mul_self hc]
  · rw [block_onCols, block_onRows, reflector_transpose]

end Reflections
