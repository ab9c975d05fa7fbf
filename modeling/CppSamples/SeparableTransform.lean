/-
**Transforms of the rows and of the columns of an array.**

A transform of vectors is applied to every row of an array, or to every column.  A pass over the
columns is a pass over the rows of the transposed array.  Where the transforms are linear the two
passes may be made in either order, and then a pair of passes is undone by the pair of the inverse
transforms in the same order.

Nothing here mentions a particular program.

Main definitions:

* `SeparableTransform.HasKernel` — a transform that is linear in the cells of a vector;
* `SeparableTransform.rowsPass`, `SeparableTransform.colsPass` — the passes.

Main results:

* `SeparableTransform.colsPass_rowsPass` — **the order of the passes does not matter**;
* `SeparableTransform.passes_passes` — **inverse passes undo each other**.
-/

import Mathlib.Algebra.BigOperators.Ring.Finset
import Mathlib.Algebra.Order.BigOperators.Group.Finset

set_option relaxedAutoImplicit false
set_option autoImplicit false

namespace SeparableTransform

open Finset

variable {K : Type*}

/-- Every row up to `m`, transformed in its cells up to `n`. -/
def rowsPass (T : (ℕ → K) → ℕ → K) (m n : ℕ) (a : ℕ × ℕ → K) : ℕ × ℕ → K := fun x =>
  if x.1 ≤ m ∧ x.2 ≤ n then T (fun j => a (x.1, j)) x.2 else a x

/-- Every column up to `n`, transformed in its cells up to `m`. -/
def colsPass (T : (ℕ → K) → ℕ → K) (m n : ℕ) (a : ℕ × ℕ → K) : ℕ × ℕ → K := fun x =>
  rowsPass T n m (fun y => a y.swap) x.swap

theorem rowsPass_apply (T : (ℕ → K) → ℕ → K) (m n : ℕ) (a : ℕ × ℕ → K) (x : ℕ × ℕ) :
    rowsPass T m n a x = if x.1 ≤ m ∧ x.2 ≤ n then T (fun j => a (x.1, j)) x.2 else a x := rfl

theorem colsPass_apply (T : (ℕ → K) → ℕ → K) (m n : ℕ) (a : ℕ × ℕ → K) (x : ℕ × ℕ) :
    colsPass T m n a x = if x.1 ≤ m ∧ x.2 ≤ n then T (fun i => a (i, x.2)) x.1 else a x :=
  if_congr and_comm rfl rfl

variable [CommSemiring K]

/-- The cells up to `n` of a transformed vector are the sums of its cells up to `n` with the weights
`w`. -/
def HasKernel (n : ℕ) (T : (ℕ → K) → ℕ → K) (w : ℕ → ℕ → K) : Prop :=
  ∀ f, ∀ k ≤ n, T f k = ∑ j ∈ range (n + 1), w k j * f j

variable {m n : ℕ} {S S' T T' : (ℕ → K) → ℕ → K} {v v' w w' : ℕ → ℕ → K}

/-- Such a transform looks at the cells up to `n` alone. -/
theorem HasKernel.congr (h : HasKernel n T w) {f g : ℕ → K} (hfg : ∀ j ≤ n, f j = g j) {k : ℕ}
    (hk : k ≤ n) : T f k = T g k := by
  rw [h f k hk, h g k hk]
  refine sum_congr rfl ?_
  intro j hj
  rw [hfg j (Nat.lt_succ_iff.1 (mem_range.1 hj))]

/-- **The order of the passes does not matter.** -/
theorem colsPass_rowsPass (hS : HasKernel m S v) (hT : HasKernel n T w) (a : ℕ × ℕ → K) :
    colsPass S m n (rowsPass T m n a) = rowsPass T m n (colsPass S m n a) := by
  funext x
  by_cases hx : x.1 ≤ m ∧ x.2 ≤ n
  · have hrows : ∀ i ≤ m, rowsPass T m n a (i, x.2) = ∑ j ∈ range (n + 1), w x.2 j * a (i, j) := by
      intro i hi
      rw [rowsPass_apply, if_pos ⟨hi, hx.2⟩, hT _ _ hx.2]
    have hcols : ∀ j ≤ n, colsPass S m n a (x.1, j) = ∑ i ∈ range (m + 1), v x.1 i * a (i, j) := by
      intro j hj
      rw [colsPass_apply, if_pos ⟨hx.1, hj⟩, hS _ _ hx.1]
    rw [colsPass_apply, if_pos hx, hS.congr hrows hx.1, hS _ _ hx.1, rowsPass_apply, if_pos hx,
      hT.congr hcols hx.2, hT _ _ hx.2]
    calc ∑ i ∈ range (m + 1), v x.1 i * ∑ j ∈ range (n + 1), w x.2 j * a (i, j)
        = ∑ i ∈ range (m + 1), ∑ j ∈ range (n + 1), v x.1 i * (w x.2 j * a (i, j)) :=
          sum_congr rfl fun i _ => mul_sum _ _ _
      _ = ∑ j ∈ range (n + 1), ∑ i ∈ range (m + 1), v x.1 i * (w x.2 j * a (i, j)) := sum_comm
      _ = ∑ j ∈ range (n + 1), w x.2 j * ∑ i ∈ range (m + 1), v x.1 i * a (i, j) := by
          refine sum_congr rfl ?_
          intro j _
          rw [mul_sum]
          exact sum_congr rfl fun i _ => mul_left_comm _ _ _
  · rw [colsPass_apply, if_neg hx, rowsPass_apply, if_neg hx, rowsPass_apply, if_neg hx,
      colsPass_apply, if_neg hx]

/-- A pass over the rows, undone. -/
theorem rowsPass_rowsPass (hT' : HasKernel n T' w') (hinv : ∀ f, ∀ k ≤ n, T' (T f) k = f k)
    (a : ℕ × ℕ → K) : rowsPass T' m n (rowsPass T m n a) = a := by
  funext x
  by_cases hx : x.1 ≤ m ∧ x.2 ≤ n
  · have hrow : ∀ j ≤ n, rowsPass T m n a (x.1, j) = T (fun j => a (x.1, j)) j := by
      intro j hj
      rw [rowsPass_apply, if_pos ⟨hx.1, hj⟩]
    rw [rowsPass_apply, if_pos hx, hT'.congr hrow hx.2, hinv _ _ hx.2]
  · rw [rowsPass_apply, if_neg hx, rowsPass_apply, if_neg hx]

/-- A pass over the columns, undone. -/
theorem colsPass_colsPass (hS' : HasKernel m S' v') (hinv : ∀ f, ∀ k ≤ m, S' (S f) k = f k)
    (a : ℕ × ℕ → K) : colsPass S' m n (colsPass S m n a) = a := by
  funext x
  exact congrFun (rowsPass_rowsPass hS' hinv fun y => a y.swap) x.swap

/-- **Inverse passes undo each other**, in the same order. -/
theorem passes_passes (hS : HasKernel m S v) (hT : HasKernel n T w) (hS' : HasKernel m S' v')
    (hT' : HasKernel n T' w') (hinvS : ∀ f, ∀ k ≤ m, S' (S f) k = f k)
    (hinvT : ∀ f, ∀ k ≤ n, T' (T f) k = f k) (a : ℕ × ℕ → K) :
    colsPass S' m n (rowsPass T' m n (colsPass S m n (rowsPass T m n a))) = a := by
  rw [colsPass_rowsPass hS hT, rowsPass_rowsPass hT' hinvT, colsPass_colsPass hS' hinvS]

end SeparableTransform
