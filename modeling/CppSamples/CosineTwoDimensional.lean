/-
**The two-dimensional cosine transforms.**

`cft2` transforms every row of a matrix and then every column.  `cft2_with_transpose` transforms the
rows, transposes the matrix in place, transforms the rows again and transposes back: the loops are
the same with the sizes swapped, and so is every pass of them.

In exact arithmetic the one-dimensional transform is linear, so the columns might as well be
transformed first, and the two directions undo each other.

Main definitions:

* `Chebyshev.FCT.Checked.cft2WithTranspose` — the transform by way of the transposed matrix;
* `Chebyshev.FCT.Checked.cft2ColumnsFirst` — the columns before the rows.

Main results:

* `Chebyshev.FCT.Checked.cft2WithTranspose_eq` — the two routines do the same, on every matrix;
* `Chebyshev.FCT.cosfft1_hasKernel` — the one-dimensional transform is linear;
* `Chebyshev.FCT.cft2_eq_passes` — the unchecked transform by rows and columns;
* `Chebyshev.FCT.Checked.cft2_agree` — **the routines agree, the order of rows and columns does not
  matter, and the directions are inverse to each other**.
-/

import CppSamples.CheckedCosine
import CppSamples.CosineInverse
import CppSamples.SeparableTransform

set_option relaxedAutoImplicit false
set_option autoImplicit false

namespace Chebyshev.FCT

open CheckedArray CountedLoop DiscreteCosine Finset SeparableTransform

/-! ### The routines -/

namespace Checked

section Definitions

variable {K : Type} [Field K] [Trig K]

/-- The loop over the rows. -/
def transformRows (m n : ℕ) (data : Grid K) (transformType : TransformType) : Checked (Grid K) :=
  forUpToM 0 m data fun i data => do
    let row ← cosfft1 n (← data.row i) transformType
    data.setRow i row

/-- The loop over the columns. -/
def transformCols (m n : ℕ) (data : Grid K) (transformType : TransformType) : Checked (Grid K) :=
  forUpToM 0 n data fun i data => do
    let col ← cosfft1 m (← data.col i) transformType
    data.setCol i col

/-- **The two-dimensional transform by way of the transposed matrix.** -/
def cft2WithTranspose (m n : ℕ) (data : Grid K) (transformType : TransformType) :
    Checked (Grid K) := do
  let data ← transformRows m n data transformType
  let data ← transformRows n m data.transpose transformType
  return data.transpose

/-- The two-dimensional transform, columns first. -/
def cft2ColumnsFirst (m n : ℕ) (data : Grid K) (transformType : TransformType) :
    Checked (Grid K) := do
  let data ← transformCols m n data transformType
  transformRows m n data transformType

theorem cft2_eq_transform (m n : ℕ) (data : Grid K) (transformType : TransformType) :
    cft2 m n data transformType =
      (transformRows m n data transformType >>= fun data => transformCols m n data transformType) :=
  rfl

/-- The rows of the transposed matrix are transformed as the columns of the matrix. -/
theorem transformRows_transpose (m n : ℕ) (data : Grid K) (transformType : TransformType) :
    transformRows n m data.transpose transformType =
      Grid.transpose <$> transformCols m n data transformType := by
  refine forUpToM_map Grid.transpose ?_
  intro i data
  rw [Grid.row_transpose]
  cases data.col i with
  | error e => rfl
  | ok col =>
      simp only [ok_bind]
      cases cosfft1 m col transformType with
      | error e => rfl
      | ok col => exact Grid.setRow_transpose data i col

/-- **The two routines do the same**, on every matrix. -/
theorem cft2WithTranspose_eq (m n : ℕ) (data : Grid K) (transformType : TransformType) :
    cft2WithTranspose m n data transformType = cft2 m n data transformType := by
  rw [cft2WithTranspose, cft2_eq_transform]
  cases transformRows m n data transformType with
  | error e => rfl
  | ok data =>
      simp only [ok_bind, transformRows_transpose]
      cases transformCols m n data transformType with
      | error e => rfl
      | ok data => rfl

end Definitions

end Checked

/-! ### Rows and columns -/

/-- A loop that transforms one line of an array per pass; the lines are rows or columns. -/
theorem forUpTo_lines {K : Type} (T : (ℕ → K) → ℕ → K) (cell : ℕ → ℕ → ℕ × ℕ)
    (layer line : ℕ × ℕ → ℕ) (hlayer : ∀ i j, layer (cell i j) = i) (m n : ℕ) (data : ℕ × ℕ → K) :
    (forUpTo 0 m data fun i data =>
      let v := T fun j => data (cell i j)
      fun x => if layer x = i ∧ line x ≤ n then v (line x) else data x) = fun x =>
        if layer x ≤ m ∧ line x ≤ n then T (fun j => data (cell (layer x) j)) (line x)
        else data x := by
  funext x
  rw [forUpTo, forBelow_layers layer fun x =>
    if line x ≤ n then T (fun j => data (cell (layer x) j)) (line x) else data x]
  · rw [← ite_and]
    exact if_congr (by omega) rfl rfl
  · rintro i - - b y hy
    exact if_neg fun h => hy h.1
  · rintro i - - b hb y rfl
    have hline : (fun j => b (cell (layer y) j)) = fun j => data (cell (layer y) j) :=
      funext fun j => hb _ (.inr (hlayer _ j).ge)
    simp only [true_and, hline, hb y (.inr le_rfl)]

/-- **The transform without checks**, by rows and columns. -/
theorem cft2_eq_passes {K : Type} [Field K] [Trig K] (m n : ℕ) (data : ℕ × ℕ → K)
    (transformType : TransformType) : cft2 m n data transformType =
      colsPass (cosfft1 m · transformType) m n
        (rowsPass (cosfft1 n · transformType) m n data) := by
  rw [cft2]
  dsimp only
  rw [forUpTo_lines (cosfft1 n · transformType) Prod.mk Prod.fst Prod.snd fun _ _ => rfl]
  exact forUpTo_lines (cosfft1 m · transformType) (fun j i => (i, j)) Prod.snd Prod.fst
    (fun _ _ => rfl) n m _

namespace Checked

variable {K : Type} [Field K] [Trig K]

/-- No check fails in the loop over the rows. -/
theorem transformRows_eq {q : ℕ} (hq : 1 ≤ q) (m : ℕ) (data : ℕ × ℕ → K)
    (transformType : TransformType) :
    transformRows m (2 ^ q) ⟨m + 1, 2 ^ q + 1, data⟩ transformType =
      .ok ⟨m + 1, 2 ^ q + 1, rowsPass (FCT.cosfft1 (2 ^ q) · transformType) m (2 ^ q) data⟩ := by
  have hlines := forUpTo_lines (FCT.cosfft1 (2 ^ q) · transformType) Prod.mk Prod.fst Prod.snd
    (fun _ _ => rfl) m (2 ^ q) data
  refine (forUpToM_eq (Grid.mk (m + 1) (2 ^ q + 1)) fun i _ hi data => ?_).trans
    (congrArg (fun cell => Except.ok (Grid.mk (m + 1) (2 ^ q + 1) cell)) hlines)
  refine bind_eq (Grid.row_ok data (by omega)) ?_
  refine bind_eq (cosfft1_pow_eq hq (Nat.lt_succ_self _) _ transformType) ?_
  rw [Grid.setRow_ok data (by omega)]
  simp only [Nat.lt_succ_iff]

/-- No check fails in the loop over the columns. -/
theorem transformCols_eq {p : ℕ} (hp : 1 ≤ p) (n : ℕ) (data : ℕ × ℕ → K)
    (transformType : TransformType) :
    transformCols (2 ^ p) n ⟨2 ^ p + 1, n + 1, data⟩ transformType =
      .ok ⟨2 ^ p + 1, n + 1, colsPass (FCT.cosfft1 (2 ^ p) · transformType) (2 ^ p) n data⟩ := by
  have hlines := forUpTo_lines (FCT.cosfft1 (2 ^ p) · transformType) (fun j i => (i, j)) Prod.snd
    Prod.fst (fun _ _ => rfl) n (2 ^ p) data
  refine (forUpToM_eq (Grid.mk (2 ^ p + 1) (n + 1)) fun i _ hi data => ?_).trans
    (congrArg (fun cell => Except.ok (Grid.mk (2 ^ p + 1) (n + 1) cell)) hlines)
  refine bind_eq (Grid.col_ok data (by omega)) ?_
  refine bind_eq (cosfft1_pow_eq hp (Nat.lt_succ_self _) _ transformType) ?_
  rw [Grid.setCol_ok data (by omega)]
  simp only [Nat.lt_succ_iff]

/-- **No check fails in the transform**, for powers of two from two on. -/
theorem cft2_pow_eq {p q : ℕ} (hp : 1 ≤ p) (hq : 1 ≤ q) (data : ℕ × ℕ → K)
    (transformType : TransformType) :
    cft2 (2 ^ p) (2 ^ q) ⟨2 ^ p + 1, 2 ^ q + 1, data⟩ transformType =
      .ok ⟨2 ^ p + 1, 2 ^ q + 1, FCT.cft2 (2 ^ p) (2 ^ q) data transformType⟩ := by
  rw [cft2_eq_transform, cft2_eq_passes]
  exact bind_eq (transformRows_eq hq _ data transformType) (transformCols_eq hp _ _ transformType)

end Checked

/-! ### Exact arithmetic -/

/-- **The one-dimensional transform is linear** in the cells of the vector. -/
theorem cosfft1_hasKernel {p : ℕ} (hp : 1 ≤ p) (transformType : TransformType) :
    ∃ w : ℕ → ℕ → ℝ, HasKernel (2 ^ p) (cosfft1 (2 ^ p) · transformType) w := by
  cases transformType with
  | forward =>
      refine ⟨fun k j => Real.cos (Real.pi * j * k / (2 ^ p : ℕ)), fun f k hk => ?_⟩
      refine (cosfft1_forward_apply hp f hk).trans ?_
      rw [cosTransform]
      exact sum_congr rfl fun j _ => mul_comm _ _
  | inverse =>
      refine ⟨fun k j => 2 / (2 ^ p : ℕ) * endWeight (2 ^ p) k * (endWeight (2 ^ p) j *
        Real.cos (Real.pi * j * k / (2 ^ p : ℕ))), fun f k hk => ?_⟩
      refine (cosfft1_inverse_apply hp f hk).trans ?_
      rw [cosInverse, mul_sum]
      exact sum_congr rfl fun j _ => by ring

/-- **The order of rows and columns does not matter.** -/
theorem cft2_eq_rowsPass {p q : ℕ} (hp : 1 ≤ p) (hq : 1 ≤ q) (data : ℕ × ℕ → ℝ)
    (transformType : TransformType) : cft2 (2 ^ p) (2 ^ q) data transformType =
      rowsPass (cosfft1 (2 ^ q) · transformType) (2 ^ p) (2 ^ q)
        (colsPass (cosfft1 (2 ^ p) · transformType) (2 ^ p) (2 ^ q) data) := by
  obtain ⟨v, hv⟩ := cosfft1_hasKernel hp transformType
  obtain ⟨w, hw⟩ := cosfft1_hasKernel hq transformType
  rw [cft2_eq_passes, colsPass_rowsPass hv hw]

/-- **The forward transform undoes the inverse one.** -/
theorem cft2_cft2 {p q : ℕ} (hp : 1 ≤ p) (hq : 1 ≤ q) (data : ℕ × ℕ → ℝ) :
    cft2 (2 ^ p) (2 ^ q) (cft2 (2 ^ p) (2 ^ q) data .inverse) .forward = data := by
  obtain ⟨v, hv⟩ := cosfft1_hasKernel hp .inverse
  obtain ⟨w, hw⟩ := cosfft1_hasKernel hq .inverse
  obtain ⟨v', hv'⟩ := cosfft1_hasKernel hp .forward
  obtain ⟨w', hw'⟩ := cosfft1_hasKernel hq .forward
  rw [cft2_eq_passes, cft2_eq_passes]
  exact passes_passes hv hw hv' hw' (fun f k hk => (cosfft1_cosfft1 hp f hk).1)
    (fun f k hk => (cosfft1_cosfft1 hq f hk).1) data

/-- **The two-dimensional transforms agree**: the routine with the transposed matrix does what the
other one does and the routine with the columns first too, for both directions, and the forward
transform after the inverse one gives the matrix back. -/
theorem Checked.cft2_agree {p q : ℕ} (hp : 1 ≤ p) (hq : 1 ≤ q) (data : ℕ × ℕ → ℝ) :
    (∀ transformType, ∃ result,
      cft2 (2 ^ p) (2 ^ q) ⟨2 ^ p + 1, 2 ^ q + 1, data⟩ transformType =
          .ok ⟨2 ^ p + 1, 2 ^ q + 1, result⟩ ∧
        cft2WithTranspose (2 ^ p) (2 ^ q) ⟨2 ^ p + 1, 2 ^ q + 1, data⟩ transformType =
          .ok ⟨2 ^ p + 1, 2 ^ q + 1, result⟩ ∧
        cft2ColumnsFirst (2 ^ p) (2 ^ q) ⟨2 ^ p + 1, 2 ^ q + 1, data⟩ transformType =
          .ok ⟨2 ^ p + 1, 2 ^ q + 1, result⟩) ∧
      (cft2 (2 ^ p) (2 ^ q) ⟨2 ^ p + 1, 2 ^ q + 1, data⟩ .inverse >>= fun data =>
        cft2 (2 ^ p) (2 ^ q) data .forward) = .ok ⟨2 ^ p + 1, 2 ^ q + 1, data⟩ := by
  constructor
  · intro transformType
    have hcft2 := cft2_pow_eq hp hq data transformType
    refine ⟨FCT.cft2 (2 ^ p) (2 ^ q) data transformType, hcft2, ?_, ?_⟩
    · rw [cft2WithTranspose_eq, hcft2]
    · rw [cft2_eq_rowsPass hp hq]
      exact bind_eq (transformCols_eq hp _ data transformType)
        (transformRows_eq hq _ _ transformType)
  · refine bind_eq (cft2_pow_eq hp hq data .inverse) ?_
    rw [cft2_pow_eq hp hq, cft2_cft2 hp hq]

/-- The matrix of the unit test `test_cf2`. -/
theorem Checked.cft2_agree_three_five :
    let data : ℕ × ℕ → ℝ := fun x => 3 * x.1 + (x.2 % 3 : ℕ) + 1
    (cft2 (2 ^ 1) (2 ^ 2) ⟨2 ^ 1 + 1, 2 ^ 2 + 1, data⟩ .inverse >>= fun data =>
      cft2 (2 ^ 1) (2 ^ 2) data .forward) = .ok ⟨2 ^ 1 + 1, 2 ^ 2 + 1, data⟩ :=
  (cft2_agree le_rfl (by decide) _).2

end Chebyshev.FCT
