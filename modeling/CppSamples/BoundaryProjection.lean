/-
**The boundary conditions as a projection.**

`homogeneous_boundary` keeps the entries away from the last two rows and columns and chooses the
others so that the even and the odd entries of every row and every column sum to zero.  There is
only one choice: an array with closed rows and columns is known from the entries that are kept.  So
the result depends on these entries alone, applying the routine again changes nothing, and it does
not matter whether the input and the output are one matrix or two.

Main definitions:

* `Chebyshev.CS.ClosedBlock` — every row and every column is closed;
* `Chebyshev.CS.IsProjection` — what the routine makes of a matrix.

Main results:

* `Chebyshev.CS.ClosedBlock.congr` — closed arrays are known from their inner entries;
* `Chebyshev.CS.ClosedBlock.sum_eq_zero` — their expansions vanish on the boundary;
* `Chebyshev.CS.homogeneousBoundaryTo_projects` — **the boundary conditions**.
-/

import CppSamples.SpectralDerivative

set_option relaxedAutoImplicit false
set_option autoImplicit false

namespace Chebyshev.CS

open CountedLoop ChebyshevExpansion Function Finset

/-! ### Closed arrays -/

section ClosedBlock

/-- Every row and every column is closed. -/
structure ClosedBlock {K : Type*} [AddCommGroup K] (m n : ℕ) (a : Mat K) : Prop where
  rows : ∀ i ≤ m, Closed n fun j => a (i, j)
  columns : ∀ j ≤ n, Closed m fun i => a (i, j)

variable {K : Type*} {m n : ℕ} {a b : Mat K}

/-- **Closed arrays** are known from the entries away from the last two rows and columns. -/
theorem ClosedBlock.congr [AddCommGroup K] (hm : 2 ≤ m) (hn : 2 ≤ n) (ha : ClosedBlock m n a)
    (hb : ClosedBlock m n b) (h : ∀ i ≤ m - 2, ∀ j ≤ n - 2, a (i, j) = b (i, j)) :
    ∀ i ≤ m, ∀ j ≤ n, a (i, j) = b (i, j) := by
  have hrows : ∀ i ≤ m - 2, ∀ j ≤ n, a (i, j) = b (i, j) := fun i hi =>
    (ha.rows i (by omega)).congr hn (hb.rows i (by omega)) (h i hi)
  intro i hi j hj
  exact (ha.columns j hj).congr hm (hb.columns j hj) (fun k hk => hrows k hk j hj) i hi

/-- **A closed expansion vanishes on the boundary.** -/
theorem ClosedBlock.sum_eq_zero [Ring K] (hm : Even m) (hn : Even n) (hm₂ : 2 ≤ m) (hn₂ : 2 ≤ n)
    (ha : ClosedBlock m n a) {x y : K} (hxy : (x = 1 ∨ x = -1) ∨ y = 1 ∨ y = -1) :
    ∑ i ∈ range (m + 1), ∑ j ∈ range (n + 1), a (i, j) *
      (Polynomial.aeval x (Polynomial.Chebyshev.T ℤ i) *
        Polynomial.aeval y (Polynomial.Chebyshev.T ℤ j)) = 0 := by
  have hunit : ∀ {z : K}, z = 1 ∨ z = -1 → ∃ w : ℤ, (w = 1 ∨ w = -1) ∧ z = w := by
    rintro z (rfl | rfl)
    · exact ⟨1, .inl rfl, Int.cast_one.symm⟩
    · exact ⟨-1, .inr rfl, by simp⟩
  rcases hxy with hx | hy
  · obtain ⟨w, hw, rfl⟩ := hunit hx
    rw [sum_comm]
    refine Finset.sum_eq_zero ?_
    intro j hj
    have hcolumn := (ha.columns j (Nat.lt_succ_iff.1 (mem_range.1 hj))).sum_aeval hm₂ hm hw
    simp only [← mul_assoc]
    rw [← sum_mul, hcolumn, zero_mul]
  · obtain ⟨w, hw, rfl⟩ := hunit hy
    refine Finset.sum_eq_zero ?_
    intro i hi
    have hrow := (ha.rows i (Nat.lt_succ_iff.1 (mem_range.1 hi))).sum_aeval hn₂ hn hw
    -- a value at an integer commutes with the other factor
    have hcomm : ∀ j : ℕ, Commute (Polynomial.aeval x (Polynomial.Chebyshev.T ℤ i))
        (Polynomial.aeval (w : K) (Polynomial.Chebyshev.T ℤ j)) := by
      intro j
      have hcast : Polynomial.aeval (w : K) (Polynomial.Chebyshev.T ℤ j) =
          (((Polynomial.Chebyshev.T ℤ j).eval w : ℤ) : K) :=
        Polynomial.aeval_algebraMap_apply_eq_algebraMap_eval w _
      rw [hcast]
      exact (Int.cast_commute _ _).symm
    simp only [(hcomm _).eq, ← mul_assoc]
    rw [← sum_mul, hrow, zero_mul]

end ClosedBlock

/-! ### The routine -/

section Projection

variable {K : Type*} [AddCommGroup K] {m n : ℕ}

/-- What the routine leaves is closed. -/
theorem closedBlock_homogeneousBoundary (hm : Even m) (hn : Even n) (hm₂ : 2 ≤ m) (hn₂ : 2 ≤ n)
    (a : Mat K) : ClosedBlock m n (homogeneousBoundary m n a) := by
  obtain ⟨hrows, hcolumns, -⟩ := homogeneousBoundary_closes hm hn hm₂ hn₂ a
  exact ⟨hrows, hcolumns⟩

/-- Nothing is written outside the rows up to `m` and the columns up to `n`. -/
theorem homogeneousBoundary_frame (hm : Even m) (hn : Even n) (hm₂ : 2 ≤ m) (hn₂ : 2 ≤ n)
    (a : Mat K) {x : ℕ × ℕ} (hx : ¬(x.1 ≤ m ∧ x.2 ≤ n)) : homogeneousBoundary m n a x = a x := by
  obtain ⟨i, j⟩ := x
  simp only at hx
  have hrow : ∀ (bound : ℕ), n - 2 ≤ bound → bound ≤ n - 2 + 1 → ∀ k ≤ m, ∀ b : Mat K,
      closeRow n bound k b (i, j) = b (i, j) := by
    intro bound hlo hhi k hk b
    rw [closeRow_apply hn hn₂ hlo hhi, if_neg (cell_ne (by omega)), if_neg (cell_ne (by omega))]
  have hcolumn : ∀ k ≤ n, ∀ b : Mat K, closeColumn m (m - 2) k b (i, j) = b (i, j) := by
    intro k hk b
    rw [closeColumn_eq]
    simp only [Prod.swap_prod_mk]
    rw [closeRow_apply hm hm₂ le_rfl (Nat.le_add_right (m - 2) 1), if_neg (cell_ne (by omega)),
      if_neg (cell_ne (by omega))]
    rfl
  rw [homogeneousBoundary]
  simp only
  rw [update_of_ne (cell_ne (by omega)), update_of_ne (cell_ne (by omega)),
    hrow _ le_rfl (Nat.le_add_right _ _) _ (by omega), forUpTo,
    forBelow_frame fun k _ hk b => hcolumn k (by omega) b, forUpTo,
    forBelow_frame fun k _ hk b => hrow _ (Nat.le_add_right _ _) le_rfl k (by omega) b]

/-- The routine with two matrices is the one with one of them, on a copy of the input. -/
theorem homogeneousBoundaryTo_eq [DecidableEq K] (rows cols m n : ℕ) (a out : Mat K) :
    ∃ b, (∀ i < rows, ∀ j < cols, b (i, j) = a (i, j)) ∧
      homogeneousBoundaryTo rows cols m n a out = homogeneousBoundary m n b := by
  refine ⟨if ∀ i < rows, ∀ j < cols, out (i, j) = a (i, j) then out
    else fun x => if x.1 < rows ∧ x.2 < cols then a x else out x, fun i hi j hj => ?_, rfl⟩
  split_ifs with hsame
  · exact hsame i hi j hj
  · exact if_pos ⟨hi, hj⟩

end Projection

section Result

variable {K : Type*} [Ring K] [DecidableEq K] {m n rows cols : ℕ}

/-- What the routine makes of the matrix `a`: the entries up to row `m - 2` and column `n - 2` are
kept, every row and every column sums to zero over its even and over its odd places, the expansion
vanishes on the boundary, and the result is known from the entries that are kept, so that it stays
when the routine is applied again and is the same in place. -/
structure IsProjection (rows cols m n : ℕ) (a b : Mat K) : Prop where
  inner : ∀ i ≤ m - 2, ∀ j ≤ n - 2, b (i, j) = a (i, j)
  row_sum : ∀ i ≤ m, ∀ p < 2, ∑ j ∈ range (n + 1) with j % 2 = p, b (i, j) = 0
  column_sum : ∀ j ≤ n, ∀ p < 2, ∑ i ∈ range (m + 1) with i % 2 = p, b (i, j) = 0
  boundary : ∀ x y : K, (x = 1 ∨ x = -1) ∨ y = 1 ∨ y = -1 →
    ∑ i ∈ range (m + 1), ∑ j ∈ range (n + 1), b (i, j) *
      (Polynomial.aeval x (Polynomial.Chebyshev.T ℤ i) *
        Polynomial.aeval y (Polynomial.Chebyshev.T ℤ j)) = 0
  only_inner : ∀ a' out : Mat K, (∀ i ≤ m - 2, ∀ j ≤ n - 2, a' (i, j) = a (i, j)) →
    ∀ i ≤ m, ∀ j ≤ n, homogeneousBoundaryTo rows cols m n a' out (i, j) = b (i, j)
  idempotent : ∀ out, ∀ i ≤ m, ∀ j ≤ n, homogeneousBoundaryTo rows cols m n b out (i, j) = b (i, j)
  in_place : ∀ i < rows, ∀ j < cols, homogeneousBoundary m n a (i, j) = b (i, j)

/-- **The boundary conditions** are a projection, for even sizes. -/
theorem homogeneousBoundaryTo_projects (hm : Even m) (hn : Even n) (hm₂ : 2 ≤ m) (hn₂ : 2 ≤ n)
    (hrows : m < rows) (hcols : n < cols) (a out : Mat K) :
    IsProjection rows cols m n a (homogeneousBoundaryTo rows cols m n a out) := by
  have hclosed : ∀ a' out' : Mat K,
      ClosedBlock m n (homogeneousBoundaryTo rows cols m n a' out') ∧
        (∀ i ≤ m - 2, ∀ j ≤ n - 2,
          homogeneousBoundaryTo rows cols m n a' out' (i, j) = a' (i, j)) := by
    intro a' out'
    obtain ⟨c, hc, heq⟩ := homogeneousBoundaryTo_eq rows cols m n a' out'
    rw [heq]
    refine ⟨closedBlock_homogeneousBoundary hm hn hm₂ hn₂ c, fun i hi j hj => ?_⟩
    rw [(homogeneousBoundary_closes hm hn hm₂ hn₂ c).2.2 i (by omega) j (by omega),
      hc i (by omega) j (by omega)]
  obtain ⟨hb, hinner⟩ := hclosed a out
  have honly : ∀ a' out' : Mat K, (∀ i ≤ m - 2, ∀ j ≤ n - 2, a' (i, j) = a (i, j)) →
      ∀ i ≤ m, ∀ j ≤ n, homogeneousBoundaryTo rows cols m n a' out' (i, j) =
        homogeneousBoundaryTo rows cols m n a out (i, j) := by
    intro a' out' hsame
    obtain ⟨hb', hinner'⟩ := hclosed a' out'
    refine hb'.congr hm₂ hn₂ hb ?_
    intro i hi j hj
    rw [hinner' i hi j hj, hsame i hi j hj, hinner i hi j hj]
  refine ⟨hinner, fun i hi p hp => (hb.rows i hi).sum_parity hn₂ hn hp,
    fun j hj p hp => (hb.columns j hj).sum_parity hm₂ hm hp,
    fun x y hxy => hb.sum_eq_zero hm hn hm₂ hn₂ hxy, honly, fun out' => honly _ out' hinner, ?_⟩
  intro i hi j hj
  obtain ⟨c, hc, heq⟩ := homogeneousBoundaryTo_eq rows cols m n a out
  by_cases hx : i ≤ m ∧ j ≤ n
  · refine (closedBlock_homogeneousBoundary hm hn hm₂ hn₂ a).congr hm₂ hn₂ hb
      (fun i hi j hj => ?_) i hx.1 j hx.2
    rw [(homogeneousBoundary_closes hm hn hm₂ hn₂ a).2.2 i (by omega) j (by omega),
      hinner i hi j hj]
  · rw [heq, homogeneousBoundary_frame hm hn hm₂ hn₂ a hx,
      homogeneousBoundary_frame hm hn hm₂ hn₂ c hx, hc i hi j hj]

/-- Two intervals in one direction and four in the other. -/
theorem homogeneousBoundaryTo_projects_two_four :
    IsProjection 3 5 2 4 (fun x => (x.1 + 2 * x.2 : ℤ))
      (homogeneousBoundaryTo 3 5 2 4 (fun x => (x.1 + 2 * x.2 : ℤ)) fun _ => 0) :=
  homogeneousBoundaryTo_projects (by decide) (by decide) le_rfl (by omega) (by omega) (by omega) _ _

end Result

end Chebyshev.CS
