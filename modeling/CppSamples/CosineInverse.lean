/-
**The inverse direction of `cosfft1`.**

The inverse branch runs the forward transform and then subtracts the two end samples, which it has
halved and kept before the vector is overwritten, scales by `2 / n` and halves the two ends.  This
is the trapezoid form of the cosine coefficients, so by discrete orthogonality the two directions
undo each other.

Main results:

* `Chebyshev.FCT.scaleInverse_apply` — the end-point corrections cell by cell;
* `Chebyshev.FCT.cosfft1_inverse_apply` — the inverse transform computes the cosine coefficients;
* `Chebyshev.FCT.cosfft1_cosfft1` — **the two directions are inverse to each other**.
-/

import CppSamples.CosineSums

set_option relaxedAutoImplicit false
set_option autoImplicit false

namespace Chebyshev.FCT

open CountedLoop DiscreteCosine Function Finset

/-- The forward phases before the branch on the direction. -/
theorem cosfft1_inverse_eq (n : ℕ) (f : ℕ → ℝ) : cosfft1 n f .inverse =
    scaleInverse n (1 / 2 * f 0) (1 / 2 * f n) (cosfft1 n f .forward) := rfl

/-- The end-point corrections, cell by cell. -/
theorem scaleInverse_apply {N : ℕ} (hN : 0 < N) (first last : ℝ) (d : ℕ → ℝ) {k : ℕ}
    (hk : k ≤ 2 * N) : scaleInverse (2 * N) first last d k =
      2 / (2 * N : ℕ) * endWeight (2 * N) k * (d k - first - (-1) ^ k * last) := by
  have heven : (-1 : ℝ) ^ (2 * N) = 1 := by rw [pow_mul]; simp
  rw [scaleInverse]
  -- the corrected array, before its two end cells are halved
  obtain ⟨D, hD⟩ : ∃ D, D = forBelowBy 2 0 (2 * N) d fun j d =>
      let d := update d j ((d j - (first + last)) * 2 / (2 * N : ℕ))
      update d (j + 1) ((d (j + 1) - (first - last)) * 2 / (2 * N : ℕ)) := ⟨_, rfl⟩
  have hpairs : ∀ x, D x = if x < 2 * N then
      if x % 2 = 0 then (d x - (first + last)) * 2 / (2 * N : ℕ)
      else (d x - (first - last)) * 2 / (2 * N : ℕ)
    else d x := by
    rw [hD]
    exact forBelowBy_pairs (fun v => (v - (first + last)) * 2 / (2 * N : ℕ))
      (fun v => (v - (first - last)) * 2 / (2 * N : ℕ)) d
  rw [← hD]
  simp only [update_apply, hpairs]
  by_cases hkn : k = 2 * N
  · subst hkn
    have hne : 2 * N ≠ 0 := by omega
    simp only [endWeight, heven, hne, or_true, if_true, if_false, lt_irrefl]
    ring
  · have hlt : k < 2 * N := by omega
    by_cases hk₀ : k = 0
    · subst hk₀
      simp only [endWeight, hkn, hlt, true_or, if_true, if_false, pow_zero]
      ring
    · simp only [endWeight, hkn, hk₀, hlt, or_self, if_true, if_false]
      rcases Nat.even_or_odd k with he | ho
      · rw [if_pos (Nat.even_iff.1 he), he.neg_one_pow]
        ring
      · have hodd : ¬k % 2 = 0 := by
          rw [Nat.odd_iff.1 ho]
          exact one_ne_zero
        rw [if_neg hodd, ho.neg_one_pow]
        ring

/-- The trapezoid sum is the full sum less half of its two ends. -/
theorem sum_endWeight_eq {n : ℕ} (hn : 0 < n) (f : ℕ → ℝ) (k : ℕ) :
    ∑ j ∈ range (n + 1), endWeight n j * f j * Real.cos (Real.pi * j * k / n) =
      cosTransform n f k - 1 / 2 * f 0 - (-1) ^ k * (1 / 2 * f n) := by
  have hcos := cos_nat_mul_pi_div hn.ne' k
  have hsum := sum_endWeight hn fun j => f j * Real.cos (Real.pi * j * k / n)
  simp only [← mul_assoc] at hsum
  rw [hsum, cosTransform, sum_range_succ, sum_range_eq_add_Ico _ hn, hcos]
  simp
  ring

/-- **The inverse transform computes the cosine coefficients.** -/
theorem cosfft1_inverse_apply {p : ℕ} (hp : 1 ≤ p) (f : ℕ → ℝ) {k : ℕ} (hk : k ≤ 2 ^ p) :
    cosfft1 (2 ^ p) f .inverse k = cosInverse (2 ^ p) f k := by
  obtain ⟨q, rfl⟩ : ∃ q, p = q + 1 := ⟨p - 1, by omega⟩
  have hpow : 2 ^ (q + 1) = 2 * 2 ^ q := pow_succ' 2 q
  have hforward := cosfft1_forward_apply hp f hk
  rw [cosfft1_inverse_eq, cosInverse, sum_endWeight_eq (by positivity), ← hforward]
  rw [hpow] at hk ⊢
  exact scaleInverse_apply (by positivity) _ _ _ hk

/-- **The two directions are inverse to each other**, for every power of two. -/
theorem cosfft1_cosfft1 {p : ℕ} (hp : 1 ≤ p) (f : ℕ → ℝ) {k : ℕ} (hk : k ≤ 2 ^ p) :
    cosfft1 (2 ^ p) (cosfft1 (2 ^ p) f .inverse) .forward k = f k ∧
      cosfft1 (2 ^ p) (cosfft1 (2 ^ p) f .forward) .inverse k = f k := by
  have hn : 0 < 2 ^ p := by positivity
  constructor
  · rw [cosfft1_forward_apply hp _ hk,
      cosTransform_congr fun j hj => cosfft1_inverse_apply hp f hj, cosTransform_cosInverse hn hk]
  · rw [cosfft1_inverse_apply hp _ hk,
      cosInverse_congr fun j hj => cosfft1_forward_apply hp f hj, cosInverse_cosTransform hn hk]

/-- The samples of the unit test `test_cosfft12`: `x ^ 4 - 1` on the grid of `32` intervals. -/
theorem cosfft1_cosfft1_quartic :
    let f : ℕ → ℝ := fun i => gridSpan 32 (-1) 1 i ^ 4 - 1
    cosfft1 (2 ^ 5) (cosfft1 (2 ^ 5) f .inverse) .forward 7 = f 7 ∧
      cosfft1 (2 ^ 5) (cosfft1 (2 ^ 5) f .forward) .inverse 7 = f 7 :=
  cosfft1_cosfft1 (by decide) _ (by decide)

end Chebyshev.FCT
