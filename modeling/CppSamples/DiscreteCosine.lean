/-
**The discrete cosine transform and its inverse.**

The cosine sums of `n + 1` samples are inverted by the same sums with the two end samples and the
two end coefficients halved.  This rests on the orthogonality of the cosines under the trapezoid
rule, which is proved here from the vanishing of the sums of roots of unity.

Main definitions:

* `DiscreteCosine.endWeight` — the weights of the trapezoid rule;
* `DiscreteCosine.cosTransform`, `DiscreteCosine.cosInverse` — the two transforms.

Main results:

* `DiscreteCosine.sum_cos` — the trapezoid sums of the cosines;
* `DiscreteCosine.orthogonality` — **discrete orthogonality**;
* `DiscreteCosine.cosTransform_cosInverse`, `DiscreteCosine.cosInverse_cosTransform` — the two
  transforms are inverse to each other.
-/

import CppSamples.RadixTwo

set_option relaxedAutoImplicit false
set_option autoImplicit false

namespace DiscreteCosine

open Finset RadixTwo

/-! ### The trapezoid rule -/

/-- The weights of the trapezoid rule with `n` intervals. -/
noncomputable def endWeight (n k : ℕ) : ℝ := if k = 0 ∨ k = n then 1 / 2 else 1

/-- The trapezoid sum, with its ends apart. -/
theorem sum_endWeight {n : ℕ} (hn : 0 < n) (c : ℕ → ℝ) :
    ∑ k ∈ range (n + 1), endWeight n k * c k =
      1 / 2 * c 0 + ∑ k ∈ Ico 1 n, c k + 1 / 2 * c n := by
  have hmid : ∀ k ∈ Ico 1 n, endWeight n k * c k = c k := by
    intro k hk
    have hk' := mem_Ico.1 hk
    rw [endWeight, if_neg (by omega), one_mul]
  rw [sum_range_succ, sum_range_eq_add_Ico _ hn, sum_congr rfl hmid]
  simp [endWeight]

/-- The sum of the cosines over a whole turn. -/
theorem sum_cos_turn {N a : ℕ} (ha₀ : 0 < a) (haN : a < N) :
    ∑ k ∈ range N, Real.cos (2 * Real.pi * (k * a : ℕ) / N) = 0 := by
  have hN : N ≠ 0 := by omega
  have hne : unitRoot N ^ a ≠ 1 :=
    (Complex.isPrimitiveRoot_exp N hN).pow_ne_one_of_pos_of_lt ha₀.ne' haN
  have hsum : ∑ k ∈ range N, (unitRoot N ^ a) ^ k = 0 := by
    have hgeom := geom_sum_mul (unitRoot N ^ a) N
    rw [← pow_mul, mul_comm a N, pow_mul, unitRoot_pow_self hN, one_pow, sub_self] at hgeom
    exact (mul_eq_zero.1 hgeom).resolve_right (sub_ne_zero.2 hne)
  have hre := congrArg Complex.re hsum
  rw [Complex.re_sum, Complex.zero_re] at hre
  rw [← hre]
  refine sum_congr rfl ?_
  intro k _
  rw [← pow_mul, mul_comm a k, unitRoot_pow_eq, Complex.add_re, Complex.ofReal_re,
    Complex.re_ofReal_mul, Complex.I_re, mul_zero, add_zero]

/-- **The trapezoid sums of the cosines**: only the multiples of a whole turn contribute. -/
theorem sum_cos {n a : ℕ} (hn : 0 < n) (ha : a ≤ 2 * n) :
    ∑ k ∈ range (n + 1), endWeight n k * Real.cos (Real.pi * k * a / n) =
      if a = 0 ∨ a = 2 * n then (n : ℝ) else 0 := by
  have hn' : (n : ℝ) ≠ 0 := by positivity
  let c (k : ℕ) : ℝ := Real.cos (Real.pi * k * a / n)
  rcases Nat.eq_zero_or_pos a with rfl | ha₀
  · rw [if_pos (Or.inl rfl), sum_endWeight hn]
    simp
    rw [Nat.cast_sub hn]
    ring
  rcases Nat.lt_or_ge a (2 * n) with halt | hage
  · rw [if_neg (by omega), sum_endWeight hn]
    have hturn : ∑ k ∈ range (2 * n), c k = 0 := by
      rw [← sum_cos_turn ha₀ halt]
      refine sum_congr rfl ?_
      intro k _
      simp only [c]
      congr 1
      push_cast
      field_simp
    -- the second half of the turn mirrors the first
    have hmirror : ∑ k ∈ Ico (n + 1) (2 * n), c k = ∑ k ∈ Ico 1 n, c k := by
      have hreflect := sum_Ico_reflect c 1 (show n ≤ 2 * n + 1 by omega)
      rw [show 2 * n + 1 - n = n + 1 by omega, Nat.add_sub_cancel] at hreflect
      rw [← hreflect]
      refine sum_congr rfl ?_
      intro k hk
      have hk2 : k ≤ 2 * n := by
        have := mem_Ico.1 hk
        omega
      have hangle : Real.pi * (2 * n - k : ℕ) * a / n =
          a * (2 * Real.pi) - Real.pi * k * a / n := by
        push_cast [hk2]
        field_simp
      simp only [c, hangle, Real.cos_nat_mul_two_pi_sub]
    rw [sum_range_eq_add_Ico _ (by omega), ← sum_Ico_consecutive c hn (show n ≤ 2 * n by omega),
      sum_eq_sum_Ico_succ_bot (show n < 2 * n by omega), hmirror] at hturn
    linear_combination hturn / 2
  · obtain rfl : a = 2 * n := le_antisymm ha hage
    rw [if_pos (Or.inr rfl), sum_endWeight hn]
    have hone : ∀ k : ℕ, Real.cos (Real.pi * k * (2 * n : ℕ) / n) = 1 := fun k => by
      have hangle : Real.pi * k * (2 * n : ℕ) / n = k * (2 * Real.pi) := by
        push_cast
        field_simp
      rw [hangle, Real.cos_nat_mul_two_pi]
    simp only [hone]
    simp
    rw [Nat.cast_sub hn]
    ring

/-! ### Orthogonality -/

/-- **Discrete orthogonality** of the cosines under the trapezoid rule. -/
theorem orthogonality {n j l : ℕ} (hn : 0 < n) (hj : j ≤ n) (hl : l ≤ n) :
    endWeight n j * ∑ k ∈ range (n + 1), endWeight n k *
      (Real.cos (Real.pi * j * k / n) * Real.cos (Real.pi * k * l / n)) =
        if j = l then (n : ℝ) / 2 else 0 := by
  -- the distance of `j` and `l`
  obtain ⟨a, ha, hdist⟩ : ∃ a, (j - l) + (l - j) = a ∧ ∀ k : ℕ, Real.cos (Real.pi * k * a / n) =
      Real.cos (Real.pi * j * k / n - Real.pi * k * l / n) := by
    refine ⟨_, rfl, fun k => ?_⟩
    rcases Nat.le_total l j with hlj | hjl
    · rw [Nat.sub_eq_zero_of_le hlj, add_zero, Nat.cast_sub hlj]
      congr 1
      ring
    · rw [Nat.sub_eq_zero_of_le hjl, zero_add, Nat.cast_sub hjl, ← Real.cos_neg]
      congr 1
      ring
  have hterm : ∀ k : ℕ, endWeight n k *
      (Real.cos (Real.pi * j * k / n) * Real.cos (Real.pi * k * l / n)) =
        1 / 2 * (endWeight n k * Real.cos (Real.pi * k * a / n)) +
          1 / 2 * (endWeight n k * Real.cos (Real.pi * k * (j + l : ℕ) / n)) := fun k => by
    have hplus : Real.pi * k * (j + l : ℕ) / n = Real.pi * j * k / n + Real.pi * k * l / n := by
      push_cast
      ring
    rw [hdist, hplus, Real.cos_sub, Real.cos_add]
    ring
  simp only [hterm]
  rw [sum_add_distrib, ← mul_sum, ← mul_sum, sum_cos hn (by omega), sum_cos hn (by omega)]
  by_cases h : j = l
  · subst h
    rw [if_pos (by omega), if_pos rfl, endWeight]
    by_cases hend : j = 0 ∨ j = n
    · rw [if_pos hend, if_pos (by omega)]
      ring
    · rw [if_neg hend, if_neg (by omega)]
      ring
  · rw [if_neg (by omega), if_neg (by omega), if_neg h]
    ring

/-! ### The transforms -/

/-- The cosine sums of the samples `f 0, …, f n`. -/
noncomputable def cosTransform (n : ℕ) (f : ℕ → ℝ) (k : ℕ) : ℝ :=
  ∑ j ∈ range (n + 1), f j * Real.cos (Real.pi * j * k / n)

/-- The cosine coefficients of the samples `f 0, …, f n`. -/
noncomputable def cosInverse (n : ℕ) (f : ℕ → ℝ) (k : ℕ) : ℝ :=
  2 / n * endWeight n k *
    ∑ j ∈ range (n + 1), endWeight n j * f j * Real.cos (Real.pi * j * k / n)

theorem cosTransform_congr {n : ℕ} {f g : ℕ → ℝ} (h : ∀ j ≤ n, f j = g j) (k : ℕ) :
    cosTransform n f k = cosTransform n g k :=
  sum_congr rfl fun j hj => by rw [h j (Nat.lt_succ_iff.1 (mem_range.1 hj))]

theorem cosInverse_congr {n : ℕ} {f g : ℕ → ℝ} (h : ∀ j ≤ n, f j = g j) (k : ℕ) :
    cosInverse n f k = cosInverse n g k := by
  rw [cosInverse, cosInverse]
  congr 1
  exact sum_congr rfl fun j hj => by rw [h j (Nat.lt_succ_iff.1 (mem_range.1 hj))]

/-- A sum against a Kronecker delta. -/
theorem sum_mul_delta {n l : ℕ} (hl : l ≤ n) (f : ℕ → ℝ) (v : ℝ) :
    ∑ j ∈ range (n + 1), f j * (if j = l then v else 0) = f l * v := by
  simp [Nat.lt_succ_iff.2 hl]

/-- **The coefficients reproduce the samples.** -/
theorem cosTransform_cosInverse {n l : ℕ} (hn : 0 < n) (hl : l ≤ n) (f : ℕ → ℝ) :
    cosTransform n (cosInverse n f) l = f l := by
  have hn' : (n : ℝ) ≠ 0 := by positivity
  calc cosTransform n (cosInverse n f) l
      = ∑ k ∈ range (n + 1), ∑ j ∈ range (n + 1), 2 / n * (f j * (endWeight n j *
          (endWeight n k * (Real.cos (Real.pi * j * k / n) * Real.cos (Real.pi * k * l / n))))) := by
        refine sum_congr rfl ?_
        intro k _
        rw [cosInverse, mul_sum, sum_mul]
        exact sum_congr rfl fun j _ => by ring
    _ = ∑ j ∈ range (n + 1), 2 / n * (f j * (if j = l then (n : ℝ) / 2 else 0)) := by
        rw [sum_comm]
        refine sum_congr rfl ?_
        intro j hj
        rw [← mul_sum, ← mul_sum, ← mul_sum,
          orthogonality hn (Nat.lt_succ_iff.1 (mem_range.1 hj)) hl]
    _ = f l := by
        rw [← mul_sum, sum_mul_delta hl]
        field_simp

/-- **The samples reproduce the coefficients.** -/
theorem cosInverse_cosTransform {n l : ℕ} (hn : 0 < n) (hl : l ≤ n) (f : ℕ → ℝ) :
    cosInverse n (cosTransform n f) l = f l := by
  have hn' : (n : ℝ) ≠ 0 := by positivity
  calc cosInverse n (cosTransform n f) l
      = ∑ j ∈ range (n + 1), ∑ i ∈ range (n + 1), 2 / n * (f i * (endWeight n l *
          (endWeight n j * (Real.cos (Real.pi * l * j / n) * Real.cos (Real.pi * j * i / n))))) := by
        rw [cosInverse, mul_sum]
        refine sum_congr rfl ?_
        intro j _
        rw [cosTransform, mul_sum, sum_mul, mul_sum]
        refine sum_congr rfl ?_
        intro i _
        rw [mul_right_comm Real.pi (i : ℝ), mul_right_comm Real.pi (l : ℝ)]
        ring
    _ = ∑ i ∈ range (n + 1), 2 / n * (f i * (if i = l then (n : ℝ) / 2 else 0)) := by
        rw [sum_comm]
        refine sum_congr rfl ?_
        intro i hi
        rw [← mul_sum, ← mul_sum, ← mul_sum,
          orthogonality hn hl (Nat.lt_succ_iff.1 (mem_range.1 hi))]
        simp only [eq_comm]
    _ = f l := by
        rw [← mul_sum, sum_mul_delta hl]
        field_simp

end DiscreteCosine
