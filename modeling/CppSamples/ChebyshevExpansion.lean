/-
**Chebyshev expansions.**

A polynomial is given by its coefficients in the Chebyshev polynomials of the first kind.  The
coefficients of the derivative satisfy a recurrence from the highest degree down; the expansions
that vanish at both ends of `[-1, 1]` are those whose even and odd coefficients sum to zero, and
they are spanned by the differences of `T k` and one of the two highest polynomials; and the
coefficients of an expansion are unique, in one variable and in two.

Nothing here mentions a particular program.

Main definitions:

* `ChebyshevExpansion.series` — an expansion in one variable;
* `ChebyshevExpansion.IsDerivative` — the recurrence for the derivative;
* `ChebyshevExpansion.Closed`, `ChebyshevExpansion.basis` — the boundary conditions and the
  functions that satisfy them;
* `ChebyshevExpansion.SecondDerivative` — the second derivatives of these functions;
* `ChebyshevExpansion.series₂`, `ChebyshevExpansion.IsExpansion` — an expansion in two variables;
* `ChebyshevExpansion.laplacian` — the Laplace operator of a function of two real variables.

Main results:

* `ChebyshevExpansion.derivative_series` — the recurrence computes the derivative;
* `ChebyshevExpansion.Closed.series_eq` — a closed expansion in the functions of the basis, and
  `ChebyshevExpansion.Closed.eval_one`, `ChebyshevExpansion.Closed.eval_neg_one` — it vanishes at
  both ends, and `ChebyshevExpansion.closed_of_eval` — only closed ones do;
* `ChebyshevExpansion.closed_corner` — the boundary conditions of a rectangle of coefficients;
* `ChebyshevExpansion.SecondDerivative.series_eq` — the second derivative of a closed expansion, and
  `ChebyshevExpansion.deriv_deriv_affine` — in another coordinate;
* `ChebyshevExpansion.IsExpansion.unique` — the coefficients are unique;
* `ChebyshevExpansion.series₂_boundary` — a closed expansion vanishes on the boundary, and
  `ChebyshevExpansion.laplacian_series₂` — the coefficients of its Laplacian.
-/

import CppSamples.Numerals
import Mathlib.Algebra.BigOperators.Intervals
import Mathlib.Algebra.CharZero.Infinite
import Mathlib.Algebra.Polynomial.Roots
import Mathlib.Algebra.Polynomial.Sequence
import Mathlib.Analysis.Calculus.Deriv.Polynomial
import Mathlib.RingTheory.Polynomial.Chebyshev
import Mathlib.Tactic.FieldSimp

set_option relaxedAutoImplicit false
set_option autoImplicit false

namespace ChebyshevExpansion

open Polynomial Finset

variable {K : Type*} [Field K]

/-! ### Expansions in one variable -/

/-- The expansion with the coefficients `a 0, …, a n`. -/
noncomputable def series (n : ℕ) (a : ℕ → K) : K[X] :=
  ∑ k ∈ range (n + 1), C (a k) * Chebyshev.T K k

theorem series_eval (n : ℕ) (a : ℕ → K) (x : K) :
    (series n a).eval x = ∑ k ∈ range (n + 1), a k * (Chebyshev.T K k).eval x := by
  rw [series, eval_finsetSum]
  exact sum_congr rfl fun k _ => by rw [eval_mul, eval_C]

/-- Only the coefficients up to `n` matter. -/
theorem series_congr {n : ℕ} {a b : ℕ → K} (h : ∀ k ≤ n, a k = b k) : series n a = series n b :=
  sum_congr rfl fun k hk => by rw [h k (by rw [mem_range] at hk; omega)]

/-- **The coefficients are unique.** -/
theorem series_injective [NeZero (2 : K)] {n : ℕ} {a b : ℕ → K} (h : series n a = series n b) :
    ∀ k ≤ n, a k = b k := by
  have hind : LinearIndependent K fun k : ℕ => Chebyshev.T K k :=
    Sequence.linearIndependent (R := K) ⟨fun k => Chebyshev.T K k, fun k => by
      rw [Chebyshev.degree_T, Int.natAbs_natCast]⟩
  have hzero : ∑ k ∈ range (n + 1), (a k - b k) • Chebyshev.T K k = 0 := by
    simp only [smul_eq_C_mul, C_sub, sub_mul, sum_sub_distrib]
    exact sub_eq_zero.2 h
  intro k hk
  exact sub_eq_zero.1 (linearIndependent_iff'.1 hind _ _ hzero k (by rw [mem_range]; omega))

/-! ### The derivative -/

/-- `b` satisfies the recurrence for the coefficients of `s` times the derivative. -/
structure IsDerivative (n : ℕ) (a b : ℕ → K) (s : K) : Prop where
  top : b n = 0
  next : b (n - 1) = 2 * n * a n * s
  step : ∀ k, 1 ≤ k → k + 2 ≤ n → b k = b (k + 2) + 2 * (k + 1 : ℕ) * a (k + 1) * s
  zero : b 0 = 1 / 2 * b 2 + a 1 * s

/-- The derivative in the Chebyshev polynomials of the second kind. -/
theorem derivative_series_eq (n : ℕ) (a : ℕ → K) :
    derivative (series n a) = ∑ k ∈ range n, C ((k + 1 : ℕ) * a (k + 1)) * Chebyshev.U K k := by
  rw [series, sum_range_succ', derivative_add, derivative_sum]
  have hconst : derivative (C (a 0) * Chebyshev.T K ((0 : ℕ) : ℤ)) = 0 := by
    rw [Nat.cast_zero, Chebyshev.T_zero, mul_one, derivative_C]
  rw [hconst, add_zero]
  refine sum_congr rfl ?_
  intro k _
  rw [derivative_C_mul, Chebyshev.T_derivative_eq_U, C_mul]
  push_cast
  rw [add_sub_cancel_right, map_add, map_natCast, map_one, mul_left_comm, mul_assoc]

/-- An expansion in the Chebyshev polynomials of the second kind. -/
theorem two_mul_series (n : ℕ) (b : ℕ → K) :
    2 * series (n + 1) b = ∑ k ∈ range n, C (b k - b (k + 2)) * Chebyshev.U K k +
      C (b n) * Chebyshev.U K n + C (b (n + 1)) * Chebyshev.U K (n + 1 : ℕ) + C (b 0) := by
  induction n with
  | zero =>
      rw [series, sum_range_succ, sum_range_one, range_zero, sum_empty, zero_add, zero_add,
        Nat.cast_zero, Nat.cast_one, Chebyshev.T_zero, Chebyshev.T_one, Chebyshev.U_zero,
        Chebyshev.U_one]
      ring
  | succ n ih =>
      have hseries : series (n + 2) b = series (n + 1) b + C (b (n + 2)) * Chebyshev.T K (n + 2 : ℕ) :=
        sum_range_succ _ _
      have htop : 2 * Chebyshev.T K (n + 2 : ℕ) = Chebyshev.U K (n + 2 : ℕ) - Chebyshev.U K n :=
        Chebyshev.two_mul_T_eq_U_sub_U K n
      rw [hseries, mul_add, ih, sum_range_succ, C_sub, mul_left_comm, htop]
      ring

/-- **The recurrence computes the derivative.** -/
theorem derivative_series [NeZero (2 : K)] {n : ℕ} (hn : 2 ≤ n) {a b : ℕ → K} {s : K}
    (h : IsDerivative n a b s) : series n b = C s * derivative (series n a) := by
  obtain ⟨n, rfl⟩ := Nat.exists_eq_add_of_le' hn
  have htwo : (2 : K[X]) ≠ 0 := by
    rw [← C_ofNat, Ne, C_eq_zero]
    exact two_ne_zero
  refine mul_left_cancel₀ htwo ?_
  -- the coefficients of the two sides in the polynomials of the second kind
  have hzero : C (b 0 - b 2) + C (b 0) = 2 * C s * C (a 1) := by
    rw [← C_add, h.zero, ← C_ofNat, ← C_mul, ← C_mul]
    congr 1
    field_simp
    ring
  have hstep : ∀ k ∈ range n, C (b (k + 1) - b (k + 1 + 2)) * Chebyshev.U K (k + 1 : ℕ) =
      2 * (C s * (C ((k + 1 + 1 : ℕ) * a (k + 1 + 1)) * Chebyshev.U K (k + 1 : ℕ))) := by
    intro k hk
    rw [mem_range] at hk
    rw [h.step (k + 1) (by omega) (by omega), add_sub_cancel_left, ← C_ofNat, ← mul_assoc,
      ← mul_assoc, ← C_mul, ← C_mul]
    congr 2
    ring
  have hnext : C (b (n + 1)) = 2 * C s * C ((n + 2 : ℕ) * a (n + 2)) := by
    have hb : b (n + 1) = 2 * (n + 2 : ℕ) * a (n + 2) * s := h.next
    rw [hb, ← C_ofNat, ← C_mul, ← C_mul]
    congr 1
    ring
  have htop : b (n + 2) = 0 := h.top
  have hU : Chebyshev.U K ((0 : ℕ) : ℤ) = 1 := by rw [Nat.cast_zero, Chebyshev.U_zero]
  have hleft : ∑ k ∈ range (n + 1), C (b k - b (k + 2)) * Chebyshev.U K k =
      ∑ k ∈ range n, 2 * (C s * (C ((k + 1 + 1 : ℕ) * a (k + 1 + 1)) * Chebyshev.U K (k + 1 : ℕ))) +
        C (b 0 - b 2) := by
    rw [sum_range_succ', sum_congr rfl hstep, hU, mul_one]
  have hright : ∑ k ∈ range (n + 2), 2 * (C s * (C ((k + 1 : ℕ) * a (k + 1)) * Chebyshev.U K k)) =
      ∑ k ∈ range n, 2 * (C s * (C ((k + 1 + 1 : ℕ) * a (k + 1 + 1)) * Chebyshev.U K (k + 1 : ℕ))) +
        2 * C s * C (a 1) + 2 * C s * C ((n + 2 : ℕ) * a (n + 2)) * Chebyshev.U K (n + 1 : ℕ) := by
    rw [sum_range_succ, sum_range_succ', hU, zero_add, Nat.cast_one, one_mul]
    ring
  rw [two_mul_series (n + 1) b, derivative_series_eq, mul_sum, mul_sum, hleft, hright, hnext, htop,
    C_0, zero_mul, add_zero, ← hzero]
  ring

/-- The coefficients of the derivative are unique. -/
theorem IsDerivative.unique [NeZero (2 : K)] {n : ℕ} (hn : 2 ≤ n) {a b b' : ℕ → K} {s : K}
    (h : IsDerivative n a b s) (h' : IsDerivative n a b' s) : ∀ k ≤ n, b k = b' k :=
  series_injective ((derivative_series hn h).trans (derivative_series hn h').symm)

/-! ### Boundary conditions -/

/-- The even and the odd coefficients sum to zero, for an even `n`. -/
def Closed {G : Type*} [AddCommGroup G] (n : ℕ) (a : ℕ → G) : Prop :=
  ∀ p < 2, a (n - p) = -∑ k ∈ range (n - 1) with k % 2 = p, a k

/-- The sums of a closed line over its even and over its odd places. -/
theorem Closed.sum_parity {G : Type*} [AddCommGroup G] {n : ℕ} (hn : 2 ≤ n) (heven : Even n)
    {a : ℕ → G} (h : Closed n a) {p : ℕ} (hp : p < 2) :
    ∑ k ∈ range (n + 1) with k % 2 = p, a k = 0 := by
  have hlast : n % 2 = 0 := Nat.even_iff.1 heven
  obtain ⟨n, rfl⟩ := Nat.exists_eq_add_of_le' hn
  have hnotin : ∀ k, n + 1 ≤ k → k ∉ {k ∈ range (n + 1) | k % 2 = p} := by
    intro k hk hmem
    have hlt := mem_range.1 (mem_filter.1 hmem).1
    omega
  have hclosed := h p hp
  have hpred : n + 2 - 1 = n + 1 := rfl
  rw [hpred] at hclosed
  rw [range_add_one, filter_insert, range_add_one, filter_insert]
  obtain rfl | rfl : p = 0 ∨ p = 1 := by omega
  · rw [if_pos hlast, if_neg (by omega), sum_insert (hnotin _ (by omega)), ← Nat.sub_zero (n + 2),
      hclosed, neg_add_cancel]
  · have hodd : a (n + 1) = -∑ k ∈ range (n + 1) with k % 2 = 1, a k := hclosed
    rw [if_neg (by omega), if_pos (by omega), sum_insert (hnotin _ le_rfl), hodd, neg_add_cancel]

/-- Two closed lines of the same length agree when they agree before their last two places. -/
theorem Closed.congr {G : Type*} [AddCommGroup G] {n : ℕ} (hn : 2 ≤ n) {a b : ℕ → G}
    (ha : Closed n a) (hb : Closed n b) (h : ∀ k ≤ n - 2, a k = b k) : ∀ k ≤ n, a k = b k := by
  have hsum : ∀ p, ∑ k ∈ range (n - 1) with k % 2 = p, a k =
      ∑ k ∈ range (n - 1) with k % 2 = p, b k := by
    refine fun p => sum_congr rfl fun k hk => h k ?_
    have hlt := mem_range.1 (mem_filter.1 hk).1
    omega
  intro k hk
  rcases Nat.lt_or_ge (n - 2) k with hlt | hle
  · obtain ⟨p, hp, rfl⟩ : ∃ p < 2, k = n - p := ⟨n - k, by omega, by omega⟩
    rw [ha p hp, hb p hp, hsum]
  · exact h k hle

/-- **A closed line vanishes at both ends**, over any ring. -/
theorem Closed.sum_aeval {R : Type*} [Ring R] {n : ℕ} (hn : 2 ≤ n) (heven : Even n) {a : ℕ → R}
    (h : Closed n a) {z : ℤ} (hz : z = 1 ∨ z = -1) :
    ∑ k ∈ range (n + 1), a k * aeval (z : R) (Chebyshev.T ℤ k) = 0 := by
  have hvalue : ∀ k : ℕ, aeval (z : R) (Chebyshev.T ℤ k) = if k % 2 = 0 then 1 else (z : R) := by
    intro k
    have hcast : aeval (z : R) (Chebyshev.T ℤ k) = ((Chebyshev.T ℤ k).eval z : ℤ) :=
      aeval_algebraMap_apply_eq_algebraMap_eval z _
    rw [hcast]
    rcases hz with rfl | rfl
    · rw [Chebyshev.T_eval_one, Int.cast_one, ite_self]
    · rw [Chebyshev.T_eval_neg_one]
      rcases Nat.even_or_odd k with hk | hk
      · rw [if_pos (Nat.even_iff.1 hk), Int.negOnePow_even _ ((Int.even_coe_nat k).2 hk)]
        simp
      · rw [if_neg (by rw [Nat.odd_iff.1 hk]; exact one_ne_zero),
          Int.negOnePow_odd _ ((Int.odd_coe_nat k).2 hk)]
        simp
  have hodd : ∀ k, ¬k % 2 = 0 ↔ k % 2 = 1 := fun k => Nat.mod_two_ne_zero
  simp only [hvalue, mul_ite, mul_one]
  rw [sum_ite, h.sum_parity hn heven Nat.zero_lt_two, zero_add, ← sum_mul]
  simp only [hodd]
  rw [h.sum_parity hn heven Nat.one_lt_two, zero_mul]

/-- `T k` less the highest polynomial of the same parity. -/
noncomputable def basis (n k : ℕ) : K[X] :=
  Chebyshev.T K k - Chebyshev.T K (n - k % 2 : ℕ)

/-- An expansion in the functions of the basis, and what is left of the two highest polynomials. -/
theorem series_eq_basis {n : ℕ} (hn : 2 ≤ n) (a : ℕ → K) :
    series n a = ∑ k ∈ range (n - 1), C (a k) * basis n k +
      (C (a n + ∑ k ∈ range (n - 1) with k % 2 = 0, a k) * Chebyshev.T K n +
        C (a (n - 1) + ∑ k ∈ range (n - 1) with k % 2 = 1, a k) * Chebyshev.T K (n - 1 : ℕ)) := by
  obtain ⟨n, rfl⟩ := Nat.exists_eq_add_of_le' hn
  have hsplit : ∀ k ∈ range (n + 1), C (a k) * basis (n + 2) k = C (a k) * Chebyshev.T K k -
      ((if k % 2 = 0 then C (a k) else 0) * Chebyshev.T K (n + 2 : ℕ) +
        (if k % 2 = 1 then C (a k) else 0) * Chebyshev.T K (n + 1 : ℕ)) := by
    intro k _
    rw [basis, mul_sub]
    rcases Nat.mod_two_eq_zero_or_one k with hk | hk
    · simp [hk]
    · simp [hk]
  have hparity : ∀ p, C (∑ k ∈ range (n + 1) with k % 2 = p, a k) =
      ∑ k ∈ range (n + 1), if k % 2 = p then C (a k) else 0 := by
    intro p
    rw [map_sum, sum_filter]
  have hlast : n + 2 - 1 = n + 1 := rfl
  rw [hlast, sum_congr rfl hsplit, sum_sub_distrib, sum_add_distrib, ← sum_mul, ← sum_mul, C_add,
    C_add, hparity, hparity, series, sum_range_succ, sum_range_succ]
  ring

/-- **A closed expansion** is an expansion in the functions of the basis. -/
theorem Closed.series_eq {n : ℕ} (hn : 2 ≤ n) {a : ℕ → K} (h : Closed n a) :
    series n a = ∑ k ∈ range (n - 1), C (a k) * basis n k := by
  have heven : a n + ∑ k ∈ range (n - 1) with k % 2 = 0, a k = 0 :=
    add_eq_zero_iff_eq_neg.2 (h 0 Nat.zero_lt_two)
  have hodd : a (n - 1) + ∑ k ∈ range (n - 1) with k % 2 = 1, a k = 0 :=
    add_eq_zero_iff_eq_neg.2 (h 1 Nat.one_lt_two)
  rw [series_eq_basis hn, heven, hodd, C_0, zero_mul, zero_mul, add_zero, add_zero]

/-- The functions of the basis vanish at `1`. -/
theorem basis_eval_one (n k : ℕ) : (basis n k : K[X]).eval 1 = 0 := by
  rw [basis, eval_sub, Chebyshev.T_eval_one, Chebyshev.T_eval_one, sub_self]

/-- The functions of the basis vanish at `-1`. -/
theorem basis_eval_neg_one {n k : ℕ} (hn : Even n) (hk : k % 2 ≤ n) :
    (basis n k : K[X]).eval (-1) = 0 := by
  have hparity : (k : ℤ).negOnePow = ((n - k % 2 : ℕ) : ℤ).negOnePow := by
    rw [Int.negOnePow_eq_iff]
    have htwo := Nat.even_iff.1 hn
    refine Int.even_iff.2 ?_
    omega
  rw [basis, eval_sub, Chebyshev.T_eval_neg_one, Chebyshev.T_eval_neg_one, hparity, sub_self]

/-- A closed expansion vanishes at `1`. -/
theorem Closed.eval_one {n : ℕ} (hn : 2 ≤ n) {a : ℕ → K} (h : Closed n a) :
    (series n a).eval 1 = 0 := by
  rw [h.series_eq hn, eval_finsetSum]
  refine sum_eq_zero ?_
  intro k _
  rw [eval_mul, basis_eval_one, mul_zero]

/-- A closed expansion vanishes at `-1`. -/
theorem Closed.eval_neg_one {n : ℕ} (hn : 2 ≤ n) (heven : Even n) {a : ℕ → K} (h : Closed n a) :
    (series n a).eval (-1) = 0 := by
  rw [h.series_eq hn, eval_finsetSum]
  refine sum_eq_zero ?_
  intro k _
  rw [eval_mul, basis_eval_neg_one heven (by omega), mul_zero]

/-- **An expansion that vanishes at both ends is closed.** -/
theorem closed_of_eval [NeZero (2 : K)] {n : ℕ} (hn : 2 ≤ n) (heven : Even n) {a : ℕ → K}
    (h₁ : (series n a).eval 1 = 0) (h₂ : (series n a).eval (-1) = 0) : Closed n a := by
  obtain ⟨z, hz⟩ : ∃ z, z = a n + ∑ k ∈ range (n - 1) with k % 2 = 0, a k := ⟨_, rfl⟩
  obtain ⟨w, hw⟩ : ∃ w, w = a (n - 1) + ∑ k ∈ range (n - 1) with k % 2 = 1, a k := ⟨_, rfl⟩
  have hbasis : ∀ x : K, x = 1 ∨ x = -1 → (∑ k ∈ range (n - 1), C (a k) * basis n k).eval x = 0 := by
    intro x hx
    rw [eval_finsetSum]
    refine sum_eq_zero ?_
    intro k _
    rcases hx with rfl | rfl
    · rw [eval_mul, basis_eval_one, mul_zero]
    · rw [eval_mul, basis_eval_neg_one heven (by omega), mul_zero]
  have hlast : ((n : ℕ) : ℤ).negOnePow = 1 := Int.negOnePow_even _ ((Int.even_coe_nat n).2 heven)
  have hnext : ((n - 1 : ℕ) : ℤ).negOnePow = -1 := by
    refine Int.negOnePow_odd _ ((Int.odd_coe_nat _).2 ?_)
    exact Nat.Even.sub_odd (by omega) heven odd_one
  rw [series_eq_basis hn, ← hz, ← hw, eval_add, hbasis _ (.inl rfl), zero_add, eval_add, eval_mul,
    eval_mul, eval_C, eval_C, Chebyshev.T_eval_one, Chebyshev.T_eval_one, mul_one, mul_one] at h₁
  rw [series_eq_basis hn, ← hz, ← hw, eval_add, hbasis _ (.inr rfl), zero_add, eval_add, eval_mul,
    eval_mul, eval_C, eval_C, Chebyshev.T_eval_neg_one, Chebyshev.T_eval_neg_one, hlast, hnext] at h₂
  have hz₀ : z = 0 := by
    have htwo : 2 * z = 0 := by
      push_cast at h₂
      linear_combination h₁ + h₂
    exact (mul_eq_zero.1 htwo).resolve_left two_ne_zero
  have hw₀ : w = 0 := by rwa [hz₀, zero_add] at h₁
  intro p hp
  obtain rfl | rfl : p = 0 ∨ p = 1 := by omega
  · exact add_eq_zero_iff_eq_neg.1 (hz.symm.trans hz₀)
  · exact add_eq_zero_iff_eq_neg.1 (hw.symm.trans hw₀)

/-- The coefficients of a closed expansion but for the last two are free. -/
theorem exists_closed {n : ℕ} (hn : 2 ≤ n) (z : ℕ → K) :
    ∃ a, Closed n a ∧ ∀ k < n - 1, a k = z k := by
  refine ⟨fun k => if k < n - 1 then z k else
    -∑ i ∈ range (n - 1) with i % 2 = n - k, z i, fun p hp => ?_, fun k hk => if_pos hk⟩
  have hlast : n - (n - p) = p := by omega
  simp only
  rw [if_neg (by omega), hlast]
  congr 1
  refine sum_congr rfl ?_
  intro i hi
  rw [if_pos (mem_range.1 (mem_filter.1 hi).1)]

/-- Combinations of closed coefficients are closed. -/
theorem Closed.sum {n : ℕ} {ι : Type*} {s : Finset ι} {a : ι → ℕ → K} (z : ι → K)
    (h : ∀ i ∈ s, Closed n (a i)) : Closed n fun k => ∑ i ∈ s, a i k * z i := by
  intro p hp
  rw [sum_comm, ← sum_neg_distrib]
  refine sum_congr rfl ?_
  intro i hi
  rw [h i hi p hp, neg_mul, sum_mul]

/-- **The corner of a rectangle**: when the first columns and the first rows are closed, a last row
is closed if its last coefficients make the last columns closed. -/
theorem closed_corner {G : Type*} [AddCommGroup G] {m n p q : ℕ} {c : ℕ × ℕ → G} (hp : p < 2)
    (hq : q < 2)
    (hrows : ∀ i < m - 1, Closed n fun j => c (i, j))
    (hcolumns : ∀ j < n - 1, Closed m fun i => c (i, j)) :
    ∑ i ∈ range (m - 1) with i % 2 = p, c (i, n - q) =
      ∑ j ∈ range (n - 1) with j % 2 = q, c (m - p, j) := by
  have hleft : ∑ i ∈ range (m - 1) with i % 2 = p, c (i, n - q) =
      -∑ i ∈ range (m - 1) with i % 2 = p, ∑ j ∈ range (n - 1) with j % 2 = q, c (i, j) := by
    rw [← sum_neg_distrib]
    refine sum_congr rfl ?_
    intro i hi
    exact hrows i (mem_range.1 (mem_filter.1 hi).1) q hq
  have hright : ∑ j ∈ range (n - 1) with j % 2 = q, c (m - p, j) =
      -∑ j ∈ range (n - 1) with j % 2 = q, ∑ i ∈ range (m - 1) with i % 2 = p, c (i, j) := by
    rw [← sum_neg_distrib]
    refine sum_congr rfl ?_
    intro j hj
    exact hcolumns j (mem_range.1 (mem_filter.1 hj).1) p hp
  rw [hleft, hright, sum_comm]

/-! ### The second derivative of a closed expansion -/

/-- Row `k` of `d` has the coefficients of the second derivative of function `k` of the basis. -/
def SecondDerivative (n : ℕ) (d : ℕ × ℕ → K) : Prop :=
  ∀ k < n - 1, series n (fun j => d (k, j)) = derivative^[2] (basis n k)

/-- **The second derivative of a closed expansion.** -/
theorem SecondDerivative.series_eq {n : ℕ} (hn : 2 ≤ n) {d : ℕ × ℕ → K}
    (hd : SecondDerivative n d) {a : ℕ → K} (ha : Closed n a) :
    derivative^[2] (series n a) = series n fun j => ∑ k ∈ range (n - 1), d (k, j) * a k := by
  rw [ha.series_eq hn, iterate_derivative_sum, series]
  simp only [map_sum, sum_mul]
  rw [sum_comm]
  refine sum_congr rfl ?_
  intro k hk
  rw [iterate_derivative_C_mul, ← hd k (mem_range.1 hk), series, mul_sum]
  refine sum_congr rfl ?_
  intro j _
  rw [C_mul]
  ring

/-- The first function of the basis is no polynomial of degree one. -/
theorem iterate_derivative_basis_ne_zero [CharZero K] {n : ℕ} (hn : 2 ≤ n) :
    derivative^[2] (basis n 0 : K[X]) ≠ 0 := by
  intro hzero
  have hbasis : derivative^[2] (basis n 0 : K[X]) = -derivative^[2] (Chebyshev.T K n) := by
    rw [basis, iterate_derivative_sub]
    simp
  have hone := Chebyshev.iterate_derivative_T_eval_one (R := K) n 2
  rw [neg_eq_zero.1 (hbasis.symm.trans hzero), eval_zero, mul_zero, prod_range_succ, prod_range_one]
    at hone
  have hprod : (n : K) ^ 2 * ((n : K) ^ 2 - 1) = 0 := by
    push_cast at hone
    linear_combination -hone
  rcases mul_eq_zero.1 hprod with hpow | hpow
  · have hn₀ : n ^ 2 = 0 := by exact_mod_cast hpow
    have hpos : 0 < n ^ 2 := by positivity
    omega
  · have hn₁ : n ^ 2 = 1 := by exact_mod_cast sub_eq_zero.1 hpow
    nlinarith

/-- The coefficients of the second derivatives of all closed expansions determine a matrix. -/
theorem eq_of_closed [NeZero (2 : K)] {n : ℕ} (hn : 2 ≤ n) {d e : ℕ × ℕ → K}
    (h : ∀ a, Closed n a → series n (fun j => ∑ k ∈ range (n - 1), d (k, j) * a k) =
      series n fun j => ∑ k ∈ range (n - 1), e (k, j) * a k) :
    ∀ k < n - 1, ∀ j ≤ n, d (k, j) = e (k, j) := by
  intro k hk j hj
  obtain ⟨a, ha, hone⟩ := exists_closed hn (Pi.single k (1 : K))
  have hrow : ∀ d : ℕ × ℕ → K, ∑ i ∈ range (n - 1), d (i, j) * a i = d (k, j) := by
    intro d
    rw [sum_eq_single_of_mem k (mem_range.2 hk)]
    · rw [hone k hk, Pi.single_eq_same, mul_one]
    · intro i hi hne
      rw [hone i (mem_range.1 hi), Pi.single_eq_of_ne hne, mul_zero]
  have heq := series_injective (h a ha) j hj
  rwa [hrow, hrow] at heq

/-! ### Expansions in two variables -/

/-- The expansion with the coefficients `c (i, j)` for `i ≤ m` and `j ≤ n`. -/
noncomputable def series₂ (m n : ℕ) (c : ℕ × ℕ → K) (x y : K) : K :=
  ∑ i ∈ range (m + 1), ∑ j ∈ range (n + 1),
    c (i, j) * (Chebyshev.T K i).eval x * (Chebyshev.T K j).eval y

/-- An expansion in the first variable. -/
theorem series₂_eq_left (m n : ℕ) (c : ℕ × ℕ → K) (x y : K) :
    series₂ m n c x y = (series m fun i =>
      ∑ j ∈ range (n + 1), c (i, j) * (Chebyshev.T K j).eval y).eval x := by
  rw [series₂, series_eval]
  refine sum_congr rfl ?_
  intro i _
  rw [sum_mul]
  exact sum_congr rfl fun j _ => mul_right_comm _ _ _

/-- An expansion in the second variable. -/
theorem series₂_eq_right (m n : ℕ) (c : ℕ × ℕ → K) (x y : K) :
    series₂ m n c x y = (series n fun j =>
      ∑ i ∈ range (m + 1), c (i, j) * (Chebyshev.T K i).eval x).eval y := by
  rw [series₂, series_eval, sum_comm]
  exact sum_congr rfl fun j _ => (sum_mul _ _ _).symm

theorem series₂_add (m n : ℕ) (c d : ℕ × ℕ → K) (x y : K) :
    series₂ m n c x y + series₂ m n d x y = series₂ m n (fun p => c p + d p) x y := by
  rw [series₂, series₂, series₂, ← sum_add_distrib]
  refine sum_congr rfl ?_
  intro i _
  rw [← sum_add_distrib]
  refine sum_congr rfl ?_
  intro j _
  rw [add_mul, add_mul]

/-- `f` is the expansion with the coefficients `c`. -/
def IsExpansion (m n : ℕ) (f : K → K → K) (c : ℕ × ℕ → K) : Prop :=
  ∀ x y, f x y = series₂ m n c x y

/-- **The coefficients are unique.** -/
theorem IsExpansion.unique [CharZero K] {m n : ℕ} {f : K → K → K} {c d : ℕ × ℕ → K}
    (hc : IsExpansion m n f c) (hd : IsExpansion m n f d) :
    ∀ i ≤ m, ∀ j ≤ n, c (i, j) = d (i, j) := by
  intro i hi
  refine series_injective (Polynomial.funext fun y => ?_)
  rw [series_eval, series_eval]
  refine series_injective (n := m)
    (a := fun i => ∑ j ∈ range (n + 1), c (i, j) * (Chebyshev.T K j).eval y)
    (b := fun i => ∑ j ∈ range (n + 1), d (i, j) * (Chebyshev.T K j).eval y)
    (Polynomial.funext fun x => ?_) i hi
  rw [← series₂_eq_left, ← series₂_eq_left, ← hc, ← hd]

/-! ### The Laplacian of a closed expansion -/

/-- The Laplace operator. -/
noncomputable def laplacian (f : ℝ → ℝ → ℝ) (x y : ℝ) : ℝ :=
  deriv^[2] (fun x => f x y) x + deriv^[2] (fun y => f x y) y

theorem deriv_deriv_eval (p : ℝ[X]) (x : ℝ) :
    deriv^[2] (fun x => p.eval x) x = (derivative^[2] p).eval x := by
  have hstep : ∀ p : ℝ[X], deriv (fun x => p.eval x) = fun x => (derivative p).eval x :=
    by
    intro p
    funext x
    exact p.deriv
  change deriv (deriv fun x => p.eval x) x = (derivative (derivative p)).eval x
  rw [hstep, hstep]

/-- **The second derivative in another coordinate**: `f` is a polynomial in `x`, and the coordinate
is `a x + b`. -/
theorem deriv_deriv_affine {f : ℝ → ℝ} {p : ℝ[X]} {a b : ℝ} (ha : a ≠ 0)
    (hf : ∀ x, f (a * x + b) = p.eval x) (x : ℝ) :
    deriv^[2] f (a * x + b) = (1 / a) ^ 2 * (derivative^[2] p).eval x := by
  obtain ⟨l, hl⟩ : ∃ l : ℝ[X], l = C (1 / a) * X - C (b / a) := ⟨_, rfl⟩
  have hcoordinate : ∀ y, l.eval y = (y - b) / a := by
    intro y
    rw [hl, eval_sub, eval_mul, eval_C, eval_C, eval_X]
    ring
  have hinverse : ∀ x, l.eval (a * x + b) = x := by
    intro x
    rw [hcoordinate]
    field_simp
    ring
  have hslope : derivative l = C (1 / a) := by
    rw [hl, derivative_sub, derivative_C, sub_zero, derivative_C_mul, derivative_X, mul_one]
  have hpoly : f = fun y => (p.comp l).eval y := by
    funext y
    have hy : a * ((y - b) / a) + b = y := by
      field_simp
      ring
    rw [eval_comp, hcoordinate, ← hf, hy]
  have hderiv : derivative^[2] (p.comp l) = C (1 / a) * (C (1 / a) * (derivative^[2] p).comp l) := by
    change derivative (derivative (p.comp l)) =
      C (1 / a) * (C (1 / a) * (derivative (derivative p)).comp l)
    rw [derivative_comp, hslope, derivative_C_mul, derivative_comp, hslope]
  rw [hpoly, deriv_deriv_eval, hderiv, eval_mul, eval_mul, eval_C, eval_comp, hinverse]
  ring

section Rectangle

variable {m n : ℕ} {c d e : ℕ × ℕ → ℝ}

/-- A line of an expansion with closed lines is closed. -/
theorem closed_line {a : ℕ → ℕ → ℝ} (h : ∀ j ≤ n, Closed m fun i => a i j) (y : ℝ) :
    Closed m fun i => ∑ j ∈ range (n + 1), a i j * (Chebyshev.T ℝ j).eval y :=
  Closed.sum (a := fun j i => a i j) _ fun j hj => h j (by rw [mem_range] at hj; omega)

/-- **The boundary**: an expansion with closed rows and columns vanishes there. -/
theorem series₂_boundary (hm : 2 ≤ m) (hn : 2 ≤ n) (hmeven : Even m) (hneven : Even n)
    (hcolumns : ∀ j ≤ n, Closed m fun i => c (i, j)) (hrows : ∀ i ≤ m, Closed n fun j => c (i, j))
    (z : ℝ) : series₂ m n c 1 z = 0 ∧ series₂ m n c (-1) z = 0 ∧
      series₂ m n c z 1 = 0 ∧ series₂ m n c z (-1) = 0 := by
  have hleft := closed_line (a := fun i j => c (i, j)) hcolumns z
  have hright := closed_line (a := fun j i => c (i, j)) hrows z
  refine ⟨?_, ?_, ?_, ?_⟩
  · rw [series₂_eq_left, hleft.eval_one hm]
  · rw [series₂_eq_left, hleft.eval_neg_one hm hmeven]
  · rw [series₂_eq_right, hright.eval_one hn]
  · rw [series₂_eq_right, hright.eval_neg_one hn hneven]

/-- The coefficients of a second derivative along a line, summed over the other index. -/
theorem sum_mul_line {a : ℕ → ℕ → ℝ} (d : ℕ × ℕ → ℝ) (l : ℕ) (y : ℝ) :
    ∑ k ∈ range (m - 1), d (k, l) * ∑ j ∈ range (n + 1), a k j * (Chebyshev.T ℝ j).eval y =
      ∑ j ∈ range (n + 1), (∑ k ∈ range (m - 1), d (k, l) * a k j) * (Chebyshev.T ℝ j).eval y := by
  simp only [mul_sum, sum_mul]
  rw [sum_comm]
  exact sum_congr rfl fun j _ => sum_congr rfl fun k _ => (mul_assoc _ _ _).symm

/-- **The coefficients of the Laplacian.** -/
theorem laplacian_series₂ (hm : 2 ≤ m) (hn : 2 ≤ n) (hd : SecondDerivative m d)
    (he : SecondDerivative n e) (hcolumns : ∀ j ≤ n, Closed m fun i => c (i, j))
    (hrows : ∀ i ≤ m, Closed n fun j => c (i, j)) (x y : ℝ) :
    laplacian (series₂ m n c) x y = series₂ m n (fun p =>
      ∑ k ∈ range (m - 1), d (k, p.1) * c (k, p.2) +
        ∑ k ∈ range (n - 1), e (k, p.2) * c (p.1, k)) x y := by
  have hxx : deriv^[2] (fun x => series₂ m n c x y) x =
      series₂ m n (fun p => ∑ k ∈ range (m - 1), d (k, p.1) * c (k, p.2)) x y := by
    simp only [series₂_eq_left]
    rw [deriv_deriv_eval, hd.series_eq hm (closed_line (a := fun i j => c (i, j)) hcolumns y)]
    simp only [sum_mul_line (a := fun i j => c (i, j))]
  have hyy : deriv^[2] (fun y => series₂ m n c x y) y =
      series₂ m n (fun p => ∑ k ∈ range (n - 1), e (k, p.2) * c (p.1, k)) x y := by
    simp only [series₂_eq_right]
    rw [deriv_deriv_eval, he.series_eq hn (closed_line (a := fun j i => c (i, j)) hrows x)]
    simp only [sum_mul_line (a := fun j i => c (i, j))]
  rw [laplacian, hxx, hyy, series₂_add]

end Rectangle

end ChebyshevExpansion
