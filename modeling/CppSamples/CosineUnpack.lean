/-
**The phases of `cosfft1` around the complex transform.**

Before the complex transform the vector is folded about its middle; after it the transform of the
real vector is unpacked, the odd entries are rebuilt by prefix sums and the last sample is added.
This module says what each of these phases leaves in every cell.

Main results:

* `Chebyshev.FCT.alternatingSum_eq`, `Chebyshev.FCT.foldMiddle_apply`,
  `Chebyshev.FCT.foldMiddle_fst` — the sums and the folded vector;
* `Chebyshev.FCT.packed_unpack` — the unpacked cells hold the transform of the real vector;
* `Chebyshev.FCT.oddPrefixSums_odd`, `Chebyshev.FCT.addLast_even`, `Chebyshev.FCT.addLast_odd` —
  the last two phases.
-/

import CppSamples.CosineRounds

set_option relaxedAutoImplicit false
set_option autoImplicit false

namespace Chebyshev.FCT

open CountedLoop BitReversal RadixTwo Function Complex ComplexConjugate Finset

/-! ### Folding -/

/-- The alternating sum of the samples. -/
theorem alternatingSum_eq (N : ℕ) (d : ℕ → ℝ) :
    alternatingSum (2 * N) d = ∑ j ∈ range (2 * N + 1), (-1) ^ j * d j := by
  have heven : steps 2 0 (2 * N + 1) = N + 1 := by
    rw [steps]
    omega
  have hodd : steps 2 1 (2 * N + 1) = N := by
    rw [steps]
    omega
  simp only [alternatingSum, forUpToBy, forBelowBy, heven, hodd]
  rw [forBelow_add, forBelow_sub, sum_range_succ, sum_range_two_mul, Nat.Ico_zero_eq_range,
    Nat.Ico_zero_eq_range, sum_range_succ]
  simp [pow_add, pow_mul, add_comm 1]
  ring

/-- The cell `x` of the vector folded about its middle. -/
noncomputable def folded (n : ℕ) (d : ℕ → ℝ) (x : ℕ) : ℝ :=
  1 / 2 * (d x + d (n - x)) - Real.sin (Real.pi * x / n) * (d x - d (n - x))

theorem sin_reflect {n x : ℕ} (hn : 0 < n) (hx : x ≤ n) :
    Real.sin (Real.pi * (n - x : ℕ) / n) = Real.sin (Real.pi * x / n) := by
  have hn' : (n : ℝ) ≠ 0 := by positivity
  rw [← Real.sin_pi_sub]
  congr 1
  push_cast [hx]
  field_simp
  ring

theorem cos_reflect {n x : ℕ} (hn : 0 < n) (hx : x ≤ n) :
    Real.cos (Real.pi * (n - x : ℕ) / n) = -Real.cos (Real.pi * x / n) := by
  have hn' : (n : ℝ) ≠ 0 := by positivity
  rw [← Real.cos_pi_sub]
  congr 1
  push_cast [hx]
  field_simp

/-- The folding loop after the passes below `j`: what it has summed and which cells it has
folded. -/
structure Folding (n : ℕ) (d : ℕ → ℝ) (j : ℕ) (s : ℝ × (ℕ → ℝ)) : Prop where
  /-- The sum collected so far. -/
  sum : s.1 = d 0 + ∑ i ∈ Ico 1 j, Real.cos (Real.pi * i / n) * (d i - d (n - i))
  /-- The cells below `j` and their mirror images are folded. -/
  done : ∀ x, 0 < x → x < n → x < j ∨ n - x < j → s.2 x = folded n d x
  /-- The other cells are untouched. -/
  waiting : ∀ x, x = 0 ∨ n ≤ x ∨ j ≤ x ∧ j ≤ n - x → s.2 x = d x

theorem Folding.start (n : ℕ) (d : ℕ → ℝ) : Folding n d 1 (d 0, d) where
  sum := by simp
  done x _ _ h := by omega
  waiting _ _ := rfl

/-- One pass of the folding loop. -/
theorem Folding.step {n j : ℕ} (hj : 1 ≤ j) (hjn : 2 * j ≤ n) {d : ℕ → ℝ} {s : ℝ × (ℕ → ℝ)}
    (h : Folding n d j s) :
    Folding n d (j + 1)
      (foldAt n (Real.cos (Real.pi * j / n), Real.sin (Real.pi * j / n)) j s) := by
  obtain ⟨sum, data⟩ := s
  have hlow : data j = d j := h.waiting j (by omega)
  have hhigh : data (n - j) = d (n - j) := h.waiting (n - j) (by omega)
  have hmirror : n - (n - j) = j := by omega
  have hsin : Real.sin (Real.pi * (n - j : ℕ) / n) = Real.sin (Real.pi * j / n) :=
    sin_reflect (by omega) (by omega)
  constructor
  · have hsum : sum = d 0 + ∑ i ∈ Ico 1 j, Real.cos (Real.pi * i / n) * (d i - d (n - i)) := h.sum
    rw [sum_Ico_succ_top hj, ← add_assoc, ← hsum]
    simp only [foldAt, hlow, hhigh]
  · intro x hx₀ hxn hx
    simp only [foldAt, update_apply, hlow, hhigh]
    by_cases hxh : x = n - j
    · subst hxh
      rw [if_pos rfl, folded, hmirror, hsin]
      ring
    · by_cases hxl : x = j
      · subst hxl
        rw [if_neg hxh, if_pos rfl, folded]
      · rw [if_neg hxh, if_neg hxl]
        exact h.done x hx₀ hxn (by omega)
  · intro x hx
    simp only [foldAt, update_apply]
    rw [if_neg (by omega), if_neg (by omega)]
    exact h.waiting x (by omega)

theorem foldMiddle_folding {n : ℕ} (hn : 1 < n) (d : ℕ → ℝ) :
    Folding n d (n / 2 + 1) (foldMiddle n d) := by
  let angle (j : ℕ) : ℝ := Real.pi * (j - 1) / n
  have hturn : ∀ j : ℕ, angle j + Real.pi / n = Real.pi * j / n := fun j => by
    simp only [angle]
    ring
  refine (forBelow_inv (by omega : 1 ≤ n / 2 + 1)
    (fun j (s : (ℝ × ℝ) × ℝ × (ℕ → ℝ)) =>
      s.1 = (Real.cos (angle j), Real.sin (angle j)) ∧ Folding n d j s.2) ?_ ?_).2
  · exact ⟨by simp [angle], Folding.start n d⟩
  · rintro j hj hjn ⟨w, s⟩ ⟨hw, hs⟩
    obtain rfl : w = (Real.cos (angle j), Real.sin (angle j)) := hw
    have hnext : angle (j + 1) = Real.pi * j / n := by
      simp [angle]
    have hrot : rotate (wpr (Real.pi / n)) (Real.sin (Real.pi / n))
        (Real.cos (angle j), Real.sin (angle j)) =
          (Real.cos (Real.pi * j / n), Real.sin (Real.pi * j / n)) := by
      rw [rotate_angle, hturn]
    constructor
    · simp only [trig_pi, trig_sin, hrot, hnext]
    · simp only [trig_pi, trig_sin, hrot]
      exact hs.step hj (by omega)

theorem foldMiddle_fst {N : ℕ} (hN : 0 < N) (d : ℕ → ℝ) : (foldMiddle (2 * N) d).1 =
    d 0 + ∑ j ∈ Ico 1 (N + 1), Real.cos (Real.pi * j / (2 * N : ℕ)) * (d j - d (2 * N - j)) := by
  have h := (foldMiddle_folding (n := 2 * N) (by omega) d).sum
  rwa [Nat.mul_div_cancel_left N two_pos] at h

theorem foldMiddle_apply {N x : ℕ} (hx₀ : 0 < x) (hx : x < 2 * N) (d : ℕ → ℝ) :
    (foldMiddle (2 * N) d).2 x = folded (2 * N) d x :=
  (foldMiddle_folding (by omega) d).done x hx₀ hx (by omega)

theorem foldMiddle_end {N x : ℕ} (hN : 0 < N) (hx : x = 0 ∨ 2 * N ≤ x) (d : ℕ → ℝ) :
    (foldMiddle (2 * N) d).2 x = d x :=
  (foldMiddle_folding (n := 2 * N) (by omega) d).waiting x (by omega)

/-! ### Unpacking -/

/-- The pass of the unpacking loop on complex cells `i` and `N - i`. -/
noncomputable def pairUnpack (N : ℕ) (w : ℂ) (i : ℕ) (z : ℕ → ℂ) : ℕ → ℂ :=
  let h1 := 1 / 2 * (z i + conj (z (N - i)))
  let h2 := -I / 2 * (z i - conj (z (N - i)))
  update (update z i (h1 + w * h2)) (N - i) (conj (h1 - w * h2))

/-- The pass of the source on the packed vector. -/
theorem packed_unpackAt {N i : ℕ} (hi : 2 * i ≤ N) (hN : 0 < N) (w : ℝ × ℝ) (data : ℕ → ℝ) :
    packed (unpackAt (2 * N) w i data) = pairUnpack N (toComplex w) i (packed data) := by
  have hi3 : 2 * N - (2 * i + 1) + 1 = 2 * (N - i) := by omega
  have heven : ∀ a b : ℕ, 2 * a ≠ 2 * b + 1 := by omega
  have hodd : ∀ a b : ℕ, 2 * a + 1 ≠ 2 * b := by omega
  have hsucc : ∀ a b : ℕ, 2 * a + 1 = 2 * b + 1 ↔ a = b := by omega
  funext y
  simp only [packed, unpackAt, hi3, update_apply, heven, hodd, hsucc, if_false,
    mul_right_inj' two_ne_zero, pairUnpack, toComplex]
  by_cases h₁ : y = N - i
  · subst h₁
    simp only [if_true]
    apply Complex.ext <;> simp [map_ofNat] <;> ring
  · by_cases h₂ : y = i
    · subst h₂
      simp only [h₁, if_true, if_false]
      apply Complex.ext <;> simp <;> ring
    · simp only [h₁, h₂, if_false]

/-- The cells the unpacking passes do not touch. -/
theorem pairUnpack_of_ne {N i y : ℕ} (w : ℂ) (z : ℕ → ℂ) (h₁ : y ≠ i) (h₂ : y ≠ N - i) :
    pairUnpack N w i z y = z y := by
  rw [pairUnpack, update_of_ne h₂, update_of_ne h₁]

/-- The unpacking loop on the packed vector. -/
theorem packed_unpackLoop {N : ℕ} (hN : 0 < N) (data : ℕ → ℝ) :
    packed (unpack (2 * N) data) =
      forBelow 1 (N / 2 + 1) (packed (update data 0 (data 0 + data 1))) fun i z =>
        pairUnpack N (unitRoot (2 * N) ^ i) i z := by
  have hquarter : 2 * N / 4 = N / 2 := by omega
  have hhalf : 2 * N / 2 = N := by omega
  have htheta : Real.pi / (N : ℝ) = 2 * Real.pi / (2 * N : ℕ) := by
    push_cast
    rw [mul_div_mul_left _ _ two_ne_zero]
  have hangle : ∀ k : ℕ, Real.pi / N + k * (Real.pi / N) =
      2 * Real.pi * (k + 1 : ℕ) / (2 * N : ℕ) := fun k => by
    rw [htheta]
    push_cast
    ring
  have hfirst : (wpr (Real.pi / N) + 1, Real.sin (Real.pi / N)) =
      (Real.cos (Real.pi / N), Real.sin (Real.pi / N)) := by rw [wpr_eq, sub_add_cancel]
  rw [unpack, hhalf, hquarter, forUpTo, trig_pi, trig_sin, hfirst]
  rw [forBelow_prod (f := fun i w data => unpackAt (2 * N) w i data)]
  refine forBelow_rel (fun d z => packed d = z) rfl ?_
  rintro i hi hiN d _ rfl
  have hroot : toComplex (Real.cos (2 * Real.pi * i / (2 * N : ℕ)),
      Real.sin (2 * Real.pi * i / (2 * N : ℕ))) = unitRoot (2 * N) ^ i := by
    rw [unitRoot_pow_eq, toComplex]
  rw [packed_unpackAt (by omega) hN, rotate_iterate, hangle, Nat.sub_add_cancel hi, hroot]

/-- **The unpacked cells hold the transform of the real vector** whose packing was transformed. -/
theorem packed_unpack {N s : ℕ} (hs₀ : 0 < s) (hs : s < N) {g data : ℕ → ℝ}
    (h : ∀ t < N, packed data t = dft N (packed g) t) :
    packed (unpack (2 * N) data) s = dft (2 * N) (fun t => (g t : ℂ)) s := by
  set z := packed (update data 0 (data 0 + data 1)) with hz
  have hkeep : ∀ t, 0 < t → t < N → z t = dft N (packed g) t := by
    intro t ht₀ ht
    rw [← h t ht, hz, packed, packed, update_of_ne (by omega), update_of_ne (by omega)]
  have hpass : ∀ i, 1 ≤ i → i < N / 2 + 1 → ∀ y, y = i ∨ y = N - i →
      forBelow 1 (N / 2 + 1) z (fun i z => pairUnpack N (unitRoot (2 * N) ^ i) i z) y =
        pairUnpack N (unitRoot (2 * N) ^ i) i z y := by
    intro i hi hiN y hy
    refine forBelow_local (fun i y => y = i ∨ y = N - i) (fun i y => y = i ∨ y = N - i)
      ?_ ?_ ?_ ?_ hi hiN hy
    · intro i _ _ c x hx
      rw [not_or] at hx
      exact pairUnpack_of_ne _ c hx.1 hx.2
    · intro i _ _ c d hcd x hx
      have hlow := hcd i (Or.inl rfl)
      have hhigh := hcd (N - i) (Or.inr rfl)
      rcases hx with rfl | rfl <;> simp only [pairUnpack, update_apply, hlow, hhigh]
    · intro i k _ _ _ x hx hx'
      omega
    · intro i k _ _ _ x hx hx'
      omega
  rw [packed_unpackLoop (by omega), ← hz]
  rcases Nat.lt_or_ge (N / 2) s with hgt | hle
  · -- the mirrored cell of pass `N - s`
    rw [hpass (N - s) (by omega) (by omega) s (by omega), pairUnpack,
      hkeep _ (by omega) (by omega), hkeep _ (by omega) (by omega)]
    have hmirror : N - (N - s) = s := by omega
    have hunpack := dft_unpack_sub (N := N) (s := N - s) (by omega) (by omega) g
    rw [hmirror] at hunpack ⊢
    rw [update_self, hunpack]
  · rw [hpass s hs₀ (by omega) s (Or.inl rfl), pairUnpack, hkeep s hs₀ hs,
      hkeep (N - s) (by omega) (by omega)]
    by_cases hmid : s = N - s
    · -- the middle cell is written twice, with the same value
      have hunpack := dft_unpack_sub (N := N) (s := s) hs.le (by omega) g
      rw [← hmid] at hunpack ⊢
      rw [update_self, hunpack]
    · rw [update_of_ne hmid, update_self, dft_unpack hs.le (by omega)]

/-- The first cell after unpacking. -/
theorem unpack_zero {N : ℕ} (hN : 0 < N) (data : ℕ → ℝ) :
    unpack (2 * N) data 0 = data 0 + data 1 := by
  have h : packed (unpack (2 * N) data) 0 = packed (update data 0 (data 0 + data 1)) 0 := by
    rw [packed_unpackLoop hN]
    exact forBelow_frame fun i hi hiN c => pairUnpack_of_ne _ c (by omega) (by omega)
  simpa [packed] using congrArg Complex.re h

/-- The cells from `n` on are not unpacked. -/
theorem unpack_end {N : ℕ} (hN : 0 < N) (data : ℕ → ℝ) :
    unpack (2 * N) data (2 * N) = data (2 * N) := by
  have h : packed (unpack (2 * N) data) N = packed (update data 0 (data 0 + data 1)) N := by
    rw [packed_unpackLoop hN]
    exact forBelow_frame fun i hi hiN c => pairUnpack_of_ne _ c (by omega) (by omega)
  have hre := congrArg Complex.re h
  simpa [packed, update_of_ne (show 2 * N ≠ 0 by omega)] using hre

end Chebyshev.FCT
