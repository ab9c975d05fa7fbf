/-
**The rounds of butterflies of `cosfft1`.**

Read as complex numbers, the pairs of cells `(2 t, 2 t + 1)` undergo in every round the radix-two
butterflies of `CppSamples/RadixTwo.lean`; the twiddle factors come out of the trigonometric
recurrence, which in exact arithmetic is a rotation.  Started on the bit-reversed pairs the rounds
therefore end with the transform of the pairs.

Main results:

* `Chebyshev.FCT.rotate_iterate` — the recurrence runs through the powers of the root of unity;
* `Chebyshev.FCT.packed_round` — one round is a round of butterflies on the packed vector;
* `Chebyshev.FCT.packed_rounds` — **the rounds compute the transform of the packed vector**.
-/

import CppSamples.CosineBitReversal
import CppSamples.RadixTwo

set_option relaxedAutoImplicit false
set_option autoImplicit false

namespace Chebyshev.FCT

open CountedLoop BitReversal RadixTwo Function Complex

/-! ### The trigonometric recurrence -/

@[simp] theorem trig_pi : (Trig.pi : ℝ) = Real.pi := rfl

@[simp] theorem trig_sin (x : ℝ) : Trig.sin x = Real.sin x := rfl

theorem wpr_eq (theta : ℝ) : wpr theta = Real.cos theta - 1 := by
  have h := Real.cos_sq_add_sin_sq (1 / 2 * theta)
  have h₂ : Real.cos theta = 2 * Real.cos (1 / 2 * theta) ^ 2 - 1 := by
    rw [← Real.cos_two_mul]
    ring_nf
  simp only [wpr, trig_sin]
  linear_combination -h₂ - 2 * h

/-- A pair of reals as a complex number. -/
noncomputable def toComplex (w : ℝ × ℝ) : ℂ := w.1 + w.2 * I

/-- One step of the recurrence turns by `theta`. -/
theorem rotate_angle (theta phi : ℝ) :
    rotate (wpr theta) (Real.sin theta) (Real.cos phi, Real.sin phi) =
      (Real.cos (phi + theta), Real.sin (phi + theta)) := by
  rw [wpr_eq, rotate, Real.cos_add, Real.sin_add]
  ext <;> ring

/-- The recurrence runs through the multiples of `theta`. -/
theorem rotate_iterate (theta phi : ℝ) (k : ℕ) :
    (rotate (wpr theta) (Real.sin theta))^[k] (Real.cos phi, Real.sin phi) =
      (Real.cos (phi + k * theta), Real.sin (phi + k * theta)) := by
  induction k with
  | zero => simp
  | succ k ih =>
      have hangle : phi + k * theta + theta = phi + (k + 1 : ℕ) * theta := by
        push_cast
        ring
      rw [iterate_succ_apply', ih, rotate_angle, hangle]

/-- From `(1, 0)` on, the recurrence for the angle `2 π / N` runs through the powers of the root
of unity. -/
theorem toComplex_rotate_iterate (N k : ℕ) :
    toComplex ((rotate (wpr (2 * Real.pi / N)) (Real.sin (2 * Real.pi / N)))^[k] (1, 0)) =
      unitRoot N ^ k := by
  have h := rotate_iterate (2 * Real.pi / N) 0 k
  have hangle : 0 + (k : ℝ) * (2 * Real.pi / N) = 2 * Real.pi * k / N := by ring
  rw [Real.cos_zero, Real.sin_zero, hangle] at h
  rw [h, unitRoot_pow_eq, toComplex]

/-! ### One round on complex cells -/

/-- The butterfly on the complex cells `x` and `x + M`. -/
noncomputable def pairButterfly (M : ℕ) (w : ℂ) (x : ℕ) (z : ℕ → ℂ) : ℕ → ℂ :=
  update (update z (x + M) (z x - w * z (x + M))) x (z x + w * z (x + M))

theorem pairButterfly_low (M : ℕ) (w : ℂ) (x : ℕ) (z : ℕ → ℂ) :
    pairButterfly M w x z x = z x + w * z (x + M) := by
  rw [pairButterfly, update_self]

theorem pairButterfly_high {M : ℕ} (hM : 0 < M) (w : ℂ) (x : ℕ) (z : ℕ → ℂ) :
    pairButterfly M w x z (x + M) = z x - w * z (x + M) := by
  rw [pairButterfly, update_of_ne (by omega), update_self]

theorem pairButterfly_of_ne {M : ℕ} (w : ℂ) {x y : ℕ} (z : ℕ → ℂ) (h₁ : y ≠ x) (h₂ : y ≠ x + M) :
    pairButterfly M w x z y = z y := by
  rw [pairButterfly, update_of_ne h₁, update_of_ne h₂]

/-- The butterfly of the source on the packed vector. -/
theorem packed_butterfly {M : ℕ} (hM : 0 < M) (w : ℝ × ℝ) (x : ℕ) (data : ℕ → ℝ) :
    packed (butterfly (2 * M) w (2 * x + 1) data) =
      pairButterfly M (toComplex w) x (packed data) := by
  have hj' : 2 * x + 1 + 2 * M = 2 * (x + M) + 1 := by omega
  have heven : ∀ a b : ℕ, 2 * a ≠ 2 * b + 1 := by omega
  have hodd : ∀ a b : ℕ, 2 * a + 1 ≠ 2 * b := by omega
  have hsucc : ∀ a b : ℕ, 2 * a + 1 = 2 * b + 1 ↔ a = b := by omega
  have hxM : x ≠ x + M := by omega
  funext y
  simp only [packed, butterfly, hj', Nat.add_sub_cancel, update_apply, heven, hodd, hsucc,
    if_false, mul_right_inj' two_ne_zero, hxM, pairButterfly, toComplex]
  by_cases h₁ : y = x
  · subst h₁
    simp only [if_true, if_false, hxM]
    apply Complex.ext <;> simp
  · by_cases h₂ : y = x + M
    · subst h₂
      simp only [if_true, if_false, hxM.symm]
      apply Complex.ext <;> simp
    · simp only [h₁, h₂, if_false]

/-! ### The loop over the blocks -/

section Block

variable {M : ℕ} (hM : 0 < M) (w : ℂ) (s cnt : ℕ) (z : ℕ → ℂ)

/-- The inner loop of a round: the butterflies with one twiddle factor. -/
noncomputable def blockLoop (M : ℕ) (w : ℂ) (s cnt : ℕ) (z : ℕ → ℂ) : ℕ → ℂ :=
  forBelow 0 cnt z fun b z => pairButterfly M w (s + 2 * M * b) z

include hM

/-- Different butterflies of one inner loop work on different cells. -/
theorem blockLoop_apply {b : ℕ} (hb : b < cnt) {y : ℕ}
    (hy : y = s + 2 * M * b ∨ y = s + 2 * M * b + M) :
    blockLoop M w s cnt z y = pairButterfly M w (s + 2 * M * b) z y := by
  have hsep : ∀ i k, i < k → 2 * M * i + 2 * M ≤ 2 * M * k := fun i k hik => by
    calc 2 * M * i + 2 * M = 2 * M * (i + 1) := by ring
      _ ≤ 2 * M * k := Nat.mul_le_mul_left _ hik
  refine forBelow_local (fun b y => y = s + 2 * M * b ∨ y = s + 2 * M * b + M)
    (fun b y => y = s + 2 * M * b ∨ y = s + 2 * M * b + M) ?_ ?_ ?_ ?_ (Nat.zero_le b) hb hy
  · intro i _ _ c x hx
    rw [not_or] at hx
    exact pairButterfly_of_ne w c hx.1 hx.2
  · intro i _ _ c d hcd x hx
    have hlow := hcd _ (Or.inl rfl)
    have hhigh := hcd _ (Or.inr rfl)
    rcases hx with rfl | rfl
    · rw [pairButterfly_low, pairButterfly_low, hlow, hhigh]
    · rw [pairButterfly_high hM, pairButterfly_high hM, hlow, hhigh]
  · intro i k _ hki _ x hx hx'
    have := hsep k i hki
    omega
  · intro i k _ hik _ x hx hx'
    have := hsep i k hik
    omega

theorem blockLoop_low {b : ℕ} (hb : b < cnt) :
    blockLoop M w s cnt z (s + 2 * M * b) =
      z (s + 2 * M * b) + w * z (s + 2 * M * b + M) := by
  rw [blockLoop_apply hM w s cnt z hb (Or.inl rfl), pairButterfly_low]

theorem blockLoop_high {b : ℕ} (hb : b < cnt) :
    blockLoop M w s cnt z (s + 2 * M * b + M) =
      z (s + 2 * M * b) - w * z (s + 2 * M * b + M) := by
  rw [blockLoop_apply hM w s cnt z hb (Or.inr rfl), pairButterfly_high hM]

omit hM in
theorem blockLoop_of_ne {y : ℕ} (hy : ∀ b, b < cnt → y ≠ s + 2 * M * b ∧ y ≠ s + 2 * M * b + M) :
    blockLoop M w s cnt z y = z y :=
  forBelow_frame fun b _ hb c => pairButterfly_of_ne w c (hy b hb).1 (hy b hb).2

end Block

/-! ### One round -/

/-- The outer loop of a round on complex cells, with the twiddle factor of pass `s` and the number
of butterflies of pass `s` as parameters. -/
noncomputable def pairRound (M : ℕ) (w : ℕ → ℂ) (cnt : ℕ → ℕ) (z : ℕ → ℂ) : ℕ → ℂ :=
  forBelow 0 M z fun s z => blockLoop M (w s) s (cnt s) z

/-- Different passes of a round work on different residues modulo the half size. -/
theorem pairRound_apply {M : ℕ} (hM : 0 < M) (w : ℕ → ℂ) (cnt : ℕ → ℕ) (z : ℕ → ℂ) {s : ℕ}
    (hs : s < M) {y : ℕ} (hy : y % M = s) :
    pairRound M w cnt z y = blockLoop M (w s) s (cnt s) z y := by
  have hmod : ∀ t b, t < M → (t + 2 * M * b) % M = t ∧ (t + 2 * M * b + M) % M = t := by
    intro t b ht
    have h₁ : t + 2 * M * b = t + M * (2 * b) := by ring
    rw [Nat.add_mod_right, h₁, Nat.add_mul_mod_self_left, Nat.mod_eq_of_lt ht]
    exact ⟨rfl, rfl⟩
  refine forBelow_local (fun s y => y % M = s) (fun s y => y % M = s) ?_ ?_ ?_ ?_
    (Nat.zero_le s) hs hy
  · intro t _ ht c x hx
    refine blockLoop_of_ne _ _ _ _ fun b _ => ⟨fun h => hx ?_, fun h => hx ?_⟩
    · rw [h, (hmod t b ht).1]
    · rw [h, (hmod t b ht).2]
  · intro t _ ht c d hcd x hx
    by_cases hin : ∃ b, b < cnt t ∧ (x = t + 2 * M * b ∨ x = t + 2 * M * b + M)
    · obtain ⟨b, hb, hxb⟩ := hin
      have hlow := hcd _ (hmod t b ht).1
      have hhigh := hcd _ (hmod t b ht).2
      rcases hxb with rfl | rfl
      · rw [blockLoop_low hM _ _ _ _ hb, blockLoop_low hM _ _ _ _ hb, hlow, hhigh]
      · rw [blockLoop_high hM _ _ _ _ hb, blockLoop_high hM _ _ _ _ hb, hlow, hhigh]
    · have hout : ∀ b, b < cnt t → x ≠ t + 2 * M * b ∧ x ≠ t + 2 * M * b + M := by
        intro b hb
        refine ⟨fun h => hin ⟨b, hb, Or.inl h⟩, fun h => hin ⟨b, hb, Or.inr h⟩⟩
      rw [blockLoop_of_ne _ _ _ _ hout, blockLoop_of_ne _ _ _ _ hout, hcd x hx]
  · intro i k _ hki _ x hx hx'
    omega
  · intro i k _ hik _ x hx hx'
    omega

/-- **One round of the source is a round of butterflies on the packed vector.** -/
theorem packed_round {q r : ℕ} (data : ℕ → ℝ) :
    packed (round (2 ^ (q + 1)) (2 * 2 ^ r) data) =
      pairRound (2 ^ r) (fun s => unitRoot (2 ^ (r + 1)) ^ s)
        (fun s => steps (4 * 2 ^ r) (1 + 2 * s) (2 ^ (q + 1) + 1)) (packed data) := by
  have hcount : steps 2 1 (2 * 2 ^ r + 1) = 2 ^ r := by
    rw [steps]
    omega
  have htheta : 2 * (Trig.pi : ℝ) / ((2 * 2 ^ r : ℕ) : ℝ) = 2 * Real.pi / (2 ^ (r + 1) : ℕ) := by
    rw [pow_succ', trig_pi]
  have hstep : 2 * (2 * 2 ^ r) = 4 * 2 ^ r := by ring
  rw [round, htheta, forUpToBy, forBelowBy, hcount, hstep, trig_sin]
  rw [forBelow_prod (f := fun t w data => forUpToBy (4 * 2 ^ r) (1 + 2 * t) (2 ^ (q + 1)) data
    fun i data => butterfly (2 * 2 ^ r) w i data)]
  refine forBelow_rel (fun d z => packed d = z) rfl ?_
  rintro s - hs d _ rfl
  rw [forUpToBy, forBelowBy, blockLoop]
  refine forBelow_rel (fun d z => packed d = z) rfl ?_
  rintro b - hb d _ rfl
  have hi : 1 + 2 * s + 4 * 2 ^ r * b = 2 * (s + 2 * 2 ^ r * b) + 1 := by ring
  rw [hi, packed_butterfly (by positivity), Nat.sub_zero, toComplex_rotate_iterate]

/-- A round leaves the cells beyond the pairs alone. -/
theorem packed_round_of_le {q r y : ℕ} (hr : r < q) (hy : 2 ^ q ≤ y) (data : ℕ → ℝ) :
    packed (round (2 ^ (q + 1)) (2 * 2 ^ r) data) y = packed data y := by
  obtain ⟨e, rfl⟩ : ∃ e, q = r + 1 + e := ⟨q - (r + 1), by omega⟩
  have hq : 2 ^ (r + 1 + e) = 2 * 2 ^ r * 2 ^ e := by rw [pow_add, pow_succ']
  rw [packed_round]
  refine forBelow_frame fun s _ hs z => blockLoop_of_ne _ _ _ _ ?_
  intro b hb
  rw [lt_steps (by positivity), pow_succ' 2 (r + 1 + e), hq] at hb
  -- block `b` lies below the last pair
  have hlt : b < 2 ^ e := by
    by_contra hge
    have := Nat.mul_le_mul_left (2 * 2 ^ r) (not_lt.1 hge)
    have h4 : 4 * 2 ^ r * b = 2 * (2 * 2 ^ r * b) := by ring
    omega
  have hblock : 2 * 2 ^ r * b + 2 * 2 ^ r ≤ 2 * 2 ^ r * 2 ^ e := by
    rw [← Nat.mul_succ]
    exact Nat.mul_le_mul_left _ hlt
  omega

/-! ### All the rounds -/

theorem rounds_congr {n mmax mmax' : ℕ} (h : mmax = mmax') (hpos : 0 < mmax) (data : ℕ → ℝ) :
    rounds n mmax hpos data = rounds n mmax' (h ▸ hpos) data := by
  subst h
  rfl

/-- The invariant of `CppSamples/RadixTwo.lean` over the rounds of the source. -/
theorem packed_rounds_blockDft {z₀ : ℕ → ℂ} {q r : ℕ} (hr : r ≤ q) (hpos : 0 < 2 * 2 ^ r)
    {data : ℕ → ℝ} (h : BlockDft z₀ q r (packed data)) :
    BlockDft z₀ q q (packed (rounds (2 ^ (q + 1)) (2 * 2 ^ r) hpos data)) := by
  induction hk : q - r generalizing r data with
  | zero =>
      obtain rfl : r = q := by omega
      rw [rounds, if_neg (by rw [pow_succ']; omega)]
      exact h
  | succ k ih =>
      have hlt : r < q := by omega
      have hsize : 2 * 2 ^ r < 2 ^ (q + 1) := by
        rw [pow_succ']
        have := Nat.pow_lt_pow_right (show 1 < 2 by omega) hlt
        omega
      have hnext : 2 * (2 * 2 ^ r) = 2 * 2 ^ (r + 1) := by rw [pow_succ']
      have hM : 0 < 2 ^ r := by positivity
      have hcnt : ∀ b s, b < 2 ^ (q - (r + 1)) → s < 2 ^ r →
          b < steps (4 * 2 ^ r) (1 + 2 * s) (2 ^ (q + 1) + 1) := by
        intro b s hb hs
        have hq : 2 ^ (q + 1) = 4 * 2 ^ r * 2 ^ (q - (r + 1)) := by
          rw [show q + 1 = 2 + r + (q - (r + 1)) by omega, pow_add, pow_add]
          norm_num
        have hle : 4 * 2 ^ r * b + 4 * 2 ^ r ≤ 4 * 2 ^ r * 2 ^ (q - (r + 1)) := by
          rw [← Nat.mul_succ]
          exact Nat.mul_le_mul_left _ hb
        rw [lt_steps (by positivity), hq]
        omega
      have hres : ∀ b s, s < 2 ^ r → (s + 2 * 2 ^ r * b) % 2 ^ r = s := by
        intro b s hs
        rw [mul_comm 2 (2 ^ r), mul_assoc, Nat.add_mul_mod_self_left, Nat.mod_eq_of_lt hs]
      have hround : BlockDft z₀ q (r + 1) (packed (round (2 ^ (q + 1)) (2 * 2 ^ r) data)) := by
        refine h.butterfly hlt ?_ ?_
        · intro b t hb ht
          rw [packed_round, pow_succ', add_comm _ t,
            pairRound_apply hM _ _ _ ht (hres b t ht), blockLoop_low hM _ _ _ _ (hcnt b t hb ht)]
        · intro b t hb ht
          rw [packed_round, pow_succ', add_comm _ t,
            pairRound_apply hM _ _ _ ht (by rw [Nat.add_mod_right, hres b t ht]),
            blockLoop_high hM _ _ _ _ (hcnt b t hb ht)]
      rw [rounds, if_pos hsize, rounds_congr hnext]
      exact ih (by omega) (by positivity) hround (by omega)

/-- **The rounds compute the transform of the packed vector** from its bit-reversed pairs. -/
theorem packed_rounds {q t : ℕ} (ht : t < 2 ^ q) (data : ℕ → ℝ) :
    packed (rounds (2 ^ (q + 1)) 2 (by omega) (bitReverse (2 ^ (q + 1)) data)) t =
      dft (2 ^ q) (packed data) t := by
  have hstart : BlockDft (packed data) q 0 (packed (bitReverse (2 ^ (q + 1)) data)) := by
    refine BlockDft.start ?_
    intro b hb
    have heven := bitReverse_apply hb two_pos data (e := 0)
    have hodd := bitReverse_apply hb one_lt_two data (e := 1)
    rw [add_zero, add_zero] at heven
    rw [packed, packed, heven, hodd]
  exact (packed_rounds_blockDft (Nat.zero_le q) (by omega) hstart).finish ht

theorem packed_rounds_of_le {q r y : ℕ} (hr : r ≤ q) (hpos : 0 < 2 * 2 ^ r) (hy : 2 ^ q ≤ y)
    (data : ℕ → ℝ) :
    packed (rounds (2 ^ (q + 1)) (2 * 2 ^ r) hpos data) y = packed data y := by
  induction hk : q - r generalizing r data with
  | zero =>
      obtain rfl : r = q := by omega
      rw [rounds, if_neg (by rw [pow_succ']; omega)]
  | succ k ih =>
      have hlt : r < q := by omega
      have hnext : 2 * (2 * 2 ^ r) = 2 * 2 ^ (r + 1) := by rw [pow_succ']
      rw [rounds]
      split
      · rw [rounds_congr hnext, ih (by omega) (by positivity) _ (by omega),
          packed_round_of_le hlt hy]
      · rfl

/-- The rounds leave the last cell alone. -/
theorem rounds_of_le {q : ℕ} (data : ℕ → ℝ) :
    rounds (2 ^ (q + 1)) 2 Nat.two_pos data (2 ^ (q + 1)) = data (2 ^ (q + 1)) := by
  have h := packed_rounds_of_le (Nat.zero_le q) (by omega) le_rfl data
  have hre := congrArg Complex.re h
  simpa [packed, ← pow_succ'] using hre

end Chebyshev.FCT
