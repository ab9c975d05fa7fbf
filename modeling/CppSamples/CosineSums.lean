/-
**`cosfft1` computes the cosine sums.**

With the complex transform and the phases around it known cell by cell, what remains is
trigonometry: the folded vector has the even cosine sums as real parts of its transform and the
differences of neighbouring odd cosine sums as imaginary parts.

Main results:

* `Chebyshev.FCT.re_dft_folded`, `Chebyshev.FCT.im_dft_folded` — the transform of the folded
  vector;
* `Chebyshev.FCT.cosfft1_forward_apply`, `Chebyshev.FCT.cosfft1_forward` — **the transform equals
  the direct sum**.
-/

import CppSamples.CosineUnpack
import CppSamples.DiscreteCosine

set_option relaxedAutoImplicit false
set_option autoImplicit false

namespace Chebyshev.FCT

open CountedLoop BitReversal RadixTwo DiscreteCosine Function Complex Finset

/-! ### The last two phases -/

/-- The prefix-sum loop after `t` passes. -/
structure Prefixed (sum : ℝ) (d : ℕ → ℝ) (t : ℕ) (s : ℝ × (ℕ → ℝ)) : Prop where
  /-- The running sum. -/
  running : s.1 = sum + ∑ i ∈ Ico 1 (t + 1), d (2 * i + 1)
  /-- The odd cells passed hold their prefix sums. -/
  done : ∀ x, x ≤ t → s.2 (2 * x + 1) = sum + ∑ i ∈ Ico 1 (x + 1), d (2 * i + 1)
  /-- The odd cells ahead are untouched. -/
  waiting : ∀ x, t < x → s.2 (2 * x + 1) = d (2 * x + 1)
  /-- So are the even cells. -/
  even : ∀ x, s.2 (2 * x) = d (2 * x)

theorem Prefixed.start (sum : ℝ) (d : ℕ → ℝ) : Prefixed sum d 0 (sum, update d 1 sum) where
  running := by simp
  done x hx := by
    obtain rfl : x = 0 := by omega
    simp
  waiting x hx := update_of_ne (by omega) _ _
  even x := update_of_ne (by omega) _ _

theorem Prefixed.step {sum : ℝ} {d : ℕ → ℝ} {t : ℕ} {s : ℝ × (ℕ → ℝ)} (h : Prefixed sum d t s) :
    Prefixed sum d (t + 1)
      (s.1 + s.2 (3 + 2 * t), update s.2 (3 + 2 * t) (s.1 + s.2 (3 + 2 * t))) := by
  have hcell : 3 + 2 * t = 2 * (t + 1) + 1 := by ring
  have hval : s.1 + s.2 (2 * (t + 1) + 1) = sum + ∑ i ∈ Ico 1 (t + 1 + 1), d (2 * i + 1) := by
    rw [h.waiting (t + 1) t.lt_succ_self, h.running, sum_Ico_succ_top (Nat.le_add_left 1 t),
      add_assoc]
  rw [hcell]
  constructor
  · exact hval
  · intro x hx
    dsimp only
    by_cases hxt : x = t + 1
    · subst hxt
      rw [update_self, hval]
    · rw [update_of_ne (by omega)]
      exact h.done x (by omega)
  · intro x hx
    dsimp only
    rw [update_of_ne (by omega)]
    exact h.waiting x (by omega)
  · intro x
    dsimp only
    rw [update_of_ne (by omega)]
    exact h.even x

theorem oddPrefixSums_prefixed {N : ℕ} (hN : 0 < N) (sum : ℝ) (d : ℕ → ℝ) :
    ∃ last, Prefixed sum d (N - 1) (last, oddPrefixSums (2 * N) sum d) := by
  have hcount : steps 2 3 (2 * N + 1) = N - 1 := by
    rw [steps]
    omega
  rw [oddPrefixSums, forUpToBy, forBelowBy, hcount]
  exact ⟨_, forBelow_inv (Nat.zero_le _) (Prefixed sum d) (Prefixed.start sum d)
    fun t _ _ s hs => hs.step⟩

theorem oddPrefixSums_odd {N s : ℕ} (hs : s < N) (sum : ℝ) (d : ℕ → ℝ) :
    oddPrefixSums (2 * N) sum d (2 * s + 1) = sum + ∑ i ∈ Ico 1 (s + 1), d (2 * i + 1) := by
  obtain ⟨last, h⟩ := oddPrefixSums_prefixed (show 0 < N by omega) sum d
  exact h.done s (by omega)

theorem oddPrefixSums_even {N s : ℕ} (hN : 0 < N) (sum : ℝ) (d : ℕ → ℝ) :
    oddPrefixSums (2 * N) sum d (2 * s) = d (2 * s) := by
  obtain ⟨last, h⟩ := oddPrefixSums_prefixed hN sum d
  exact h.even s

/-- A loop that treats the even and the odd cells below `n` by one rule each. -/
theorem forBelowBy_pairs {N : ℕ} (e o : ℝ → ℝ) (d : ℕ → ℝ) (x : ℕ) :
    forBelowBy 2 0 (2 * N) d (fun j d =>
      let d := update d j (e (d j))
      update d (j + 1) (o (d (j + 1)))) x =
      if x < 2 * N then if x % 2 = 0 then e (d x) else o (d x) else d x := by
  have hcount : steps 2 0 (2 * N) = N := by
    rw [steps]
    omega
  rw [forBelowBy, hcount]
  by_cases hx : x < 2 * N
  · rw [if_pos hx]
    rw [forBelow_local (fun t x => x = 2 * t ∨ x = 2 * t + 1) (fun t x => x = 2 * t ∨ x = 2 * t + 1)
      (i := x / 2) ?_ ?_ ?_ ?_ (Nat.zero_le _) (by omega) (by omega)]
    · by_cases hpar : x % 2 = 0
      · obtain ⟨y, rfl⟩ : ∃ y, x = 2 * y := ⟨x / 2, by omega⟩
        simp
      · obtain ⟨y, rfl⟩ : ∃ y, x = 2 * y + 1 := ⟨x / 2, by omega⟩
        have hy : (2 * y + 1) / 2 = y := by omega
        simp [hy]
    · intro t _ _ b y hy
      rw [not_or] at hy
      simp only [zero_add]
      rw [update_of_ne hy.2, update_of_ne hy.1]
    · intro t _ _ b c hbc y hy
      have hlow := hbc _ (Or.inl rfl)
      have hhigh := hbc _ (Or.inr rfl)
      rcases hy with rfl | rfl <;> simp [hlow, hhigh]
    · intro i k _ _ _ y hy hy'
      omega
    · intro i k _ _ _ y hy hy'
      omega
  · rw [if_neg hx]
    refine forBelow_frame ?_
    intro t _ ht b
    simp only [zero_add]
    rw [update_of_ne (by omega), update_of_ne (by omega)]

theorem addLast_apply (N : ℕ) (temp : ℝ) (d : ℕ → ℝ) (x : ℕ) :
    addLast (2 * N) temp d x =
      if x < 2 * N then if x % 2 = 0 then d x + temp else d x - temp else d x :=
  forBelowBy_pairs (fun v => v + temp) (fun v => v - temp) d x

/-! ### The transform of the folded vector -/

/-- The cosine sum of degree `k` over the samples before the last. -/
noncomputable def cosSum (n : ℕ) (d : ℕ → ℝ) (k : ℕ) : ℝ :=
  ∑ j ∈ range n, d j * Real.cos (Real.pi * j * k / n)

theorem sum_Ico_mirror (n : ℕ) (f : ℕ → ℝ) : ∑ j ∈ Ico 1 n, f (n - j) = ∑ j ∈ Ico 1 n, f j := by
  have h := sum_Ico_reflect f 1 (show n ≤ n + 1 by omega)
  rwa [show n + 1 - n = 1 by omega, Nat.add_sub_cancel] at h

/-- Against weights that are even about the middle, folding changes nothing. -/
theorem sum_folded_even {n : ℕ} (d c : ℕ → ℝ) (hc : ∀ j, 0 < j → j < n → c (n - j) = c j) :
    ∑ j ∈ Ico 1 n, folded n d j * c j = ∑ j ∈ Ico 1 n, d j * c j := by
  have hterm : ∀ j ∈ Ico 1 n, folded n d j * c j =
      1 / 2 * (d j * c j) + 1 / 2 * (d (n - j) * c (n - j)) +
        (Real.sin (Real.pi * (n - j : ℕ) / n) * (d (n - j) * c (n - j)) -
          Real.sin (Real.pi * j / n) * (d j * c j)) := by
    intro j hj
    obtain ⟨hj₁, hjn⟩ := mem_Ico.1 hj
    rw [folded, sin_reflect (by omega) hjn.le, hc j hj₁ hjn]
    ring
  rw [sum_congr rfl hterm, sum_add_distrib, sum_add_distrib, sum_sub_distrib, ← mul_sum, ← mul_sum,
    sum_Ico_mirror n (fun j => d j * c j),
    sum_Ico_mirror n (fun j => Real.sin (Real.pi * j / n) * (d j * c j))]
  ring

/-- Against weights that are odd about the middle, only the sine part of the fold remains. -/
theorem sum_folded_odd {n : ℕ} (d c : ℕ → ℝ) (hc : ∀ j, 0 < j → j < n → c (n - j) = -c j) :
    ∑ j ∈ Ico 1 n, folded n d j * c j =
      ∑ j ∈ Ico 1 n, d j * (-2 * Real.sin (Real.pi * j / n) * c j) := by
  have hterm : ∀ j ∈ Ico 1 n, folded n d j * c j =
      d j * (-2 * Real.sin (Real.pi * j / n) * c j) +
        (1 / 2 * (d j * c j) + Real.sin (Real.pi * j / n) * (d j * c j) -
          (1 / 2 * (d (n - j) * c (n - j)) +
            Real.sin (Real.pi * (n - j : ℕ) / n) * (d (n - j) * c (n - j)))) := by
    intro j hj
    obtain ⟨hj₁, hjn⟩ := mem_Ico.1 hj
    rw [folded, sin_reflect (by omega) hjn.le, hc j hj₁ hjn]
    ring
  have hmirror := sum_Ico_mirror n
    (fun j => 1 / 2 * (d j * c j) + Real.sin (Real.pi * j / n) * (d j * c j))
  rw [sum_congr rfl hterm, sum_add_distrib, sum_sub_distrib, hmirror, sub_self, add_zero]

theorem re_dft_ofReal (M : ℕ) (g : ℕ → ℝ) (s : ℕ) : (dft M (fun t => (g t : ℂ)) s).re =
    ∑ j ∈ range M, g j * Real.cos (2 * Real.pi * (j * s : ℕ) / M) := by
  rw [dft, re_sum]
  refine sum_congr rfl ?_
  intro j _
  rw [unitRoot_pow_eq, re_ofReal_mul, add_re, ofReal_re, re_ofReal_mul, I_re, mul_zero, add_zero]

theorem im_dft_ofReal (M : ℕ) (g : ℕ → ℝ) (s : ℕ) : (dft M (fun t => (g t : ℂ)) s).im =
    ∑ j ∈ range M, g j * Real.sin (2 * Real.pi * (j * s : ℕ) / M) := by
  rw [dft, im_sum]
  refine sum_congr rfl ?_
  intro j _
  rw [unitRoot_pow_eq, im_ofReal_mul, add_im, ofReal_im, im_ofReal_mul, I_im, mul_one, zero_add]

/-- The angle of a transform entry, mirrored about the middle. -/
theorem angle_mirror {n j : ℕ} (hj : j < n) (s : ℕ) :
    2 * Real.pi * ((n - j) * s : ℕ) / n = s * (2 * Real.pi) - 2 * Real.pi * (j * s : ℕ) / n := by
  have hn : (n : ℝ) ≠ 0 := by
    have : 0 < n := by omega
    positivity
  push_cast [hj.le]
  field_simp

section Transform

variable {N : ℕ} (hN : 0 < N) {d g : ℕ → ℝ} (hg₀ : g 0 = d 0)
  (hg : ∀ j, 0 < j → j < 2 * N → g j = folded (2 * N) d j)

include hN hg₀ hg

/-- A weighted sum over the folded vector, with its first term apart. -/
theorem sum_folded_split (c : ℕ → ℝ) : ∑ j ∈ range (2 * N), g j * c j =
    d 0 * c 0 + ∑ j ∈ Ico 1 (2 * N), folded (2 * N) d j * c j := by
  rw [sum_range_eq_add_Ico _ (show 0 < 2 * N by omega), hg₀]
  congr 1
  refine sum_congr rfl ?_
  intro j hj
  rw [hg j (mem_Ico.1 hj).1 (mem_Ico.1 hj).2]

/-- **The real parts of the transform of the folded vector are the even cosine sums.** -/
theorem re_dft_folded (s : ℕ) :
    (dft (2 * N) (fun t => (g t : ℂ)) s).re = cosSum (2 * N) d (2 * s) := by
  have heven : ∀ j, 0 < j → j < 2 * N →
      Real.cos (2 * Real.pi * ((2 * N - j) * s : ℕ) / (2 * N : ℕ)) =
        Real.cos (2 * Real.pi * (j * s : ℕ) / (2 * N : ℕ)) := fun j _ hj => by
    rw [angle_mirror hj, Real.cos_nat_mul_two_pi_sub]
  rw [re_dft_ofReal, sum_folded_split hN hg₀ hg, sum_folded_even d _ heven, cosSum,
    sum_range_eq_add_Ico _ (show 0 < 2 * N by omega)]
  have hangle : ∀ j : ℕ, 2 * Real.pi * (j * s : ℕ) / (2 * N : ℕ) =
      Real.pi * j * (2 * s : ℕ) / (2 * N : ℕ) := fun j => by
    push_cast
    ring
  simp only [hangle]

/-- **The imaginary parts are the differences of neighbouring odd cosine sums.** -/
theorem im_dft_folded {s : ℕ} (hs : 0 < s) : (dft (2 * N) (fun t => (g t : ℂ)) s).im =
    cosSum (2 * N) d (2 * s + 1) - cosSum (2 * N) d (2 * s - 1) := by
  have hodd : ∀ j, 0 < j → j < 2 * N →
      Real.sin (2 * Real.pi * ((2 * N - j) * s : ℕ) / (2 * N : ℕ)) =
        -Real.sin (2 * Real.pi * (j * s : ℕ) / (2 * N : ℕ)) := fun j _ hj => by
    rw [angle_mirror hj, Real.sin_nat_mul_two_pi_sub]
  have hterm : ∀ j : ℕ, Real.cos (Real.pi * j * (2 * s + 1 : ℕ) / (2 * N : ℕ)) -
      Real.cos (Real.pi * j * (2 * s - 1 : ℕ) / (2 * N : ℕ)) =
        -2 * Real.sin (Real.pi * j / (2 * N : ℕ)) *
          Real.sin (2 * Real.pi * (j * s : ℕ) / (2 * N : ℕ)) := fun j => by
    have hplus : Real.pi * j * (2 * s + 1 : ℕ) / (2 * N : ℕ) =
        2 * Real.pi * (j * s : ℕ) / (2 * N : ℕ) + Real.pi * j / (2 * N : ℕ) := by
      push_cast
      ring
    have hminus : Real.pi * j * (2 * s - 1 : ℕ) / (2 * N : ℕ) =
        2 * Real.pi * (j * s : ℕ) / (2 * N : ℕ) - Real.pi * j / (2 * N : ℕ) := by
      push_cast [show 1 ≤ 2 * s by omega]
      ring
    rw [hplus, hminus, Real.cos_add, Real.cos_sub]
    ring
  rw [im_dft_ofReal, sum_folded_split hN hg₀ hg, sum_folded_odd d _ hodd, cosSum, cosSum,
    ← sum_sub_distrib, sum_range_eq_add_Ico _ (show 0 < 2 * N by omega)]
  simp only [← mul_sub, hterm]
  simp

end Transform

/-- The sum collected while folding is the cosine sum of degree one. -/
theorem foldMiddle_fst_eq {N : ℕ} (hN : 0 < N) (d : ℕ → ℝ) :
    (foldMiddle (2 * N) d).1 = cosSum (2 * N) d 1 := by
  let f (j : ℕ) : ℝ := d j * Real.cos (Real.pi * j / (2 * N : ℕ))
  have hmid : f N = 0 := by
    have hhalf : Real.pi * N / (2 * N : ℕ) = Real.pi / 2 := by
      push_cast
      field_simp
    simp only [f, hhalf, Real.cos_pi_div_two, mul_zero]
  have hterm : ∀ j ∈ Ico 1 (N + 1), Real.cos (Real.pi * j / (2 * N : ℕ)) * (d j - d (2 * N - j)) =
      f j + f (2 * N - j) := by
    intro j hj
    obtain ⟨hj₁, hjN⟩ := mem_Ico.1 hj
    simp only [f, cos_reflect (show 0 < 2 * N by omega) (show j ≤ 2 * N by omega)]
    ring
  have hmirror : ∑ j ∈ Ico 1 (N + 1), f (2 * N - j) = ∑ j ∈ Ico N (2 * N), f j := by
    rw [sum_Ico_reflect f 1 (show N + 1 ≤ 2 * N + 1 by omega)]
    congr 2
    omega
  have hlast : ∑ j ∈ Ico 1 (N + 1), f j = ∑ j ∈ Ico 1 N, f j := by
    rw [sum_Ico_succ_top hN, hmid, add_zero]
  rw [foldMiddle_fst hN, sum_congr rfl hterm, sum_add_distrib, hmirror, hlast,
    sum_Ico_consecutive f hN (by omega), cosSum, sum_range_eq_add_Ico _ (show 0 < 2 * N by omega)]
  simp [f]

/-! ### The transform -/

section Core

variable {N : ℕ} (hN : 0 < N) {f g data : ℕ → ℝ} (hg₀ : g 0 = f 0)
  (hg : ∀ j, 0 < j → j < 2 * N → g j = folded (2 * N) f j)
  (hdata : ∀ t < N, packed data t = dft N (packed g) t)

include hN hg₀ hg hdata

/-- The even cells after unpacking. -/
theorem unpack_even {s : ℕ} (hs : s < N) :
    unpack (2 * N) data (2 * s) = cosSum (2 * N) f (2 * s) := by
  rw [← re_dft_folded hN hg₀ hg]
  rcases Nat.eq_zero_or_pos s with rfl | hs₀
  · have hperiod : dft N (packed g) (N - 0) = dft N (packed g) 0 := by
      simpa using dft_add_period hN.ne' (packed g) 0
    have hre := congrArg Complex.re (hdata 0 hN)
    have him := congrArg Complex.im (hdata 0 hN)
    simp only [packed, mul_zero, zero_add] at hre him
    rw [mul_zero, unpack_zero hN, dft_unpack (Nat.zero_le N) hN.ne', hperiod]
    simp at hre him ⊢
    rw [hre, him]
    ring
  · rw [← packed_unpack hs₀ hs hdata, packed]
    simp

/-- The odd cells after unpacking. -/
theorem unpack_odd {s : ℕ} (hs₀ : 0 < s) (hs : s < N) : unpack (2 * N) data (2 * s + 1) =
    cosSum (2 * N) f (2 * s + 1) - cosSum (2 * N) f (2 * s - 1) := by
  rw [← im_dft_folded hN hg₀ hg hs₀, ← packed_unpack hs₀ hs hdata, packed]
  simp

/-- The cells after the prefix sums. -/
theorem oddPrefixSums_unpack {k : ℕ} (hk : k < 2 * N) :
    oddPrefixSums (2 * N) (cosSum (2 * N) f 1) (unpack (2 * N) data) k = cosSum (2 * N) f k := by
  obtain ⟨s, rfl | rfl⟩ := Nat.even_or_odd' k
  · rw [oddPrefixSums_even hN, unpack_even hN hg₀ hg hdata (by omega)]
  · rw [oddPrefixSums_odd (by omega)]
    -- the differences telescope
    have htel : ∀ x < N, cosSum (2 * N) f 1 + ∑ i ∈ Ico 1 (x + 1), unpack (2 * N) data (2 * i + 1) =
        cosSum (2 * N) f (2 * x + 1) := by
      intro x
      induction x with
      | zero => simp
      | succ x ih =>
          intro hx
          rw [sum_Ico_succ_top (Nat.le_add_left 1 x), ← add_assoc, ih (by omega),
            unpack_odd hN hg₀ hg hdata x.succ_pos hx]
          have hprev : 2 * (x + 1) - 1 = 2 * x + 1 := by omega
          rw [hprev, add_sub_cancel]
    exact htel s (by omega)

end Core

theorem cosSum_congr {n : ℕ} {f g : ℕ → ℝ} (h : ∀ j < n, f j = g j) (k : ℕ) :
    cosSum n f k = cosSum n g k :=
  sum_congr rfl fun j hj => by rw [h j (mem_range.1 hj)]

/-- The cells before the end-point correction. -/
theorem cosfft1_core {q : ℕ} (f : ℕ → ℝ) {k : ℕ} (hk : k < 2 ^ (q + 1)) :
    oddPrefixSums (2 ^ (q + 1)) (foldMiddle (2 ^ (q + 1)) f).1
      (unpack (2 ^ (q + 1)) (rounds (2 ^ (q + 1)) 2 Nat.two_pos
        (bitReverse (2 ^ (q + 1)) (foldMiddle (2 ^ (q + 1)) f).2))) k =
      cosSum (2 ^ (q + 1)) f k := by
  have hN : 0 < 2 ^ q := by positivity
  have hpow : 2 ^ (q + 1) = 2 * 2 ^ q := pow_succ' 2 q
  have hdata := fun t (ht : t < 2 ^ q) => packed_rounds ht (foldMiddle (2 ^ (q + 1)) f).2
  rw [hpow] at hk hdata ⊢
  rw [foldMiddle_fst_eq hN]
  exact oddPrefixSums_unpack hN (foldMiddle_end hN (Or.inl rfl) f)
    (fun j hj₀ hj => foldMiddle_apply hj₀ hj f) hdata hk

/-- The last cell before the end-point correction. -/
theorem cosfft1_core_end {q : ℕ} (f : ℕ → ℝ) (sum : ℝ) :
    oddPrefixSums (2 ^ (q + 1)) sum
      (unpack (2 ^ (q + 1)) (rounds (2 ^ (q + 1)) 2 Nat.two_pos
        (bitReverse (2 ^ (q + 1)) (foldMiddle (2 ^ (q + 1)) f).2))) (2 ^ (q + 1)) =
      f (2 ^ (q + 1)) := by
  have hN : 0 < 2 ^ q := by positivity
  have hpow : 2 ^ (q + 1) = 2 * 2 ^ q := pow_succ' 2 q
  have hrounds := rounds_of_le (q := q) (bitReverse (2 ^ (q + 1)) (foldMiddle (2 ^ (q + 1)) f).2)
  rw [hpow] at hrounds ⊢
  rw [oddPrefixSums_even hN, unpack_end hN, hrounds, ← hpow, bitReverse_of_le le_rfl, hpow,
    foldMiddle_end hN (Or.inr le_rfl)]

theorem cos_nat_mul_pi_div {n : ℕ} (hn : n ≠ 0) (k : ℕ) :
    Real.cos (Real.pi * n * k / n) = (-1) ^ k := by
  have hn' : (n : ℝ) ≠ 0 := Nat.cast_ne_zero.2 hn
  rw [← Real.cos_nat_mul_pi]
  congr 1
  field_simp

/-- The cells of the forward transform. -/
theorem cosfft1_forward_apply {p : ℕ} (hp : 1 ≤ p) (f : ℕ → ℝ) {k : ℕ} (hk : k ≤ 2 ^ p) :
    cosfft1 (2 ^ p) f .forward k = cosTransform (2 ^ p) f k := by
  obtain ⟨q, rfl⟩ : ∃ q, p = q + 1 := ⟨p - 1, by omega⟩
  have hn : 2 ^ (q + 1) ≠ 0 := by positivity
  have hpow : 2 ^ (q + 1) = 2 * 2 ^ q := pow_succ' 2 q
  set d := update f (2 ^ (q + 1)) (alternatingSum (2 ^ (q + 1)) f) with hd
  have hcong : ∀ j < 2 ^ (q + 1), d j = f j := fun j hj => by rw [hd, update_of_ne (by omega)]
  rw [cosTransform, sum_range_succ, cos_nat_mul_pi_div hn]
  change _ = cosSum (2 ^ (q + 1)) f k + _
  rw [cosfft1]
  dsimp only
  rw [← hd]
  rcases Nat.lt_or_ge k (2 ^ (q + 1)) with hlt | hge
  · have hcore := (cosfft1_core d hlt).trans (cosSum_congr hcong k)
    conv_lhs => rw [hpow]
    rw [addLast_apply, ← hpow, if_pos hlt, hcore]
    rcases Nat.even_or_odd k with he | ho
    · rw [if_pos (Nat.even_iff.1 he), he.neg_one_pow, mul_one]
    · rw [if_neg (by rw [Nat.odd_iff.1 ho]; omega), ho.neg_one_pow, mul_neg_one, sub_eq_add_neg]
  · obtain rfl : k = 2 ^ (q + 1) := le_antisymm hk hge
    have hcore := cosfft1_core_end (q := q) d (foldMiddle (2 ^ (q + 1)) d).1
    have hcos : ∀ j : ℕ, Real.cos (Real.pi * j * (2 ^ (q + 1) : ℕ) / (2 ^ (q + 1) : ℕ)) =
        (-1) ^ j := fun j => by
      rw [mul_right_comm, cos_nat_mul_pi_div hn]
    conv_lhs => rw [hpow]
    rw [addLast_apply, ← hpow, if_neg (lt_irrefl _), hcore, hd, update_self]
    conv_lhs => rw [hpow]
    rw [alternatingSum_eq, ← hpow, sum_range_succ, cosSum]
    simp only [hcos, mul_comm]

/-- **The forward transform equals the direct sum**, for every power of two. -/
theorem cosfft1_forward {p : ℕ} (hp : 1 ≤ p) (f : ℕ → ℝ) {k : ℕ} (hk : k ≤ 2 ^ p) :
    cosfft1 (2 ^ p) f .forward k =
      ∑ j ∈ range (2 ^ p + 1), f j * Real.cos (Real.pi * j * k / (2 ^ p : ℕ)) :=
  cosfft1_forward_apply hp f hk

/-- The vector of the unit test `test_cosfft1`. -/
theorem cosfft1_forward_one_two_three :
    cosfft1 (2 ^ 1) (fun j => (j : ℝ) + 1) .forward 0 = 6 ∧
      cosfft1 (2 ^ 1) (fun j => (j : ℝ) + 1) .forward 1 = -2 ∧
      cosfft1 (2 ^ 1) (fun j => (j : ℝ) + 1) .forward 2 = 2 := by
  refine ⟨?_, ?_, ?_⟩
  · rw [cosfft1_forward le_rfl _ (by decide)]
    norm_num [sum_range_succ]
  · rw [cosfft1_forward le_rfl _ (by decide)]
    norm_num [sum_range_succ]
  · rw [cosfft1_forward le_rfl _ (by decide)]
    norm_num [sum_range_succ, mul_comm Real.pi]

end Chebyshev.FCT
