/-
**The discrete Fourier transform by radix-two steps.**

The decimation-in-time transform keeps, after `r` rounds on `2 ^ q` points, the transforms of size
`2 ^ r` of the subsequences with step `2 ^ (q - r)`, block `b` holding the subsequence that starts
at the bit reversal of `b`.  This module states that invariant for a sequence of complex numbers,
proves that it starts with the bit-reversed input, is carried over one round of butterflies and
ends with the transform, and adds the packing of a real sequence of even length into a complex one
of half the length.

Main definitions:

* `RadixTwo.unitRoot` — the root of unity `exp (2 π i / N)`;
* `RadixTwo.dft` — the transform with that root;
* `RadixTwo.BlockDft` — the invariant of the rounds.

Main results:

* `RadixTwo.dft_two_mul`, `RadixTwo.dft_two_mul_add` — the transform of even length in terms of
  the transforms of the even and the odd entries;
* `RadixTwo.BlockDft.start`, `RadixTwo.BlockDft.butterfly`, `RadixTwo.BlockDft.finish` — the
  life of the invariant;
* `RadixTwo.dft_unpack`, `RadixTwo.dft_unpack_sub` — the transform of a real sequence from the
  transform of its packing.
-/

import CppSamples.BitReversal
import CppSamples.Numerals
import Mathlib.RingTheory.RootsOfUnity.Complex
import Mathlib.Algebra.BigOperators.Intervals

set_option relaxedAutoImplicit false
set_option autoImplicit false

namespace RadixTwo

open Complex BitReversal Finset ComplexConjugate

/-! ### The root of unity -/

/-- The root of unity `exp (2 π i / N)`. -/
noncomputable def unitRoot (N : ℕ) : ℂ := exp (2 * Real.pi * I / N)

theorem unitRoot_pow (N k : ℕ) : unitRoot N ^ k = exp ((2 * Real.pi * k / N : ℝ) * I) := by
  rw [unitRoot, ← exp_nat_mul]
  congr 1
  push_cast
  ring

theorem unitRoot_pow_self {N : ℕ} (hN : N ≠ 0) : unitRoot N ^ N = 1 := by
  exact (isPrimitiveRoot_exp N hN).pow_eq_one

theorem unitRoot_two_mul_sq (N : ℕ) : unitRoot (2 * N) ^ 2 = unitRoot N := by
  have h : unitRoot N = unitRoot N ^ 1 := (pow_one _).symm
  rw [h, unitRoot_pow, unitRoot_pow]
  congr 2
  push_cast
  rw [mul_right_comm (2 : ℂ), mul_assoc, mul_div_mul_left _ _ two_ne_zero, mul_one, mul_comm 2]

theorem unitRoot_two_mul_pow {N : ℕ} (hN : N ≠ 0) : unitRoot (2 * N) ^ N = -1 := by
  have h : (2 * Real.pi * N / (2 * N : ℕ) : ℝ) = Real.pi := by
    push_cast
    field_simp
  rw [unitRoot_pow, h, exp_pi_mul_I]

/-- Real and imaginary part of a power of the root. -/
theorem unitRoot_pow_eq (N k : ℕ) :
    unitRoot N ^ k = Real.cos (2 * Real.pi * k / N) + Real.sin (2 * Real.pi * k / N) * I := by
  rw [unitRoot_pow, exp_mul_I, ofReal_cos, ofReal_sin]

theorem conj_unitRoot_pow_mul (N k : ℕ) : conj (unitRoot N ^ k) * unitRoot N ^ k = 1 := by
  rw [unitRoot_pow, ← exp_conj, map_mul, conj_I, conj_ofReal, ← exp_add, mul_neg,
    neg_add_cancel, exp_zero]

/-! ### The transform -/

/-- The discrete Fourier transform of the first `N` entries of `z`. -/
noncomputable def dft (N : ℕ) (z : ℕ → ℂ) (s : ℕ) : ℂ :=
  ∑ t ∈ range N, z t * unitRoot N ^ (t * s)

theorem dft_congr {N : ℕ} {z z' : ℕ → ℂ} (h : ∀ t < N, z t = z' t) (s : ℕ) :
    dft N z s = dft N z' s :=
  sum_congr rfl fun t ht => by rw [h t (mem_range.1 ht)]

/-- The transform is periodic. -/
theorem dft_add_period {N : ℕ} (hN : N ≠ 0) (z : ℕ → ℂ) (s : ℕ) : dft N z (s + N) = dft N z s := by
  refine sum_congr rfl ?_
  intro t _
  rw [mul_add, pow_add, mul_comm t N, pow_mul _ N t, unitRoot_pow_self hN, one_pow, mul_one]

/-- A sum of even length, with the even and the odd terms collected. -/
theorem sum_range_two_mul {M : Type*} [AddCommMonoid M] (N : ℕ) (f : ℕ → M) :
    ∑ t ∈ range (2 * N), f t = ∑ t ∈ range N, f (2 * t) + ∑ t ∈ range N, f (2 * t + 1) := by
  induction N with
  | zero => simp
  | succ N ih =>
      rw [show 2 * (N + 1) = 2 * N + 1 + 1 by ring, sum_range_succ, sum_range_succ, ih,
        sum_range_succ, sum_range_succ]
      abel

/-- **The radix-two step**: the transform of even length from those of its halves. -/
theorem dft_two_mul (N : ℕ) (z : ℕ → ℂ) (s : ℕ) :
    dft (2 * N) z s = dft N (fun t => z (2 * t)) s +
      unitRoot (2 * N) ^ s * dft N (fun t => z (2 * t + 1)) s := by
  have hsq : ∀ k, unitRoot (2 * N) ^ (2 * k) = unitRoot N ^ k := fun k => by
    rw [pow_mul, unitRoot_two_mul_sq]
  rw [dft, sum_range_two_mul, dft, dft, mul_sum]
  congr 1
  · refine sum_congr rfl ?_
    intro t _
    rw [mul_assoc, hsq]
  · refine sum_congr rfl ?_
    intro t _
    rw [add_mul, one_mul, mul_assoc 2 t s, pow_add, hsq]
    ring

/-- The second half of the radix-two step. -/
theorem dft_two_mul_add {N : ℕ} (hN : N ≠ 0) (z : ℕ → ℂ) (s : ℕ) :
    dft (2 * N) z (s + N) = dft N (fun t => z (2 * t)) s -
      unitRoot (2 * N) ^ s * dft N (fun t => z (2 * t + 1)) s := by
  rw [dft_two_mul, dft_add_period hN, dft_add_period hN, pow_add, unitRoot_two_mul_pow hN]
  ring

/-! ### The rounds of butterflies -/

/-- **The invariant of the rounds**: `z` holds, in block `b` of length `2 ^ r`, the transform of
the subsequence of `z₀` with step `2 ^ (q - r)` that starts at the bit reversal of `b`. -/
def BlockDft (z₀ : ℕ → ℂ) (q r : ℕ) (z : ℕ → ℂ) : Prop :=
  ∀ b t, b < 2 ^ (q - r) → t < 2 ^ r →
    z (2 ^ r * b + t) = dft (2 ^ r) (fun u => z₀ (2 ^ (q - r) * u + bitRev (q - r) b)) t

/-- The invariant holds of the bit-reversed input. -/
theorem BlockDft.start {z₀ z : ℕ → ℂ} {q : ℕ} (h : ∀ b < 2 ^ q, z b = z₀ (bitRev q b)) :
    BlockDft z₀ q 0 z := by
  intro b t hb ht
  obtain rfl : t = 0 := by simpa using ht
  simpa [dft] using h b (by simpa using hb)

/-- One round of butterflies carries the invariant to the next size. -/
theorem BlockDft.butterfly {z₀ z z' : ℕ → ℂ} {q r : ℕ} (hr : r < q) (h : BlockDft z₀ q r z)
    (hlow : ∀ b t, b < 2 ^ (q - (r + 1)) → t < 2 ^ r → z' (2 ^ (r + 1) * b + t) =
      z (2 ^ (r + 1) * b + t) + unitRoot (2 ^ (r + 1)) ^ t * z (2 ^ (r + 1) * b + t + 2 ^ r))
    (hhigh : ∀ b t, b < 2 ^ (q - (r + 1)) → t < 2 ^ r → z' (2 ^ (r + 1) * b + t + 2 ^ r) =
      z (2 ^ (r + 1) * b + t) - unitRoot (2 ^ (r + 1)) ^ t * z (2 ^ (r + 1) * b + t + 2 ^ r)) :
    BlockDft z₀ q (r + 1) z' := by
  obtain ⟨e, rfl⟩ : ∃ e, q = r + 1 + e := ⟨q - (r + 1), by omega⟩
  have he : r + 1 + e - (r + 1) = e := by omega
  have he' : r + 1 + e - r = e + 1 := by omega
  rw [he] at hlow hhigh
  rw [BlockDft, he'] at h
  rw [BlockDft, he]
  -- the two blocks of size `2 ^ r` that make up block `b` of size `2 ^ (r + 1)`
  have heven : ∀ b t, b < 2 ^ e → t < 2 ^ r → z (2 ^ (r + 1) * b + t) =
      dft (2 ^ r) (fun u => z₀ (2 ^ e * (2 * u) + bitRev e b)) t := by
    intro b t hb ht
    have hblock := h (2 * b) t (by rw [pow_succ]; omega) ht
    rw [bitRev_two_mul] at hblock
    rw [pow_succ, mul_assoc, hblock]
    exact dft_congr (fun u _ => by rw [pow_succ, mul_assoc]) t
  have hodd : ∀ b t, b < 2 ^ e → t < 2 ^ r → z (2 ^ (r + 1) * b + t + 2 ^ r) =
      dft (2 ^ r) (fun u => z₀ (2 ^ e * (2 * u + 1) + bitRev e b)) t := by
    intro b t hb ht
    have hblock := h (2 * b + 1) t (by rw [pow_succ]; omega) ht
    rw [bitRev_two_mul_add_one] at hblock
    rw [show 2 ^ (r + 1) * b + t + 2 ^ r = 2 ^ r * (2 * b + 1) + t by ring, hblock]
    exact dft_congr (fun u _ => by congr 1; ring) t
  intro b t hb ht
  have hsize : 2 ^ (r + 1) = 2 * 2 ^ r := pow_succ' 2 r
  rcases Nat.lt_or_ge t (2 ^ r) with hlt | hge
  · rw [hlow b t hb hlt, heven b t hb hlt, hodd b t hb hlt, hsize, dft_two_mul]
  · obtain ⟨s, rfl⟩ : ∃ s, t = s + 2 ^ r := ⟨t - 2 ^ r, by omega⟩
    have hs : s < 2 ^ r := by omega
    rw [← add_assoc, hhigh b s hb hs, heven b s hb hs, hodd b s hb hs, hsize,
      dft_two_mul_add (by positivity)]

/-- After the last round the sequence is the transform of the input. -/
theorem BlockDft.finish {z₀ z : ℕ → ℂ} {q : ℕ} (h : BlockDft z₀ q q z) {t : ℕ} (ht : t < 2 ^ q) :
    z t = dft (2 ^ q) z₀ t := by
  simpa using h 0 t (by simp) ht

/-! ### Real sequences -/

/-- A real sequence packed into a complex one of half the length. -/
noncomputable def packed (g : ℕ → ℝ) (t : ℕ) : ℂ := g (2 * t) + g (2 * t + 1) * I

/-- The transform of a real sequence is conjugate symmetric. -/
theorem conj_dft_ofReal {N s : ℕ} (hs : s ≤ N) (hN : N ≠ 0) (g : ℕ → ℝ) :
    conj (dft N (fun t => (g t : ℂ)) (N - s)) = dft N (fun t => (g t : ℂ)) s := by
  rw [dft, map_sum]
  refine sum_congr rfl ?_
  intro t _
  have hinv : conj (unitRoot N ^ (t * (N - s))) = unitRoot N ^ (t * s) := by
    have hone : unitRoot N ^ (t * s) * unitRoot N ^ (t * (N - s)) = 1 := by
      rw [← pow_add, ← mul_add, Nat.add_sub_cancel' hs, mul_comm, pow_mul, unitRoot_pow_self hN,
        one_pow]
    have hne : unitRoot N ^ (t * (N - s)) ≠ 0 := right_ne_zero_of_mul_eq_one hone
    exact mul_right_cancel₀ hne ((conj_unitRoot_pow_mul N _).trans hone.symm)
  rw [map_mul, conj_ofReal, hinv]

theorem dft_packed (N : ℕ) (g : ℕ → ℝ) (s : ℕ) :
    dft N (packed g) s = dft N (fun t => (g (2 * t) : ℂ)) s +
      I * dft N (fun t => (g (2 * t + 1) : ℂ)) s := by
  rw [dft, dft, dft, mul_sum, ← sum_add_distrib]
  refine sum_congr rfl ?_
  intro t _
  rw [packed]
  ring

section Unpack

variable {N s : ℕ} (hs : s ≤ N) (hN : N ≠ 0) (g : ℕ → ℝ)

include hs hN

/-- The even entries of a packed sequence. -/
theorem dft_even_eq : dft N (fun t => (g (2 * t) : ℂ)) s =
    1 / 2 * (dft N (packed g) s + conj (dft N (packed g) (N - s))) := by
  rw [dft_packed, dft_packed, map_add, map_mul, conj_dft_ofReal hs hN (fun t => g (2 * t)),
    conj_dft_ofReal hs hN (fun t => g (2 * t + 1)), conj_I]
  ring

/-- The odd entries of a packed sequence. -/
theorem dft_odd_eq : dft N (fun t => (g (2 * t + 1) : ℂ)) s =
    -I / 2 * (dft N (packed g) s - conj (dft N (packed g) (N - s))) := by
  rw [dft_packed, dft_packed, map_add, map_mul, conj_dft_ofReal hs hN (fun t => g (2 * t)),
    conj_dft_ofReal hs hN (fun t => g (2 * t + 1)), conj_I]
  linear_combination dft N (fun t => (g (2 * t + 1) : ℂ)) s * I_mul_I

/-- **Unpacking**: the transform of a real sequence of even length from that of its packing. -/
theorem dft_unpack : dft (2 * N) (fun t => (g t : ℂ)) s =
    1 / 2 * (dft N (packed g) s + conj (dft N (packed g) (N - s))) +
      unitRoot (2 * N) ^ s * (-I / 2 * (dft N (packed g) s - conj (dft N (packed g) (N - s)))) := by
  rw [dft_two_mul, dft_even_eq hs hN, dft_odd_eq hs hN]

/-- The mirrored entry of the unpacked transform. -/
theorem dft_unpack_sub : dft (2 * N) (fun t => (g t : ℂ)) (N - s) =
    conj (1 / 2 * (dft N (packed g) s + conj (dft N (packed g) (N - s))) -
      unitRoot (2 * N) ^ s * (-I / 2 * (dft N (packed g) s - conj (dft N (packed g) (N - s))))) := by
  have hmirror : 2 * N - (s + N) = N - s := by omega
  have hconj := conj_dft_ofReal (N := 2 * N) (s := s + N) (by omega) (by omega) g
  have hsub := dft_two_mul_add hN (fun t => (g t : ℂ)) s
  rw [← dft_even_eq hs hN, ← dft_odd_eq hs hN, ← hsub, ← hconj, conj_conj, hmirror]

end Unpack

end RadixTwo
