/-
**The complete elliptic integrals of `body_ax`.**

`elliptic_integral` computes the integrals of the first and of the second kind by descending
Landen transformations.  Each pass replaces the modulus `b` by a smaller one and multiplies `f` by
one plus the new modulus, and the loop goes on until the last addition to `f` is small.

In exact real arithmetic a pass at least squares the modulus.  The factors that `f` collects stay
bounded, since the quotient of `f` by the complement `1 - b` does not grow, and so the additions go
to zero.

Main definitions:

* `BodyAx.Iteration`, `BodyAx.Iteration.pass` — the variables of the loop and its body;
* `BodyAx.ellipticIntegral` — the routine, with a bound on the number of passes;
* `BodyAx.Bounded` — the loop invariant;
* `BodyAx.rks` — the modulus that the Green's function asks for.

Main results:

* `BodyAx.Iteration.b_pass_le` — a pass at least squares the modulus;
* `BodyAx.Bounded.pass` — the invariant is kept;
* `BodyAx.Bounded.exists_test_eq_false` — some pass fails the test;
* `BodyAx.ellipticIntegral_ends` — **the routine ends for every modulus below one**;
* `BodyAx.rks_nonneg`, `BodyAx.rks_lt_one` — the moduli of the Green's function;
* `BodyAx.lgfAxFs_ends` — the Green's function is computed.
-/

import CppSamples.BodyAxSdlp
import CppSamples.DoWhile

set_option relaxedAutoImplicit false
set_option autoImplicit false

namespace BodyAx

open DoWhile Lib PotentialLib

/-- What the exit test uses. -/
class IterationLib (T : Type*) where
  /-- `x > y` -/
  gt : T → T → Bool
  /-- `T(1.0e-6)` -/
  accuracy : T

open Classical in
noncomputable instance : IterationLib ℝ where
  gt x y := decide (x > y)
  accuracy := 1e-6

open IterationLib

section Code

variable {T : Type*} [Zero T] [One T] [Add T] [Sub T] [Mul T] [Div T] [Neg T] [Lib T]
  [PotentialLib T] [IterationLib T]

/-- The variables of the loop. -/
structure Iteration (T : Type*) where
  b : T
  c : T
  d : T
  f : T
  g : T
  e : T

/-- The variables before the loop.  `c` and `d` have no value yet. -/
def Iteration.start (rk2 c d : T) : Iteration T :=
  { b := sqrt rk2, c := c, d := d, f := half * pi, g := 1, e := 1 }

/-- The body of the loop. -/
def Iteration.pass (s : Iteration T) : Iteration T :=
  let c := sqrt (1 - s.b * s.b)
  let b := (1 - c) / (1 + c)
  let d := s.f * b
  let g := half * s.g * b
  { b := b, c := c, d := d, f := s.f + d, g := g, e := s.e + g }

/-- The test of the loop. -/
def Iteration.test (s : Iteration T) : Bool := gt (abs s.d) accuracy

/-- **The integrals of the first and of the second kind.** -/
def ellipticIntegral (c d : T) (fuel : ℕ) (rk2 : T) : Option (T × T) := do
  let s ← doWhile Iteration.pass Iteration.test fuel (Iteration.start rk2 c d)
  return (s.f, s.f * (1 - half * rk2 * s.e))

end Code

/-! ### One pass -/

namespace Iteration

variable {s : Iteration ℝ}

theorem radicand_pos (h0 : 0 ≤ s.b) (h1 : s.b < 1) : 0 < 1 - s.b * s.b := by
  have hsq : s.b * s.b < 1 := mul_lt_one_of_nonneg_of_lt_one_left h0 h1 h1.le
  linarith

theorem c_pass_pos (h0 : 0 ≤ s.b) (h1 : s.b < 1) : 0 < s.pass.c :=
  Real.sqrt_pos.mpr (radicand_pos h0 h1)

theorem c_pass_sq (h0 : 0 ≤ s.b) (h1 : s.b < 1) : s.pass.c * s.pass.c = 1 - s.b * s.b :=
  Real.mul_self_sqrt (radicand_pos h0 h1).le

theorem c_pass_le_one (h0 : 0 ≤ s.b) (h1 : s.b < 1) : s.pass.c ≤ 1 := by
  have hc := c_pass_pos h0 h1
  have hsq := c_pass_sq h0 h1
  nlinarith [mul_self_nonneg s.b]

/-- The complementary modulus is at least the complement of the modulus. -/
theorem one_sub_b_le_c_pass (h0 : 0 ≤ s.b) (h1 : s.b < 1) : 1 - s.b ≤ s.pass.c := by
  have hc := c_pass_pos h0 h1
  have hsq := c_pass_sq h0 h1
  -- `(1 - b)² ≤ (1 - b)(1 + b)`
  refine (mul_self_le_mul_self_iff (by linarith) hc.le).mpr ?_
  rw [hsq]
  nlinarith [mul_nonneg h0 (sub_nonneg.mpr h1.le)]

theorem b_pass_eq : s.pass.b = (1 - s.pass.c) / (1 + s.pass.c) := rfl

theorem b_pass_nonneg (h0 : 0 ≤ s.b) (h1 : s.b < 1) : 0 ≤ s.pass.b := by
  have hc := c_pass_pos h0 h1
  have hc1 := c_pass_le_one h0 h1
  rw [b_pass_eq]
  exact div_nonneg (by linarith) (by linarith)

/-- **A pass at least squares the modulus.** -/
theorem b_pass_le (h0 : 0 ≤ s.b) (h1 : s.b < 1) : s.pass.b ≤ s.b * s.b := by
  have hc := c_pass_pos h0 h1
  have hsq := c_pass_sq h0 h1
  rw [b_pass_eq, div_le_iff₀ (by linarith)]
  -- `1 - c ≤ (1 - c)(1 + c) = b²`
  calc 1 - s.pass.c ≤ (1 - s.pass.c) * (1 + s.pass.c) := by
        nlinarith [mul_nonneg hc.le (sub_nonneg.mpr (c_pass_le_one h0 h1))]
    _ = s.b * s.b := by linarith
    _ ≤ s.b * s.b * (1 + s.pass.c) := le_mul_of_one_le_right (mul_self_nonneg _) (by linarith)

theorem b_pass_lt (h0 : 0 < s.b) (h1 : s.b < 1) : s.pass.b < s.b :=
  (b_pass_le h0.le h1).trans_lt (mul_lt_of_lt_one_right h0 h1)

theorem b_pass_eq_zero (h0 : s.b = 0) : s.pass.b = 0 := by
  have h1 : s.b < 1 := h0 ▸ one_pos
  refine le_antisymm ?_ (b_pass_nonneg h0.ge h1)
  simpa [h0] using b_pass_le h0.ge h1

/-- What `f` gains is paid by the complement of the modulus. -/
theorem one_add_b_pass_mul_le (h0 : 0 ≤ s.b) (h1 : s.b < 1) :
    (1 + s.pass.b) * (1 - s.b) ≤ 1 - s.pass.b := by
  have hc := c_pass_pos h0 h1
  have hadd : 1 + s.pass.b = 2 / (1 + s.pass.c) := by
    rw [b_pass_eq]
    field_simp
    ring
  have hsub : 1 - s.pass.b = 2 / (1 + s.pass.c) * s.pass.c := by
    rw [b_pass_eq]
    field_simp
    ring
  rw [hadd, hsub]
  exact mul_le_mul_of_nonneg_left (one_sub_b_le_c_pass h0 h1) (by positivity)

theorem f_pass_eq : s.pass.f = s.f * (1 + s.pass.b) := by
  rw [mul_add, mul_one]
  rfl

end Iteration

/-! ### All passes -/

/-- **The loop invariant**: the modulus is at most `r`, and `f` is at most `K` times its
complement. -/
structure Bounded (K r : ℝ) (s : Iteration ℝ) : Prop where
  b_nonneg : 0 ≤ s.b
  b_le : s.b ≤ r
  f_nonneg : 0 ≤ s.f
  f_le : s.f ≤ K * (1 - s.b)

namespace Bounded

variable {K r : ℝ} {s : Iteration ℝ}

theorem b_lt_one (hr : r < 1) (h : Bounded K r s) : s.b < 1 := h.b_le.trans_lt hr

/-- The modulus shrinks by the factor `r`. -/
theorem pass_shrinks (hr : r < 1) (h : Bounded K r s) : s.pass.b ≤ s.b * r :=
  (Iteration.b_pass_le h.b_nonneg (h.b_lt_one hr)).trans
    (mul_le_mul_of_nonneg_left h.b_le h.b_nonneg)

/-- **The invariant is kept.** -/
theorem pass (hK : 0 ≤ K) (hr : r < 1) (h : Bounded K r s) : Bounded K r s.pass := by
  have h1 := h.b_lt_one hr
  have hb := Iteration.b_pass_nonneg h.b_nonneg h1
  refine ⟨hb, ?_, ?_, ?_⟩
  · have hle := h.pass_shrinks hr
    have hmul : s.b * r ≤ s.b := mul_le_of_le_one_right h.b_nonneg hr.le
    linarith [h.b_le]
  · rw [Iteration.f_pass_eq]
    exact mul_nonneg h.f_nonneg (by linarith)
  · rw [Iteration.f_pass_eq]
    calc s.f * (1 + s.pass.b) ≤ K * (1 - s.b) * (1 + s.pass.b) :=
          mul_le_mul_of_nonneg_right h.f_le (by linarith)
      _ = K * ((1 + s.pass.b) * (1 - s.b)) := by ring
      _ ≤ K * (1 - s.pass.b) :=
          mul_le_mul_of_nonneg_left (Iteration.one_add_b_pass_mul_le h.b_nonneg h1) hK

theorem iterate (hK : 0 ≤ K) (hr : r < 1) (h : Bounded K r s) (n : ℕ) :
    Bounded K r (Iteration.pass^[n] s) := by
  induction n with
  | zero => exact h
  | succ n ih =>
    rw [Function.iterate_succ_apply']
    exact ih.pass hK hr

/-- The moduli are bounded by a geometric sequence. -/
theorem b_iterate_le (hK : 0 ≤ K) (h0 : 0 ≤ r) (hr : r < 1) (h : Bounded K r s) (n : ℕ) :
    (Iteration.pass^[n] s).b ≤ r ^ n := by
  induction n with
  | zero => exact h.b_le.trans (by simpa using hr.le)
  | succ n ih =>
    rw [Function.iterate_succ_apply', pow_succ]
    exact ((h.iterate hK hr n).pass_shrinks hr).trans (mul_le_mul_of_nonneg_right ih h0)

theorem f_le_bound (hK : 0 ≤ K) (h : Bounded K r s) : s.f ≤ K :=
  h.f_le.trans (mul_le_of_le_one_right hK (by linarith [h.b_nonneg]))

/-- The addition to `f` is bounded by the next modulus. -/
theorem abs_d_pass_le (hK : 0 ≤ K) (hr : r < 1) (h : Bounded K r s) :
    |s.pass.d| ≤ K * s.pass.b := by
  have hb := Iteration.b_pass_nonneg h.b_nonneg (h.b_lt_one hr)
  have hd : s.pass.d = s.f * s.pass.b := rfl
  rw [hd, abs_of_nonneg (mul_nonneg h.f_nonneg hb)]
  exact mul_le_mul_of_nonneg_right (h.f_le_bound hK) hb

/-- **Some pass fails the test.** -/
theorem exists_test_eq_false (hK : 0 ≤ K) (h0 : 0 ≤ r) (hr : r < 1) (h : Bounded K r s) :
    ∃ n, (Iteration.pass^[n + 1] s).test = false := by
  -- `K * r ^ n` falls below the accuracy
  have hacc : (0 : ℝ) < 1e-6 / (K + 1) := by positivity
  obtain ⟨n, hn⟩ := exists_pow_lt_of_lt_one hacc hr
  refine ⟨n, ?_⟩
  rw [Function.iterate_succ_apply']
  have hd := (h.iterate hK hr n).abs_d_pass_le hK hr
  have hb : (Iteration.pass^[n] s).pass.b ≤ r ^ n := by
    have hnext := h.b_iterate_le hK h0 hr (n + 1)
    rw [Function.iterate_succ_apply'] at hnext
    exact hnext.trans (pow_le_pow_of_le_one h0 hr.le (Nat.le_succ n))
  have hsmall : |(Iteration.pass^[n] s).pass.d| ≤ 1e-6 :=
    calc |(Iteration.pass^[n] s).pass.d| ≤ K * (Iteration.pass^[n] s).pass.b := hd
      _ ≤ (K + 1) * r ^ n := by
          refine mul_le_mul (by linarith) hb ?_ (by linarith)
          exact Iteration.b_pass_nonneg (h.iterate hK hr n).b_nonneg
            ((h.iterate hK hr n).b_lt_one hr)
      _ ≤ (K + 1) * (1e-6 / (K + 1)) := mul_le_mul_of_nonneg_left hn.le (by linarith)
      _ = 1e-6 := mul_div_cancel₀ _ (by linarith)
  exact decide_eq_false (not_lt.mpr hsmall)

end Bounded

/-! ### The routine -/

theorem sqrt_lt_one {rk2 : ℝ} (h1 : rk2 < 1) : √rk2 < 1 := by
  rw [Real.sqrt_lt' one_pos]
  simpa using h1

theorem bound_nonneg {rk2 : ℝ} (h1 : rk2 < 1) : 0 ≤ Real.pi / 2 / (1 - √rk2) :=
  div_nonneg (by positivity) (sub_nonneg.mpr (sqrt_lt_one h1).le)

/-- The invariant holds before the loop. -/
theorem bounded_start {rk2 : ℝ} (h1 : rk2 < 1) (c d : ℝ) :
    Bounded (Real.pi / 2 / (1 - √rk2)) √rk2 (Iteration.start rk2 c d) := by
  have hr := sqrt_lt_one h1
  have hf : (Iteration.start rk2 c d).f = Real.pi / 2 := by
    have hf : (Iteration.start rk2 c d).f = 1 / 2 * Real.pi := rfl
    rw [hf]
    ring
  refine ⟨Real.sqrt_nonneg _, le_rfl, ?_, ?_⟩
  · rw [hf]
    positivity
  · have hb : (Iteration.start rk2 c d).b = √rk2 := rfl
    rw [hf, hb, div_mul_cancel₀ _ (by linarith)]

/-- A large enough bound gives the result. -/
theorem exists_ellipticIntegral {rk2 : ℝ} (h1 : rk2 < 1) (c d : ℝ) :
    ∃ n fe, ∀ fuel > n, ellipticIntegral c d fuel rk2 = some fe := by
  have hr := sqrt_lt_one h1
  have hpass := (bounded_start h1 c d).exists_test_eq_false (bound_nonneg h1)
    (Real.sqrt_nonneg _) hr
  obtain ⟨n, s, hs⟩ := exists_doWhile hpass
  refine ⟨n, (s.f, s.f * (1 - half * rk2 * s.e)), fun fuel hfuel => ?_⟩
  rw [ellipticIntegral, hs fuel hfuel]
  rfl

/-- **The routine ends for every modulus below one.**  All square roots are those of non-negative
numbers, all denominators are positive, and the moduli stay below one and decrease until they are
zero. -/
theorem ellipticIntegral_ends {rk2 : ℝ} (h0 : 0 ≤ rk2) (h1 : rk2 < 1) (c d : ℝ) :
    (∃ n fe, ∀ fuel > n, ellipticIntegral c d fuel rk2 = some fe) ∧
      0 ≤ rk2 ∧
      ∀ n, let s := Iteration.pass^[n] (Iteration.start rk2 c d)
        0 ≤ 1 - s.b * s.b ∧ 0 < 1 + s.pass.c ∧ 0 ≤ s.b ∧ s.b < 1 ∧
          (0 < s.b → s.pass.b < s.b) ∧ (s.b = 0 → s.pass.b = 0) := by
  refine ⟨exists_ellipticIntegral h1 c d, h0, fun n => ?_⟩
  have hs := (bounded_start h1 c d).iterate (bound_nonneg h1) (sqrt_lt_one h1) n
  have hlt := hs.b_lt_one (sqrt_lt_one h1)
  refine ⟨(Iteration.radicand_pos hs.b_nonneg hlt).le, ?_, hs.b_nonneg, hlt, ?_, ?_⟩
  · linarith [Iteration.c_pass_pos hs.b_nonneg hlt]
  · exact fun hpos => Iteration.b_pass_lt hpos hlt
  · exact Iteration.b_pass_eq_zero

theorem ellipticIntegral_ends_half :
    (∃ n fe, ∀ fuel > n, ellipticIntegral (0 : ℝ) 0 fuel (1 / 2) = some fe) ∧
      (0 : ℝ) ≤ 1 / 2 ∧
      ∀ n, let s := Iteration.pass^[n] (Iteration.start (1 / 2 : ℝ) 0 0)
        0 ≤ 1 - s.b * s.b ∧ 0 < 1 + s.pass.c ∧ 0 ≤ s.b ∧ s.b < 1 ∧
          (0 < s.b → s.pass.b < s.b) ∧ (s.b = 0 → s.pass.b = 0) :=
  ellipticIntegral_ends (by norm_num) (by norm_num) 0 0

/-! ### The moduli of the Green's function -/

/-- `rks` of `lgf_ax_fs`. -/
noncomputable def rks (x s x0 s0 : ℝ) : ℝ :=
  four * s * s0 / ((x - x0) * (x - x0) + (s + s0) * (s + s0))

section Modulus

variable {x s x0 s0 : ℝ}

theorem four_pos : (0 : ℝ) < four := by
  have hfour : (four : ℝ) = 4 := rfl
  rw [hfour]
  norm_num

theorem rks_nonneg (hs : 0 ≤ s) (hs0 : 0 ≤ s0) : 0 ≤ rks x s x0 s0 := by
  have hden := add_nonneg (mul_self_nonneg (x - x0)) (mul_self_nonneg (s + s0))
  exact div_nonneg (mul_nonneg (mul_nonneg four_pos.le hs) hs0) hden

/-- **Away from the point itself the modulus is below one.** -/
theorem rks_lt_one (hs : 0 ≤ s) (hs0 : 0 ≤ s0) (hne : x ≠ x0 ∨ s ≠ s0) : rks x s x0 s0 < 1 := by
  have hfour : (four : ℝ) = 4 := rfl
  -- the denominator exceeds the numerator by the square of the distance
  have hdist : 0 < (x - x0) * (x - x0) + (s - s0) * (s - s0) := by
    cases hne with
    | inl hx =>
      exact add_pos_of_pos_of_nonneg (mul_self_pos.mpr (sub_ne_zero.mpr hx)) (mul_self_nonneg _)
    | inr hs =>
      exact add_pos_of_nonneg_of_pos (mul_self_nonneg _) (mul_self_pos.mpr (sub_ne_zero.mpr hs))
  have hprod := mul_nonneg hs hs0
  unfold rks
  rw [hfour, div_lt_one (by nlinarith)]
  nlinarith

/-- **The Green's function is computed at every other point of the half plane.**  It takes its
integrals from a call with a modulus from `0` to `1` that ends. -/
theorem lgfAxFs_ends (hs : 0 ≤ s) (hs0 : 0 ≤ s0) (hne : x ≠ x0 ∨ s ≠ s0) (c d : ℝ) (iopt : ℤ)
    (out : Green ℝ) :
    0 ≤ rks x s x0 s0 ∧
      ∃ n fe, (∀ fuel > n, ellipticIntegral c d fuel (rks x s x0 s0) = some fe) ∧
        ∀ integral : ℝ → ℝ × ℝ, integral (rks x s x0 s0) = fe →
          lgfAxFs integral iopt x s x0 s0 out = lgfAxFs (fun _ => fe) iopt x s x0 s0 out := by
  obtain ⟨n, fe, hfe⟩ := exists_ellipticIntegral (rks_lt_one hs hs0 hne) c d
  refine ⟨rks_nonneg hs hs0, n, fe, hfe, fun integral hintegral => ?_⟩
  have hcall : integral (four * s * s0 / ((x - x0) * (x - x0) + (s + s0) * (s + s0))) = fe :=
    hintegral
  simp only [lgfAxFs, hcall]

end Modulus

end BodyAx
