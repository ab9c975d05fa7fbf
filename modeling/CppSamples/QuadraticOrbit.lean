/-
**Orbits of a quadratic map.**

The map `z ↦ z ^ 2 + c` on the complex numbers and its orbits.  An orbit that leaves the disc of
radius two, or that of radius `‖c‖` where this is larger, grows like a geometric sequence from there
on; so it is enough to look at the disc of radius two to know whether an orbit is bounded.

Nothing here mentions a particular program.

Main definitions:

* `QuadraticOrbit.orbit` — the orbit of a point;
* `QuadraticOrbit.Bounded` — it stays in some disc.

Main results:

* `QuadraticOrbit.norm_orbit_add` — **the growth behind the disc**;
* `QuadraticOrbit.bounded_iff`, `QuadraticOrbit.bounded_zero_iff` — **an orbit is bounded exactly if
  it stays in the disc of radius two**, for `‖c‖ ≤ 2` and for the orbit of zero.
-/

import CppSamples.Numerals
import Mathlib.Analysis.Complex.Basic

set_option relaxedAutoImplicit false
set_option autoImplicit false

namespace QuadraticOrbit

/-- The map. -/
def next (c z : ℂ) : ℂ := z ^ 2 + c

/-- The orbit of `z`. -/
def orbit (c z : ℂ) (n : ℕ) : ℂ := (next c)^[n] z

/-- The orbit stays in some disc. -/
def Bounded (c z : ℂ) : Prop := ∃ R : ℝ, ∀ n, ‖orbit c z n‖ ≤ R

variable {c z : ℂ}

@[simp] theorem orbit_zero (c z : ℂ) : orbit c z 0 = z := rfl

theorem orbit_succ (c z : ℂ) (n : ℕ) : orbit c z (n + 1) = next c (orbit c z n) :=
  Function.iterate_succ_apply' _ _ _

theorem orbit_next (c z : ℂ) (n : ℕ) : orbit c (next c z) n = orbit c z (n + 1) := rfl

/-- The map stretches the points that are not nearer than `c`. -/
theorem mul_norm_le_norm_next (h : ‖c‖ ≤ ‖z‖) : (‖z‖ - 1) * ‖z‖ ≤ ‖next c z‖ := by
  have hsub : ‖z ^ 2‖ - ‖c‖ ≤ ‖next c z‖ := norm_sub_le_norm_add (z ^ 2) c
  rw [norm_pow] at hsub
  linarith

/-- **The growth behind the disc.** -/
theorem norm_orbit_add {m : ℕ} (htwo : 2 < ‖orbit c z m‖) (hc : ‖c‖ ≤ ‖orbit c z m‖) (k : ℕ) :
    (‖orbit c z m‖ - 1) ^ k * ‖orbit c z m‖ ≤ ‖orbit c z (m + k)‖ := by
  set r := ‖orbit c z m‖ with hr
  induction k with
  | zero => simp [hr]
  | succ k ih =>
      have hpow : 1 ≤ (r - 1) ^ k := one_le_pow₀ (by linarith)
      have hle : r ≤ ‖orbit c z (m + k)‖ := by nlinarith
      calc (r - 1) ^ (k + 1) * r = (r - 1) * ((r - 1) ^ k * r) := by ring
        _ ≤ (‖orbit c z (m + k)‖ - 1) * ‖orbit c z (m + k)‖ :=
          mul_le_mul (by linarith) ih (by positivity) (by linarith)
        _ ≤ ‖orbit c z (m + (k + 1))‖ := by
          rw [← add_assoc, orbit_succ]
          exact mul_norm_le_norm_next (hc.trans hle)

/-- An orbit that leaves the disc is not bounded. -/
theorem not_bounded {m : ℕ} (htwo : 2 < ‖orbit c z m‖) (hc : ‖c‖ ≤ ‖orbit c z m‖) :
    ¬Bounded c z := by
  rintro ⟨R, hR⟩
  obtain ⟨k, hk⟩ := pow_unbounded_of_one_lt R (by linarith : 1 < ‖orbit c z m‖ - 1)
  have hgrow := norm_orbit_add htwo hc k
  have hpos : 0 < (‖orbit c z m‖ - 1) ^ k := pow_pos (by linarith) k
  have hle := hR (m + k)
  nlinarith

/-- **The disc of radius two**, for a `c` in it. -/
theorem bounded_iff (hc : ‖c‖ ≤ 2) : Bounded c z ↔ ∀ n, ‖orbit c z n‖ ≤ 2 := by
  refine ⟨fun h n => ?_, fun h => ⟨2, h⟩⟩
  by_contra hn
  exact not_bounded (not_le.1 hn) (hc.trans (not_le.1 hn).le) h

/-- **The disc of radius two**, for the orbit of zero. -/
theorem bounded_zero_iff : Bounded c 0 ↔ ∀ n, ‖orbit c 0 n‖ ≤ 2 := by
  rcases le_or_gt ‖c‖ 2 with hc | hc
  · exact bounded_iff hc
  · -- the second point of the orbit is `c`
    have hone : orbit c 0 1 = c := by simp [orbit_succ, next]
    refine ⟨fun h => absurd h ?_, fun h => ⟨2, h⟩⟩
    exact not_bounded (by rwa [hone] : 2 < ‖orbit c 0 1‖) (by rw [hone])

end QuadraticOrbit
