/-
**The potentials of `body_ax` over an element.**

`body_ax_sdlp` integrates the axisymmetric Green's function and its normal derivative over a
straight segment or a circular arc by Gauss quadrature.  Where the collocation point is on the
element the Green's function has a logarithmic singularity.  The routine takes it off inside the
quadrature, by a term that is added to the Green's function and so is weighted by `y` as it is, and
puts it back at the end in closed form.

The arithmetic is any one with the library functions that the code calls, and the elliptic integrals
are those of any routine.  In exact real arithmetic the Gauss sum can be replaced by a functional
that is exact on the singular part, and then it can be seen what the treatment does.

Main definitions:

* `BodyAx.lgfAxFs` — the Green's function and its gradient;
* `BodyAx.bodyAxSdlp` — the two potentials by Gauss quadrature;
* `BodyAx.sdlpWith` — the same with any functional in the place of the Gauss sum;
* `BodyAx.ExactFunctional` — the functionals of exact integration.

Main results:

* `BodyAx.bodyAxSdlp_eq` — the code is `BodyAx.sdlpWith` with the Gauss sum;
* `BodyAx.sdlpWith_singular` — what the treatment of the singularity adds;
* `BodyAx.singularity_neutral_iff` — **the elements on which it adds nothing**;
* `BodyAx.singularity_not_neutral` — an element on which it adds something;
* `BodyAx.integral_singularTerm` — the integral of the singular term.
-/

import CppSamples.ElmLine
import Mathlib.Analysis.SpecialFunctions.Integrals.Basic

set_option relaxedAutoImplicit false
set_option autoImplicit false

namespace BodyAx

open CountedLoop

/-- The further functions and constants that the code uses. -/
class PotentialLib (T : Type*) where
  /-- `std::log` -/
  log : T → T
  /-- `std::cos` -/
  cos : T → T
  /-- `std::sin` -/
  sin : T → T
  /-- `std::abs` -/
  abs : T → T
  /-- `std::copysign` -/
  copysign : T → T → T
  /-- `FOUR<T>` -/
  four : T
  /-- `PI<T>` -/
  pi : T

-- under a name, so that the numeral needs no auxiliary lemma
local instance atLeastTwo_four : Nat.AtLeastTwo 4 := ⟨Nat.le_add_left 2 2⟩

open Classical in
noncomputable instance : PotentialLib ℝ where
  log := Real.log
  cos := Real.cos
  sin := Real.sin
  abs x := |x|
  copysign x y := if y < 0 then -|x| else |x|
  four := 4
  pi := Real.pi

open Lib PotentialLib

section Code

variable {T : Type*} [Zero T] [One T] [Add T] [Sub T] [Mul T] [Div T] [Neg T] [Lib T]
  [PotentialLib T]

/-- `TWO_PI<T>` -/
def twoPi : T := pi * two

/-- `FOUR_PI<T>` -/
def fourPi : T := pi * four

/-! ### The Green's function -/

/-- The Green's function and its gradient. -/
structure Green (T : Type*) where
  g : T
  gx : T
  gs : T

/-- **The free-space axisymmetric Green's function of Laplace's equation.**  For `iopt` equal to `1`
the gradient is left as it was in `out`. -/
def lgfAxFs (ellipticIntegral : T → T × T) (iopt : ℤ) (x s x0 s0 : T) (out : Green T) : Green T :=
  let dx := x - x0
  let dxs := dx * dx
  let ss0s := (s + s0) * (s + s0)
  let rks := four * s * s0 / (dxs + ss0s)
  let (f, e) := ellipticIntegral rks
  let rj10 := f
  let den := sqrt (dxs + ss0s)
  let ri10 := four * rj10 / den
  let g := ri10 / fourPi
  if iopt = 1 then { out with g := g }
  else
    let rksc := 1 - rks
    let rj30 := e / rksc
    let rj31 := (-two * f + (two - rks) * e / rksc) / rks
    let cf := four / (den * den * den)
    let ri30 := cf * rj30
    let ri31 := cf * rj31
    let gx := -dx * ri30
    let gs := -s * ri30 + s0 * ri31
    ⟨g, gx / fourPi, gs / fourPi⟩

/-! ### Elements -/

/-- The kind of a segment. -/
inductive SegmentType
  /-- `itype == 1` -/
  | straight
  /-- `itype == 2` -/
  | arc
  deriving DecidableEq

/-- The end points of an element, their angles, and the circle of an arc. -/
structure Element (T : Type*) where
  x1 : T
  y1 : T
  t1 : T
  x2 : T
  y2 : T
  t2 : T
  rad : T
  xcnt : T
  ycnt : T

/-- The collocation point. -/
structure Collocation (T : Type*) where
  x0 : T
  y0 : T
  t0 : T

namespace Element

variable (e : Element T)

def xm : T := half * (e.x2 + e.x1)

def xd : T := half * (e.x2 - e.x1)

def ym : T := half * (e.y2 + e.y1)

def yd : T := half * (e.y2 - e.y1)

def tm : T := half * (e.t2 + e.t1)

def td : T := half * (e.t2 - e.t1)

/-- Half the length of the element. -/
def dr : SegmentType → T
  | .straight => sqrt (e.xd * e.xd + e.yd * e.yd)
  | .arc => e.rad * abs e.td

/-- The collocation point in the middle of a straight element. -/
def midpoint (t0 : T) : Collocation T := ⟨e.xm, e.ym, t0⟩

end Element

/-- A point of the quadrature, the unit normal vector there and the square of its distance from the
collocation point, along an arc. -/
structure QuadPoint (T : Type*) where
  x : T
  y : T
  vnx : T
  vny : T
  dists : T

/-- The point of the element for a knot `z`. -/
def quadPoint (c : Collocation T) (e : Element T) : SegmentType → T → QuadPoint T
  | .straight, z =>
    let x := e.xm + e.xd * z
    let y := e.ym + e.yd * z
    let d1 := x - c.x0
    let d2 := y - c.y0
    ⟨x, y, e.yd / e.dr .straight, -e.xd / e.dr .straight, d1 * d1 + d2 * d2⟩
  | .arc, z =>
    let ornt := copysign 1 e.td
    let t := e.tm + e.td * z
    let cs := cos t
    let sn := sin t
    let d1 := e.rad * (c.t0 - t)
    ⟨e.xcnt + e.rad * cs, e.ycnt + e.rad * sn, cs * ornt, sn * ornt, d1 * d1⟩

/-! ### The potentials -/

section Potentials

variable (ellipticIntegral : T → T × T) (ising : Bool) (itype : SegmentType) (c : Collocation T)
  (e : Element T)

/-- What is summed at the knot `z`, without its weight, for the single-layer and for the
double-layer potential. -/
def integrands (z : T) : T × T :=
  let p := quadPoint c e itype z
  let out := lgfAxFs ellipticIntegral 2 p.x p.y c.x0 c.y0 ⟨0, 0, 0⟩
  let g := if ising then out.g + log p.dists / fourPi else out.g
  (g * p.y, (out.gx * p.vnx + out.gs * p.vny) * p.y)

/-- The singularity, added back to the single-layer potential. -/
def addBack (itype : SegmentType) (e : Element T) (qqq : T) : T :=
  qqq - e.dr itype * two * (log (e.dr itype) - 1) / twoPi

/-- The order, the knots and the weights of a Gauss quadrature. -/
structure GaussLegendre (T : Type*) where
  order : ℕ
  z : ℕ → T
  w : ℕ → T

/-- **The single-layer and the double-layer potential** over an element. -/
def bodyAxSdlp (gl : GaussLegendre T) : T × T :=
  let (qqq, www) := forBelow 0 gl.order ((0, 0) : T × T) fun i s =>
    let f := integrands ellipticIntegral ising itype c e (gl.z i)
    (s.1 + f.1 * gl.w i, s.2 + f.2 * gl.w i)
  let qqq := qqq * e.dr itype
  let www := www * e.dr itype
  (if ising then addBack itype e qqq else qqq, www)

/-- The potentials with a functional `I` in the place of the Gauss sum. -/
def sdlpWith (I : (T → T) → T) : T × T :=
  let qqq := I fun z => (integrands ellipticIntegral ising itype c e z).1
  let www := I fun z => (integrands ellipticIntegral ising itype c e z).2
  let qqq := qqq * e.dr itype
  let www := www * e.dr itype
  (if ising then addBack itype e qqq else qqq, www)

/-- The term that is added to the Green's function, with the weight that it gets. -/
def singularTerm (z : T) : T :=
  let p := quadPoint c e itype z
  log p.dists / fourPi * p.y

end Potentials

end Code

/-! ### Exact arithmetic -/

section Exact

variable (ellipticIntegral : ℝ → ℝ × ℝ) (ising : Bool) (itype : SegmentType) (c : Collocation ℝ)
  (e : Element ℝ)

/-- The Gauss sum of a function. -/
def GaussLegendre.sum (gl : GaussLegendre ℝ) (f : ℝ → ℝ) : ℝ :=
  ∑ i ∈ Finset.range gl.order, f (gl.z i) * gl.w i

/-- **The code sums with the Gauss rule.** -/
theorem bodyAxSdlp_eq (gl : GaussLegendre ℝ) : bodyAxSdlp ellipticIntegral ising itype c e gl =
    sdlpWith ellipticIntegral ising itype c e gl.sum := by
  have hloop : (forBelow 0 gl.order ((0, 0) : ℝ × ℝ) fun i s =>
      let f := integrands ellipticIntegral ising itype c e (gl.z i)
      (s.1 + f.1 * gl.w i, s.2 + f.2 * gl.w i)) =
        (gl.sum fun z => (integrands ellipticIntegral ising itype c e z).1,
          gl.sum fun z => (integrands ellipticIntegral ising itype c e z).2) := by
    refine (forBelow_add 0 gl.order ((0, 0) : ℝ × ℝ) fun i =>
      ((integrands ellipticIntegral ising itype c e (gl.z i)).1 * gl.w i,
        (integrands ellipticIntegral ising itype c e (gl.z i)).2 * gl.w i)).trans ?_
    rw [Nat.Ico_zero_eq_range, Prod.ext_iff, Prod.fst_add, Prod.snd_add, Prod.fst_sum,
      Prod.snd_sum, zero_add, zero_add]
    exact ⟨rfl, rfl⟩
  rw [bodyAxSdlp, hloop]
  rfl

/-- The points of the interval other than the one where the logarithm is not defined. -/
abbrev Knot : Type := {z : ℝ // z ∈ Set.Icc (-1) 1 ∧ z ≠ 0}

/-- **A functional of exact integration**, on the singular part of an element. -/
structure ExactFunctional where
  I : (Knot → ℝ) →ₗ[ℝ] ℝ
  one : I (fun _ => 1) = 2
  id : I (fun z => z) = 0
  log : I (fun z => Real.log |z|) = -2
  idLog : I (fun z => z * Real.log |z|) = 0

/-- The functional in the place of the Gauss sum. -/
def ExactFunctional.rule (E : ExactFunctional) (f : ℝ → ℝ) : ℝ := E.I fun z => f z

/-- **What the treatment of the singularity adds** to the single-layer potential. -/
theorem sdlpWith_singular (E : ExactFunctional) :
    (sdlpWith ellipticIntegral true itype c e E.rule).1 =
      (sdlpWith ellipticIntegral false itype c e E.rule).1 +
        addBack itype e (E.rule (singularTerm itype c e) * e.dr itype) := by
  have hsplit : E.rule (fun z => (integrands ellipticIntegral true itype c e z).1) =
      E.rule (fun z => (integrands ellipticIntegral false itype c e z).1) +
        E.rule (singularTerm itype c e) := by
    rw [ExactFunctional.rule, ExactFunctional.rule, ExactFunctional.rule, ← map_add]
    congr 1
    funext z
    exact add_mul _ _ _
  simp only [sdlpWith, addBack, if_true, Bool.false_eq_true, if_false, hsplit]
  ring

end Exact

/-! ### Straight elements -/

section Straight

variable {e : Element ℝ}

theorem dr_straight (e : Element ℝ) : e.dr .straight = √(e.xd * e.xd + e.yd * e.yd) := rfl

/-- The length of an element. -/
theorem two_mul_dr (e : Element ℝ) :
    2 * e.dr .straight = √((e.x2 - e.x1) ^ 2 + (e.y2 - e.y1) ^ 2) := by
  have hsquare : (e.x2 - e.x1) ^ 2 + (e.y2 - e.y1) ^ 2 = 2 ^ 2 * (e.xd * e.xd + e.yd * e.yd) := by
    change _ = 2 ^ 2 * (1 / 2 * (e.x2 - e.x1) * (1 / 2 * (e.x2 - e.x1)) +
      1 / 2 * (e.y2 - e.y1) * (1 / 2 * (e.y2 - e.y1)))
    ring
  rw [hsquare, Real.sqrt_mul (by norm_num), Real.sqrt_sq (by norm_num), dr_straight]

theorem dr_pos (h : e.x1 ≠ e.x2 ∨ e.y1 ≠ e.y2) : 0 < e.dr .straight := by
  have hpos : 0 < (e.x2 - e.x1) ^ 2 + (e.y2 - e.y1) ^ 2 := by
    rcases h with h | h
    · have := sq_pos_of_ne_zero (sub_ne_zero.2 h.symm)
      positivity
    · have := sq_pos_of_ne_zero (sub_ne_zero.2 h.symm)
      positivity
  have hsqrt := Real.sqrt_pos.2 hpos
  rw [← two_mul_dr] at hsqrt
  linarith

/-- The distance from the middle of the element. -/
theorem dists_midpoint (e : Element ℝ) (t0 z : ℝ) :
    (quadPoint (e.midpoint t0) e .straight z).dists = (e.dr .straight * |z|) ^ 2 := by
  have hnonneg : 0 ≤ e.xd * e.xd + e.yd * e.yd :=
    add_nonneg (mul_self_nonneg _) (mul_self_nonneg _)
  rw [mul_pow, sq_abs, dr_straight, Real.sq_sqrt hnonneg]
  change (e.xm + e.xd * z - e.xm) * (e.xm + e.xd * z - e.xm) +
    (e.ym + e.yd * z - e.ym) * (e.ym + e.yd * z - e.ym) = _
  ring

/-- **The singular term**, by the functions on which a functional is exact. -/
theorem singularTerm_midpoint (h : 0 < e.dr .straight) (t0 : ℝ) {z : ℝ} (hz : z ≠ 0) :
    singularTerm .straight (e.midpoint t0) e z =
      Real.log (e.dr .straight) * e.ym / (2 * Real.pi) * 1 +
        Real.log (e.dr .straight) * e.yd / (2 * Real.pi) * z +
        e.ym / (2 * Real.pi) * Real.log |z| + e.yd / (2 * Real.pi) * (z * Real.log |z|) := by
  change Real.log (quadPoint (e.midpoint t0) e .straight z).dists / (Real.pi * 4) *
    (e.ym + e.yd * z) = _
  rw [dists_midpoint, Real.log_pow, Real.log_mul h.ne' (abs_ne_zero.2 hz)]
  push_cast
  field_simp
  ring

/-- The singular term under a functional of exact integration. -/
theorem rule_singularTerm (E : ExactFunctional) (h : 0 < e.dr .straight) (t0 : ℝ) :
    E.rule (singularTerm .straight (e.midpoint t0) e) =
      e.ym * (Real.log (e.dr .straight) - 1) / Real.pi := by
  have hterm : (fun z : Knot => singularTerm .straight (e.midpoint t0) e z) =
      (Real.log (e.dr .straight) * e.ym / (2 * Real.pi)) • (fun _ => (1 : ℝ)) +
        (Real.log (e.dr .straight) * e.yd / (2 * Real.pi)) • (fun z : Knot => (z : ℝ)) +
        (e.ym / (2 * Real.pi)) • (fun z : Knot => Real.log |(z : ℝ)|) +
        (e.yd / (2 * Real.pi)) • (fun z : Knot => (z : ℝ) * Real.log |(z : ℝ)|) := by
    funext z
    exact singularTerm_midpoint h t0 z.2.2
  rw [ExactFunctional.rule, hterm, map_add, map_add, map_add, map_smul, map_smul, map_smul,
    map_smul, E.one, E.id, E.log, E.idLog]
  simp only [smul_eq_mul]
  ring

/-- **What is left of the singularity**: the term in the quadrature has the weight `y`, the closed
form has none. -/
theorem addBack_rule (E : ExactFunctional) (h : 0 < e.dr .straight) (t0 : ℝ) :
    addBack .straight e (E.rule (singularTerm .straight (e.midpoint t0) e) * e.dr .straight) =
      e.dr .straight * (Real.log (e.dr .straight) - 1) * (e.ym - 1) / Real.pi := by
  rw [rule_singularTerm E h]
  change e.ym * (Real.log (e.dr .straight) - 1) / Real.pi * e.dr .straight -
    e.dr .straight * 2 * (Real.log (e.dr .straight) - 1) / (Real.pi * 2) = _
  field_simp

theorem addBack_rule_eq_zero_iff (E : ExactFunctional) (h : 0 < e.dr .straight) (t0 : ℝ) :
    addBack .straight e (E.rule (singularTerm .straight (e.midpoint t0) e) * e.dr .straight) = 0 ↔
      e.y1 + e.y2 = 2 ∨ √((e.x2 - e.x1) ^ 2 + (e.y2 - e.y1) ^ 2) = 2 * Real.exp 1 := by
  have hym : e.ym - 1 = 0 ↔ e.y1 + e.y2 = 2 := by
    change 1 / 2 * (e.y2 + e.y1) - 1 = 0 ↔ _
    constructor
    · intro h
      linarith
    · intro h
      linarith
  have hlog : Real.log (e.dr .straight) - 1 = 0 ↔
      √((e.x2 - e.x1) ^ 2 + (e.y2 - e.y1) ^ 2) = 2 * Real.exp 1 := by
    rw [sub_eq_zero, ← two_mul_dr, mul_right_inj' two_ne_zero]
    constructor
    · intro hone
      rw [← hone, Real.exp_log h]
    · intro hexp
      rw [hexp, Real.log_exp]
  rw [addBack_rule E h, div_eq_zero_iff, or_iff_left Real.pi_ne_zero, mul_eq_zero, mul_eq_zero,
    or_iff_right h.ne', hlog, hym, or_comm]

/-- **The elements on which the treatment of the singularity is neutral.** -/
theorem singularity_neutral_iff (E : ExactFunctional) (ellipticIntegral : ℝ → ℝ × ℝ)
    {e : Element ℝ} (h : e.x1 ≠ e.x2 ∨ e.y1 ≠ e.y2) (t0 : ℝ) :
    (e.dr .straight * E.rule (singularTerm .straight (e.midpoint t0) e) -
        e.dr .straight * 2 * (Real.log (e.dr .straight) - 1) / (2 * Real.pi) = 0 ↔
      e.y1 + e.y2 = 2 ∨ √((e.x2 - e.x1) ^ 2 + (e.y2 - e.y1) ^ 2) = 2 * Real.exp 1) ∧
    ((sdlpWith ellipticIntegral true .straight (e.midpoint t0) e E.rule).1 =
        (sdlpWith ellipticIntegral false .straight (e.midpoint t0) e E.rule).1 ↔
      e.y1 + e.y2 = 2 ∨ √((e.x2 - e.x1) ^ 2 + (e.y2 - e.y1) ^ 2) = 2 * Real.exp 1) := by
  have hzero := addBack_rule_eq_zero_iff E (dr_pos h) t0
  constructor
  · rw [← hzero, mul_comm (e.dr .straight) (E.rule _), mul_comm 2 Real.pi]
    rfl
  · rw [sdlpWith_singular, add_eq_left, hzero]

theorem exp_neg_one_le_one : Real.exp (-1) ≤ 1 := Real.exp_le_one_iff.2 (by norm_num)

/-- The knots `1 / e` and `-1 / e`. -/
noncomputable def rightKnot : Knot :=
  ⟨Real.exp (-1), ⟨by linarith [Real.exp_pos (-1)], exp_neg_one_le_one⟩, (Real.exp_pos _).ne'⟩

noncomputable def leftKnot : Knot :=
  ⟨-Real.exp (-1), ⟨neg_le_neg exp_neg_one_le_one, by linarith [Real.exp_pos (-1)]⟩,
    neg_ne_zero.2 (Real.exp_pos _).ne'⟩

theorem log_knots : Real.log |(rightKnot : ℝ)| = -1 ∧ Real.log |(leftKnot : ℝ)| = -1 := by
  change Real.log |Real.exp (-1)| = -1 ∧ Real.log |-Real.exp (-1)| = -1
  rw [abs_neg, abs_of_pos (Real.exp_pos _), Real.log_exp]
  exact ⟨rfl, rfl⟩

/-- Two knots are enough for a functional of exact integration. -/
noncomputable def twoKnots : ExactFunctional where
  I :=
    { toFun := fun f => f rightKnot + f leftKnot
      map_add' := fun f g => add_add_add_comm _ _ _ _
      map_smul' := fun a f => (mul_add _ _ _).symm }
  one := one_add_one_eq_two
  id := add_neg_cancel (Real.exp (-1))
  log := by
    change Real.log |(rightKnot : ℝ)| + Real.log |(leftKnot : ℝ)| = -2
    rw [log_knots.1, log_knots.2]
    norm_num
  idLog := by
    change rightKnot * Real.log |(rightKnot : ℝ)| + leftKnot * Real.log |(leftKnot : ℝ)| = 0
    rw [log_knots.1, log_knots.2, ← add_mul]
    exact mul_eq_zero_of_left (add_neg_cancel (Real.exp (-1))) _

/-- The complete elliptic integrals of the first and second kind, by the square of the modulus. -/
noncomputable def completeElliptic (rk2 : ℝ) : ℝ × ℝ :=
  (∫ eta in (0 : ℝ)..Real.pi / 2, (√(1 - rk2 * Real.cos eta ^ 2))⁻¹,
    ∫ eta in (0 : ℝ)..Real.pi / 2, √(1 - rk2 * Real.cos eta ^ 2))

/-- An element on which it is neutral, at distance one from the axis. -/
theorem singularity_neutral_iff_unit :
    (sdlpWith completeElliptic true .straight (Element.midpoint ⟨0, 1, 0, 2, 1, 0, 0, 0, 0⟩ 0)
        ⟨0, 1, 0, 2, 1, 0, 0, 0, 0⟩ twoKnots.rule).1 =
      (sdlpWith completeElliptic false .straight (Element.midpoint ⟨0, 1, 0, 2, 1, 0, 0, 0, 0⟩ 0)
        ⟨0, 1, 0, 2, 1, 0, 0, 0, 0⟩ twoKnots.rule).1 :=
  (singularity_neutral_iff twoKnots completeElliptic (e := ⟨0, 1, 0, 2, 1, 0, 0, 0, 0⟩)
    (.inl (by norm_num)) 0).2.2 (.inl one_add_one_eq_two)

/-- **An element on which it is not**, at distance two from the axis. -/
theorem singularity_not_neutral : ¬∀ (E : ExactFunctional) (e : Element ℝ) (t0 : ℝ), 0 < e.y1 →
    0 < e.y2 → (e.x1 ≠ e.x2 ∨ e.y1 ≠ e.y2) →
      e.dr .straight * E.rule (singularTerm .straight (e.midpoint t0) e) -
        e.dr .straight * 2 * (Real.log (e.dr .straight) - 1) / (2 * Real.pi) = 0 := by
  intro h
  obtain ⟨e, he⟩ : ∃ e : Element ℝ, e = ⟨0, 2, 0, 2, 2, 0, 0, 0, 0⟩ := ⟨_, rfl⟩
  have hne : e.x1 ≠ e.x2 ∨ e.y1 ≠ e.y2 := by
    rw [he]
    exact .inl (by norm_num)
  have hlength : √((e.x2 - e.x1) ^ 2 + (e.y2 - e.y1) ^ 2) = 2 := by
    have hsquare : (2 - 0 : ℝ) ^ 2 + (2 - 2) ^ 2 = 2 ^ 2 := by norm_num
    rw [he, hsquare, Real.sqrt_sq (by norm_num)]
  have hzero := h twoKnots e 0 (by rw [he]; norm_num) (by rw [he]; norm_num) hne
  rw [mul_comm (e.dr .straight) (twoKnots.rule _), mul_comm 2 Real.pi] at hzero
  rcases (addBack_rule_eq_zero_iff twoKnots (dr_pos hne) 0).1 hzero with hsum | hexp
  · rw [he] at hsum
    norm_num at hsum
  · rw [hlength] at hexp
    have hone : 1 < Real.exp 1 := Real.one_lt_exp_iff.2 one_pos
    linarith

/-! ### The integral -/

theorem integral_mul_log : ∫ z in (-1 : ℝ)..1, z * Real.log z = 0 := by
  -- the function is odd
  have hodd : ∫ z in (-1 : ℝ)..1, -(z * Real.log z) = ∫ z in (-1 : ℝ)..1, z * Real.log z := by
    have hneg := intervalIntegral.integral_comp_neg (a := -1) (b := 1) fun z => z * Real.log z
    simp only [Real.log_neg_eq_log, neg_mul, neg_neg] at hneg
    exact hneg
  rw [intervalIntegral.integral_neg] at hodd
  linarith

/-- **The integral of the singular term**: the functionals of exact integration agree with it. -/
theorem integral_singularTerm (E : ExactFunctional) (h : 0 < e.dr .straight) (t0 : ℝ) :
    ∫ z in (-1 : ℝ)..1, singularTerm .straight (e.midpoint t0) e z =
      E.rule (singularTerm .straight (e.midpoint t0) e) := by
  obtain ⟨a, ha⟩ : ∃ a, a = Real.log (e.dr .straight) * e.ym / (2 * Real.pi) := ⟨_, rfl⟩
  obtain ⟨b, hb⟩ : ∃ b, b = Real.log (e.dr .straight) * e.yd / (2 * Real.pi) := ⟨_, rfl⟩
  obtain ⟨p, hp⟩ : ∃ p, p = e.ym / (2 * Real.pi) := ⟨_, rfl⟩
  obtain ⟨q, hq⟩ : ∃ q, q = e.yd / (2 * Real.pi) := ⟨_, rfl⟩
  have hterm : ∫ z in (-1 : ℝ)..1, singularTerm .straight (e.midpoint t0) e z =
      ∫ z in (-1 : ℝ)..1, (a + b * z + p * Real.log z + q * (z * Real.log z)) := by
    refine intervalIntegral.integral_congr_ae ?_
    -- the middle of the element is a single point
    filter_upwards [MeasureTheory.compl_mem_ae_iff.2 (Real.volume_singleton (a := 0))] with z hz _
    rw [singularTerm_midpoint h t0 hz, Real.log_abs, ← ha, ← hb, ← hp, ← hq, mul_one]
  have hlog : IntervalIntegrable Real.log MeasureTheory.volume (-1) 1 :=
    intervalIntegral.intervalIntegrable_log'
  have hmul : IntervalIntegrable (fun z => z * Real.log z) MeasureTheory.volume (-1) 1 :=
    Real.continuous_mul_log.intervalIntegrable _ _
  have hconst : IntervalIntegrable (fun _ : ℝ => a) MeasureTheory.volume (-1) 1 :=
    intervalIntegrable_const
  have hid : IntervalIntegrable (fun z : ℝ => b * z) MeasureTheory.volume (-1) 1 :=
    (continuous_const_mul b).intervalIntegrable _ _
  rw [hterm, intervalIntegral.integral_add ((hconst.add hid).add (hlog.const_mul p))
      (hmul.const_mul q), intervalIntegral.integral_add (hconst.add hid) (hlog.const_mul p),
    intervalIntegral.integral_add hconst hid, intervalIntegral.integral_const,
    intervalIntegral.integral_const_mul, intervalIntegral.integral_const_mul,
    intervalIntegral.integral_const_mul, integral_mul_log, integral_log, integral_id,
    rule_singularTerm E h, ha, hp, Real.log_one, Real.log_neg_eq_log, Real.log_one, smul_eq_mul]
  field_simp
  ring

end Straight

end BodyAx
