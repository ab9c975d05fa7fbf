/-
**The streamlines of `body_ax`.**

For each start point `main` of `body_ax.cpp` follows the velocity in at most `mstr` Runge-Kutta
steps of a frozen time step and collects the points.  It stops when the streamline crosses the plane
`x = 0`, leaves the window or, for a sphere, runs into it; in the last case the last point is taken
back.

The loop is one over any step; in the program the step follows `BodyAx.velocity`.

Main definitions:

* `BodyAx.advance` — a step of one of the two Runge-Kutta methods;
* `BodyAx.trace`, `BodyAx.streamline` — the loop over the steps;
* `BodyAx.drawn` — the streamlines of a run.

Main results:

* `BodyAx.drawn_spec` — **each streamline is a part of an orbit of the steps**: which part, why it
  ends there, and which tests its points have passed;
* `BodyAx.advance_affine` — **the steps are the second and the fourth order** of the motion in an
  affine velocity field, where it is not zero.
-/

import CppSamples.BodyAxFlow
import Mathlib.Logic.Function.Iterate

set_option relaxedAutoImplicit false
set_option autoImplicit false

namespace BodyAx

open Lib PotentialLib

/-- The further functions and constants that the streamlines use. -/
class StreamlineLib (T : Type*) where
  /-- `x < y` -/
  lt : T → T → Bool
  /-- `std::hypot` -/
  hypot : T → T → T
  /-- `FLOATING_TYPE(6.0)` -/
  six : T

-- under a name, so that the numeral needs no auxiliary lemma
local instance atLeastTwo_six : Nat.AtLeastTwo 6 := ⟨Nat.le_add_left 2 4⟩

open Classical in
noncomputable instance : StreamlineLib ℝ where
  lt x y := decide (x < y)
  hypot x y := √(x ^ 2 + y ^ 2)
  six := 6

open StreamlineLib

/-! ### A step -/

section Step

variable {T : Type*} [Zero T] [One T] [Add T] [Sub T] [Mul T] [Div T] [Neg T] [Lib T]
  [PotentialLib T] [StreamlineLib T]

/-- `irk` -/
inductive Method
  /-- `irk == 2` -/
  | rk2
  /-- `irk == 4` -/
  | rk4

/-- The step from `(x00s, y00s)` along the velocity `u`.  The source divides by the length of the
velocity without a test. -/
def advance (u : T → T → T × T) (dl : T) (irk : Method) (x00s y00s : T) : T × T :=
  let (ux1, uy1) := u x00s y00s
  let step := dl / sqrt (ux1 * ux1 + uy1 * uy1)
  let xsv := x00s
  let ysv := y00s
  let steph := half * step
  match irk with
  | .rk2 =>
    let (ux2, uy2) := u (xsv + step * ux1) (ysv + step * uy1)
    (xsv + steph * (ux1 + ux2), ysv + steph * (uy1 + uy2))
  | .rk4 =>
    let (ux2, uy2) := u (xsv + steph * ux1) (ysv + steph * uy1)
    let (ux3, uy3) := u (xsv + steph * ux2) (ysv + steph * uy2)
    let (ux4, uy4) := u (xsv + step * ux3) (ysv + step * uy3)
    (xsv + step / six * (ux1 + two * ux2 + two * ux3 + ux4),
      ysv + step / six * (uy1 + two * uy2 + two * uy3 + uy4))

end Step

/-! ### The loop -/

section Loop

variable {T : Type*} [Zero T] [Sub T] [Mul T] [StreamlineLib T]

variable (p : Parameters T) (icross : Bool) (next : T × T → T × T)

/-- The test for the crossing of the plane `x = 0`, which the streamline starts at `xcross` from. -/
def crossesPlane (xcross : T) (q : T × T) : Bool := icross && lt (xcross * q.1) 0

/-- The test for the sphere. -/
def insideSphere (q : T × T) : Bool :=
  icross && lt (hypot (q.1 - p.xcntr 0) (q.2 - p.ycntr 0)) (p.actis 0)

/-- The window crossing checks. -/
def outsideWindow (q : T × T) : Bool :=
  lt q.1 p.xwmin || lt p.xwmax q.1 || lt q.2 p.ywmin || lt p.ywmax q.2

/-- The loop from a point, with the passes that are left and the points so far. -/
def trace (xcross : T) : ℕ → T × T → List (T × T) → List (T × T)
  | 0, q, str => str ++ [q]
  | k + 1, q, str =>
    let str := str ++ [q]
    let q' := next q
    if crossesPlane icross xcross q' then str ++ [q']
    else if insideSphere p icross q' then str.dropLast
    else if outsideWindow p q' then str ++ [q']
    else trace xcross k q' str

/-- The streamline from a start point. -/
def streamline (mstr : ℕ) (q : T × T) : List (T × T) := trace p icross next q.1 mstr q []

/-- All tests are passed. -/
def Free (xcross : T) (q : T × T) : Prop :=
  crossesPlane icross xcross q = false ∧ insideSphere p icross q = false ∧
    outsideWindow p q = false

/-! ### Which points there are -/

/-- How a streamline of at most `mstr` steps from `q` ends.  Its points are the first ones of the
orbit of `q` under the steps. -/
inductive Ending (xcross : T) (mstr : ℕ) (q : T × T) : List (T × T) → Prop
  /-- after `mstr` steps, all of which have passed the tests -/
  | complete (h : ∀ i < mstr, Free p icross xcross (next^[i + 1] q)) :
    Ending xcross mstr q (List.iterate next q (mstr + 1))
  /-- with the first point that crosses the plane or, being outside the sphere, leaves the window -/
  | left (n : ℕ) (hn : n < mstr) (h : ∀ i < n, Free p icross xcross (next^[i + 1] q))
    (hlast : crossesPlane icross xcross (next^[n + 1] q) = true ∨
      insideSphere p icross (next^[n + 1] q) = false ∧ outsideWindow p (next^[n + 1] q) = true) :
    Ending xcross mstr q (List.iterate next q (n + 2))
  /-- before the point from which the next step runs into the sphere -/
  | sphere (n : ℕ) (hn : n < mstr) (h : ∀ i < n, Free p icross xcross (next^[i + 1] q))
    (hcross : crossesPlane icross xcross (next^[n + 1] q) = false)
    (hlast : insideSphere p icross (next^[n + 1] q) = true) :
    Ending xcross mstr q (List.iterate next q n)

variable {p icross next} in
/-- One step more before a streamline. -/
theorem Ending.cons {xcross : T} {k : ℕ} {q : T × T} {pts : List (T × T)}
    (hfree : Free p icross xcross (next q)) (h : Ending p icross next xcross k (next q) pts) :
    Ending p icross next xcross (k + 1) q (q :: pts) := by
  -- the first point after `q` is free, and the others are those of the shorter streamline
  have hshift : ∀ {n : ℕ}, (∀ i < n, Free p icross xcross (next^[i + 1] (next q))) →
      ∀ i < n + 1, Free p icross xcross (next^[i + 1] q) := by
    intro n h i hi
    cases i with
    | zero => exact hfree
    | succ i => exact h i (by omega)
  cases h with
  | complete h => exact .complete (hshift h)
  | left n hn h hlast => exact .left (n + 1) (by omega) (hshift h) hlast
  | sphere n hn h hcross hlast => exact .sphere (n + 1) (by omega) (hshift h) hcross hlast

/-- The loop adds the points of a streamline. -/
theorem exists_trace (xcross : T) (k : ℕ) (q : T × T) (str : List (T × T)) :
    ∃ pts, trace p icross next xcross k q str = str ++ pts ∧
      Ending p icross next xcross k q pts := by
  induction k generalizing q str with
  | zero => exact ⟨[q], rfl, .complete fun i hi => absurd hi i.not_lt_zero⟩
  | succ k ih =>
      have hnone : ∀ i < 0, Free p icross xcross (next^[i + 1] q) :=
        fun i hi => absurd hi i.not_lt_zero
      rw [trace]
      cases hcross : crossesPlane icross xcross (next q) with
      | true =>
          refine ⟨[q, next q], ?_, .left 0 k.succ_pos hnone (Or.inl hcross)⟩
          rw [if_pos rfl, List.append_assoc, List.singleton_append]
      | false =>
          cases hsphere : insideSphere p icross (next q) with
          | true =>
              refine ⟨[], ?_, .sphere 0 k.succ_pos hnone hcross hsphere⟩
              rw [if_neg Bool.false_ne_true, if_pos rfl, List.dropLast_concat, List.append_nil]
          | false =>
              cases hwindow : outsideWindow p (next q) with
              | true =>
                  refine ⟨[q, next q], ?_, .left 0 k.succ_pos hnone (Or.inr ⟨hsphere, hwindow⟩)⟩
                  rw [if_neg Bool.false_ne_true, if_neg Bool.false_ne_true, if_pos rfl,
                    List.append_assoc, List.singleton_append]
              | false =>
                  obtain ⟨pts, hpts, hend⟩ := ih (next q) (str ++ [q])
                  refine ⟨q :: pts, ?_, hend.cons ⟨hcross, hsphere, hwindow⟩⟩
                  rw [if_neg Bool.false_ne_true, if_neg Bool.false_ne_true,
                    if_neg Bool.false_ne_true, hpts, List.append_assoc, List.singleton_append]

/-- A streamline ends in one of the three ways. -/
theorem streamline_ending (mstr : ℕ) (q : T × T) :
    Ending p icross next q.1 mstr q (streamline p icross next mstr q) := by
  obtain ⟨pts, hpts, hend⟩ := exists_trace p icross next q.1 mstr q []
  rw [streamline, hpts, List.nil_append]
  exact hend

/-- **A streamline as a part of an orbit of the steps**, of at most `mstr + 1` points.  Every point
but the first and the last has passed all tests; a point in the sphere that is not the first one has
crossed the plane; and where the streamline is shorter, its last point has crossed the plane or left
the window, or the point after the next one is in the sphere. -/
structure PartOfOrbit (mstr : ℕ) (q : T × T) (s : List (T × T)) : Prop where
  points : s = List.iterate next q s.length
  length_le : s.length ≤ mstr + 1
  free : ∀ i, 0 < i → i + 1 < s.length → Free p icross q.1 (next^[i] q)
  outside : ∀ i, 0 < i → i < s.length → insideSphere p icross (next^[i] q) = true →
    crossesPlane icross q.1 (next^[i] q) = true
  stopped : s.length < mstr + 1 →
    (∃ i, s.length = i + 1 ∧ (crossesPlane icross q.1 (next^[i] q) = true ∨
      outsideWindow p (next^[i] q) = true)) ∨
    insideSphere p icross (next^[s.length + 1] q) = true

variable {p icross next} in
/-- The first `m` points of the orbit, where the ones between have passed all tests. -/
theorem partOfOrbit_iterate {mstr m : ℕ} {q : T × T} (hm : m ≤ mstr + 1)
    (hfree : ∀ i, i + 2 < m → Free p icross q.1 (next^[i + 1] q))
    (hlast : ∀ i, i + 2 = m → insideSphere p icross (next^[i + 1] q) = true →
      crossesPlane icross q.1 (next^[i + 1] q) = true)
    (hstop : m < mstr + 1 →
      (∃ i, m = i + 1 ∧ (crossesPlane icross q.1 (next^[i] q) = true ∨
        outsideWindow p (next^[i] q) = true)) ∨ insideSphere p icross (next^[m + 1] q) = true) :
    PartOfOrbit p icross next mstr q (List.iterate next q m) where
  points := by rw [List.length_iterate]
  length_le := by rwa [List.length_iterate]
  free i hpos hi := by
    rw [List.length_iterate] at hi
    obtain ⟨i, rfl⟩ : ∃ j, i = j + 1 := ⟨i - 1, by omega⟩
    exact hfree i hi
  outside i hpos hi hin := by
    rw [List.length_iterate] at hi
    obtain ⟨i, rfl⟩ : ∃ j, i = j + 1 := ⟨i - 1, by omega⟩
    rcases Nat.lt_or_eq_of_le (by omega : i + 2 ≤ m) with hlt | heq
    · have hout := (hfree i hlt).2.1
      rw [hin] at hout
      exact absurd hout Bool.true_eq_false.mp
    · exact hlast i heq hin
  stopped := by rwa [List.length_iterate]

variable {p icross next} in
/-- Each of the three endings is such a part. -/
theorem Ending.partOfOrbit {mstr : ℕ} {q : T × T} {s : List (T × T)}
    (hend : Ending p icross next q.1 mstr q s) : PartOfOrbit p icross next mstr q s := by
  cases hend with
  | complete h =>
      refine partOfOrbit_iterate le_rfl (fun i hi => h i (by omega)) (fun i hi hin => ?_)
        fun hlt => absurd hlt (lt_irrefl _)
      have hout := (h i (by omega)).2.1
      rw [hin] at hout
      exact absurd hout Bool.true_eq_false.mp
  | left n hn h hlast =>
      refine partOfOrbit_iterate (by omega) (fun i hi => h i (by omega)) (fun i hi hin => ?_)
        fun _ => Or.inl ⟨n + 1, rfl, hlast.imp_right And.right⟩
      obtain rfl : i = n := by omega
      refine hlast.resolve_right fun hleft => ?_
      rw [hin] at hleft
      exact absurd hleft.1 Bool.true_eq_false.mp
  | sphere n hn h hcross hlast =>
      refine partOfOrbit_iterate (by omega) (fun i hi => h i (by omega)) (fun i hi hin => ?_)
        fun _ => Or.inr hlast
      have hout := (h i (by omega)).2.1
      rw [hin] at hout
      exact absurd hout Bool.true_eq_false.mp

end Loop

/-! ### The streamlines of a run -/

section Drawn

variable {T : Type*} [Zero T] [One T] [Add T] [Sub T] [Mul T] [Div T] [Neg T] [Lib T]
  [PotentialLib T] [StreamlineLib T]

/-- `icross`: a streamline of a sphere stops where it crosses the plane. -/
def Body.icross : Body T → Bool
  | .sphere _ => true
  | .torus _ => false

variable (ellipticIntegral : T → T × T) (out : VortexRing T) (p : Parameters T)
  (phi : ℕ → ℕ → T) (eps dl : T) (irk : Method)

/-- The step of a run. -/
def stepAlong (q : T × T) : T × T :=
  advance (velocity ellipticIntegral out p phi eps) dl irk q.1 q.2

/-- **The streamlines of a run**, one for each start point. -/
def drawn (b : Body T) (starts : List (T × T)) : List (List (T × T)) :=
  starts.map (streamline p b.icross (stepAlong ellipticIntegral out p phi eps dl irk) 1200)

/-- **Each streamline of a run is a part of an orbit of its steps.** -/
theorem drawn_spec (b : Body T) (starts : List (T × T)) :
    List.Forall₂
      (PartOfOrbit p b.icross (stepAlong ellipticIntegral out p phi eps dl irk) 1200) starts
      (drawn ellipticIntegral out p phi eps dl irk b starts) := by
  rw [drawn, List.forall₂_map_right_iff, List.forall₂_same]
  exact fun q _ => (streamline_ending p b.icross _ 1200 q).partOfOrbit

end Drawn

/-! ### The order of a step -/

section Affine

variable (a b c d e f : ℝ)

/-- An affine velocity field. -/
def affineField (x y : ℝ) : ℝ × ℝ := (a * x + b * y + e, c * x + d * y + f)

/-- Its linear part. -/
def linearPart (v : ℝ × ℝ) : ℝ × ℝ := (a * v.1 + b * v.2, c * v.1 + d * v.2)

/-- The first terms of the series of the motion in the field: `h ^ k / k !` times the `k - 1` fold
linear part of the velocity. -/
noncomputable def motion (order : ℕ) (h x y : ℝ) : ℝ × ℝ :=
  (x, y) + ∑ k ∈ Finset.range order, (h ^ (k + 1) / (k + 1).factorial) •
    (linearPart a b c d)^[k] (affineField a b c d e f x y)

/-- **The order of the methods.**  From a point where an affine velocity field is not zero, a step is
the motion to second or to fourth order, for the time in which the first velocity covers the length
`dl`.  Where the velocity is zero there is no such time, and the division by its length has no
finite result. -/
theorem advance_affine (dl x y : ℝ) (irk : Method) (hu : affineField a b c d e f x y ≠ 0) :
    let u := affineField a b c d e f
    let h := dl / √((u x y).1 * (u x y).1 + (u x y).2 * (u x y).2)
    h * √((u x y).1 * (u x y).1 + (u x y).2 * (u x y).2) = dl ∧
      advance u dl irk x y =
        motion a b c d e f (match irk with | .rk2 => 2 | .rk4 => 4) h x y := by
  intro u h
  have hspeed : 0 < (u x y).1 * (u x y).1 + (u x y).2 * (u x y).2 := by
    refine lt_of_le_of_ne (add_nonneg (mul_self_nonneg _) (mul_self_nonneg _)) fun h0 => hu ?_
    obtain ⟨hx, hy⟩ := mul_self_add_mul_self_eq_zero.mp h0.symm
    exact Prod.ext hx hy
  have hstep : dl / sqrt ((u x y).1 * (u x y).1 + (u x y).2 * (u x y).2) = h := rfl
  refine ⟨div_mul_cancel₀ dl (Real.sqrt_pos.mpr hspeed).ne', ?_⟩
  cases irk with
  | rk2 =>
      simp only [advance, hstep, motion, Finset.sum_range_succ, Finset.sum_range_zero,
        Nat.factorial, Function.iterate_succ_apply', Function.iterate_zero_apply]
      clear_value h
      refine Prod.ext ?_ ?_ <;>
      · simp only [u, affineField, linearPart, Lib.half, Prod.fst_add, Prod.snd_add, Prod.smul_fst,
          Prod.smul_snd, Prod.fst_zero, Prod.snd_zero, smul_eq_mul]
        push_cast
        ring
  | rk4 =>
      simp only [advance, hstep, motion, Finset.sum_range_succ, Finset.sum_range_zero,
        Nat.factorial, Function.iterate_succ_apply', Function.iterate_zero_apply]
      clear_value h
      refine Prod.ext ?_ ?_ <;>
      · simp only [u, affineField, linearPart, Lib.half, Lib.two, StreamlineLib.six, Prod.fst_add,
          Prod.snd_add, Prod.smul_fst, Prod.smul_snd, Prod.fst_zero, Prod.snd_zero, smul_eq_mul]
        push_cast
        ring

/-- A step of length one around the origin gives the first terms of the cosine and the sine. -/
theorem advance_affine_rotation :
    advance (affineField 0 (-1) 1 0 0 0) 1 .rk4 1 0 = (13 / 24, 5 / 6) := by
  have h := (advance_affine 0 (-1) 1 0 0 0 1 1 0 .rk4 (by simp [affineField])).2
  refine h.trans ?_
  simp only [motion, affineField, linearPart, Finset.sum_range_succ, Finset.sum_range_zero,
    Nat.factorial, Function.iterate_succ_apply', Function.iterate_zero_apply]
  refine Prod.ext ?_ ?_ <;> norm_num

end Affine

end BodyAx
