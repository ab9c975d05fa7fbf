/-
**The operators of `PoissonProblem` ignore the domain.**

The constructor is given the rectangle `[x_min, x_max] × [y_min, y_max]`, makes its grids on it and
takes the right-hand side on them.  The second derivatives are those of `[-1, 1]` all the same:
`second_derivative` never passes a `span` to `spectral_differentiate`, whose default is one.  They
are the second derivatives in the coordinate of the grid exactly when the rectangle has sides of
length two.

Main definitions:

* `Chebyshev.PoissonProblem.assembled`, `Chebyshev.PoissonProblem.prepare` — the constructor up to
  the Schur forms, and the rest of it;
* `Chebyshev.PoissonProblem.HonoursSpan` — an operator is the second derivative in the coordinate of
  a grid.

Main results:

* `Chebyshev.PoissonProblem.honoursSpan_iff` — the operators that honour a span;
* `Chebyshev.PoissonProblem.honours_domain_iff` — **when the operators honour the domain**;
* `Chebyshev.PoissonProblem.unit_square_ignored` — the unit square is not honoured.
-/

import CppSamples.PoissonProblem
import CppSamples.SpectralDerivative

set_option relaxedAutoImplicit false
set_option autoImplicit false

namespace Chebyshev.PoissonProblem

open ChebyshevExpansion CountedLoop Finset

/-! ### The constructor in two halves -/

section Constructor

variable {K : Type*} [Field K] [Trig K]

/-- **The constructor before the operators are reduced.** -/
def assembled (M N : ℕ) (xMin xMax yMin yMax : K) (raw : PoissonProblem K) : PoissonProblem K :=
  let p := { raw with
    M := M
    N := N
    xGrid := FCT.gridSpan M xMin xMax
    yGrid := FCT.gridSpan N yMin yMax
    secondDerivativeRespectX := secondOrderOperator M }
  let p := if M ≠ N then { p with secondDerivativeRespectY := secondOrderOperator N } else p
  let p := { p with border := zeroBorder M N }
  let p := { p with ome := p.RHS p.ome }
  { p with ome := FCT.cft2 M N p.ome .inverse }

/-- The rest of the constructor. -/
def prepare [Scalar K] (eps : K) (p : PoissonProblem K) : Except String (PoissonProblem K) :=
  if p.M = p.N then do
    let (x, u) ← BS.initAu eps (p.M - 2) p.secondDerivativeRespectX p.u
    return { p with secondDerivativeRespectX := x, u := u }
  else do
    let (x, y, u, v) ← BS.initAbuv eps (p.M - 2) (p.N - 2) p.secondDerivativeRespectX
      p.secondDerivativeRespectY p.u p.v
    return { p with secondDerivativeRespectX := x, secondDerivativeRespectY := y, u := u, v := v }

/-- The operator of the `x` direction. -/
def operatorX (p : PoissonProblem K) : Mat K := p.secondDerivativeRespectX

/-- The operator of the `y` direction, which is the other one with as many intervals each way. -/
def operatorY (p : PoissonProblem K) : Mat K :=
  if p.M = p.N then p.secondDerivativeRespectX else p.secondDerivativeRespectY

/-- The two halves of the constructor. -/
theorem new_eq [Scalar K] (eps : K) (M N : ℕ) (xMin xMax yMin yMax : K) (raw : PoissonProblem K) :
    new eps M N xMin xMax yMin yMax raw = (assembled M N xMin xMax yMin yMax raw).prepare eps := by
  by_cases hsquare : M = N
  · simp only [new, assembled, prepare, if_pos hsquare, if_neg (not_not.2 hsquare)]
  · simp only [new, assembled, prepare, if_neg hsquare, if_pos (Ne.intro hsquare)]

variable {M N : ℕ} {xMin xMax yMin yMax : K} {raw : PoissonProblem K}

theorem assembled_operatorX :
    (assembled M N xMin xMax yMin yMax raw).operatorX = secondOrderOperator M := by
  by_cases hsquare : M = N
  · simp only [operatorX, assembled, if_neg (not_not.2 hsquare)]
  · simp only [operatorX, assembled, if_pos (Ne.intro hsquare)]

theorem assembled_operatorY :
    (assembled M N xMin xMax yMin yMax raw).operatorY = secondOrderOperator N := by
  by_cases hsquare : M = N
  · simp only [operatorY, assembled, if_pos hsquare, if_neg (not_not.2 hsquare)]
    rw [hsquare]
  · simp only [operatorY, assembled, if_neg hsquare, if_pos (Ne.intro hsquare)]

end Constructor

/-! ### The coordinate of a grid -/

/-- The coordinate of the grid that spans `[min, max]`. -/
def coordinate {K : Type*} [Field K] (min max ξ : K) : K :=
  1 / 2 * (min - max) * ξ + 1 / 2 * (min + max)

/-- The grid is made of the points of `[-1, 1]`, in its coordinate. -/
theorem gridSpan_eq {K : Type*} [Field K] [Trig K] (nodes : ℕ) (min max : K) (i : ℕ) :
    FCT.gridSpan nodes min max i =
      coordinate min max (Trig.cos ((Trig.pi : K) * i / nodes)) := rfl

/-- The operator takes the coefficients of a polynomial that vanishes at both ends of `[min, max]`
to those of its second derivative in the coordinate of the grid.  The last two coefficients belong
to the boundary conditions and are not read. -/
def HonoursSpan (n : ℕ) (op : Mat ℝ) (min max : ℝ) : Prop :=
  ∀ (f : ℝ → ℝ) (c : ℕ → ℝ), (∀ ξ, f (coordinate min max ξ) = (series n c).eval ξ) →
    f min = 0 → f max = 0 →
      ∀ ξ, deriv^[2] f (coordinate min max ξ) =
        (series n fun j => ∑ k ∈ range (n - 1), op (k, j) * c k).eval ξ

section Span

variable {n : ℕ} {op : Mat ℝ} {min max : ℝ}

variable (min max) in
theorem coordinate_one : coordinate min max 1 = min := by
  rw [coordinate]
  ring

variable (min max) in
theorem coordinate_neg_one : coordinate min max (-1) = max := by
  rw [coordinate]
  ring

/-- A polynomial of the points of `[-1, 1]` is a function of the coordinate. -/
theorem exists_function (h : min < max) (p : Polynomial ℝ) :
    ∃ f : ℝ → ℝ, ∀ ξ, f (coordinate min max ξ) = p.eval ξ := by
  refine ⟨fun x => p.eval ((2 * x - (min + max)) / (min - max)), fun ξ => ?_⟩
  have hξ : (2 * coordinate min max ξ - (min + max)) / (min - max) = ξ := by
    have hne : min - max ≠ 0 := sub_ne_zero.2 h.ne
    rw [coordinate]
    field_simp
    ring
  simp only [hξ]

/-- The second derivative in the coordinate of the grid. -/
theorem deriv_deriv_coordinate (h : min < max) {f : ℝ → ℝ} {c : ℕ → ℝ}
    (hf : ∀ ξ, f (coordinate min max ξ) = (series n c).eval ξ) (ξ : ℝ) :
    deriv^[2] f (coordinate min max ξ) =
      (2 / (max - min)) ^ 2 * (Polynomial.derivative^[2] (series n c)).eval ξ := by
  have hslope : 1 / 2 * (min - max) ≠ 0 := by
    refine mul_ne_zero (by norm_num) (sub_ne_zero.2 h.ne)
  have hscale : (1 / (1 / 2 * (min - max))) ^ 2 = (2 / (max - min)) ^ 2 := by
    rw [← neg_sub max min]
    field_simp
  rw [← hscale]
  exact deriv_deriv_affine hslope hf ξ

/-- **The operators that honour a span** are multiples of the one of `[-1, 1]`. -/
theorem honoursSpan_iff (hn : Even n) (hn₄ : 4 ≤ n) (h : min < max) : HonoursSpan n op min max ↔
    ∀ k < n - 1, ∀ j ≤ n, op (k, j) = (2 / (max - min)) ^ 2 * secondOrderOperator n (k, j) := by
  have hsecond : SecondDerivative n (secondOrderOperator n) :=
    CS.secondDerivative_identity (K := ℝ) hn (by omega)
  have hscaled : ∀ c ξ, Closed n c → (2 / (max - min)) ^ 2 *
      (Polynomial.derivative^[2] (series n c)).eval ξ = (series n fun j =>
        ∑ k ∈ range (n - 1), (2 / (max - min)) ^ 2 * secondOrderOperator n (k, j) * c k).eval ξ := by
    intro c ξ hc
    rw [hsecond.series_eq (by omega) hc, series_eval, series_eval, mul_sum]
    refine sum_congr rfl ?_
    intro j _
    simp only [mul_assoc, ← mul_sum]
  constructor
  · intro hop
    refine eq_of_closed (e := fun x => (2 / (max - min)) ^ 2 * secondOrderOperator n x)
      (by omega) fun c hc => Polynomial.funext fun ξ => ?_
    obtain ⟨f, hf⟩ := exists_function h (series n c)
    have hmin : f min = 0 := by
      rw [← coordinate_one min max, hf, hc.eval_one (by omega)]
    have hmax : f max = 0 := by
      rw [← coordinate_neg_one min max, hf, hc.eval_neg_one (by omega) hn]
    rw [← hop f c hf hmin hmax, deriv_deriv_coordinate h hf, hscaled c ξ hc]
  · intro hop f c hf hmin hmax ξ
    have hc : Closed n c := by
      refine closed_of_eval (by omega) hn ?_ ?_
      · rw [← hf, coordinate_one, hmin]
      · rw [← hf, coordinate_neg_one, hmax]
    rw [deriv_deriv_coordinate h hf, hscaled c ξ hc]
    refine congrArg _ (series_congr fun j hj => ?_)
    exact sum_congr rfl fun k hk => by rw [hop k (mem_range.1 hk) j hj]

/-- The operator of `[-1, 1]` is not zero. -/
theorem exists_entry_ne_zero (hn : Even n) (hn₄ : 4 ≤ n) :
    ∃ j ≤ n, secondOrderOperator n (0, j) ≠ (0 : ℝ) := by
  by_contra hzero
  have hsecond : SecondDerivative n (secondOrderOperator n) :=
    CS.secondDerivative_identity (K := ℝ) hn (by omega)
  refine iterate_derivative_basis_ne_zero (K := ℝ) (n := n) (by omega) ?_
  rw [← hsecond 0 (by omega), series]
  refine sum_eq_zero ?_
  intro j hj
  have hentry : secondOrderOperator n (0, j) = (0 : ℝ) := by
    by_contra hne
    exact hzero ⟨j, by rw [mem_range] at hj; omega, hne⟩
  rw [hentry, Polynomial.C_0, zero_mul]

/-- **The operator of `[-1, 1]`** honours the spans of length two. -/
theorem honoursSpan_secondOrderOperator_iff (hn : Even n) (hn₄ : 4 ≤ n) (h : min < max) :
    HonoursSpan n (secondOrderOperator n) min max ↔ max - min = 2 := by
  rw [honoursSpan_iff hn hn₄ h]
  constructor
  · intro hmultiple
    obtain ⟨j, hj, hne⟩ := exists_entry_ne_zero hn hn₄
    have hscale : (2 / (max - min)) ^ 2 = 1 := by
      have heq := hmultiple 0 (by omega) j hj
      exact mul_right_cancel₀ hne (heq.symm.trans (one_mul _).symm)
    have hpos : 0 < max - min := sub_pos.2 h
    have hone : 2 / (max - min) = 1 :=
      (pow_eq_one_iff_of_nonneg (by positivity) two_ne_zero).1 hscale
    rw [div_eq_one_iff_eq hpos.ne'] at hone
    exact hone.symm
  · intro hlength k hk j hj
    rw [hlength, div_self two_ne_zero, one_pow, one_mul]

end Span

/-! ### The domain of the constructor -/

/-- Both operators are the second derivatives in the coordinates of the grids. -/
def HonoursDomain (M N : ℕ) (xMin xMax yMin yMax : ℝ) (raw : PoissonProblem ℝ) : Prop :=
  HonoursSpan M (assembled M N xMin xMax yMin yMax raw).operatorX xMin xMax ∧
    HonoursSpan N (assembled M N xMin xMax yMin yMax raw).operatorY yMin yMax

/-- **The operators honour the domain exactly when its sides have length two.** -/
theorem honours_domain_iff {M N : ℕ} (hMeven : Even M) (hNeven : Even N) (hM : 4 ≤ M) (hN : 4 ≤ N)
    {xMin xMax yMin yMax : ℝ} (hx : xMin < xMax) (hy : yMin < yMax) (raw : PoissonProblem ℝ) :
    HonoursDomain M N xMin xMax yMin yMax raw ↔ xMax - xMin = 2 ∧ yMax - yMin = 2 := by
  rw [HonoursDomain, assembled_operatorX, assembled_operatorY,
    honoursSpan_secondOrderOperator_iff hMeven hM hx, honoursSpan_secondOrderOperator_iff hNeven hN hy]

/-- Members that are all zero. -/
def blank : PoissonProblem ℝ :=
  ⟨0, 0, fun _ => 0, fun _ => 0, fun _ => 0, fun _ => 0, fun _ => 0, fun _ => 0, fun _ => 0,
    fun _ => 0, ⟨fun _ => 0, fun _ => 0, fun _ => 0, fun _ => 0⟩⟩

/-- The domain `[0, 2] × [-1, 1]`. -/
theorem honours_domain_iff_shifted :
    HonoursDomain 4 6 0 2 (-1) 1 blank ↔ (2 : ℝ) - 0 = 2 ∧ (1 : ℝ) - -1 = 2 :=
  honours_domain_iff (by decide) (by decide) (by omega) (by omega) (by norm_num) (by norm_num) blank

/-- The unit square is not honoured. -/
theorem unit_square_ignored : ¬∀ (M N : ℕ) (xMin xMax yMin yMax : ℝ) (raw : PoissonProblem ℝ),
    Even M → Even N → 4 ≤ M → 4 ≤ N → xMin < xMax → yMin < yMax →
      HonoursDomain M N xMin xMax yMin yMax raw := by
  intro hclaim
  have hunit := hclaim 4 4 0 1 0 1 blank (by decide) (by decide) le_rfl le_rfl one_pos one_pos
  rw [HonoursDomain, assembled_operatorX,
    honoursSpan_secondOrderOperator_iff (by decide) le_rfl one_pos] at hunit
  norm_num at hunit

end Chebyshev.PoissonProblem
