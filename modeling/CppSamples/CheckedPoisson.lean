/-
**The Poisson solver with every access checked.**

The sizes of the members are those of the initialiser list and of the assignments in the
constructor: the second derivative in `y` and the matrix `v` are empty until they are needed.  A
grid size that is a power of two from four on is enough for every routine of the pipeline, so the
constructor and any number of calls of `solve` make no access outside an array and take no unsigned
number below zero.  The numbers are those of any field with any comparisons, so this is independent
of what the comparisons yield.

Main definitions:

* `Chebyshev.PoissonProblem.Checked.new`, `Chebyshev.PoissonProblem.Checked.solve` — the constructor
  and `solve`;
* `Chebyshev.PoissonProblem.Checked.run` — a use of the solver.

Main results:

* `Chebyshev.PoissonProblem.Checked.new_eq`, `Chebyshev.PoissonProblem.Checked.solve_eq` — they do
  what the programs without checks do;
* `Chebyshev.PoissonProblem.Checked.safe_run` — **no check fails**, for all powers of two from four
  on.
-/

import CppSamples.CheckedCosine
import CppSamples.CheckedDifferentiate
import CppSamples.CheckedSylvester
import CppSamples.PoissonProblem

set_option relaxedAutoImplicit false
set_option autoImplicit false

namespace Chebyshev.PoissonProblem.Checked

open CheckedArray CountedLoop Function
open FCT.Checked (GridSize)

variable {K : Type}

/-- `PoissonProblem::Boundary` -/
structure Boundary (K : Type) where
  left : Vec K
  down : Vec K
  right : Vec K
  up : Vec K

/-- The members of `PoissonProblem`. -/
structure Members (K : Type) where
  M : ℕ
  N : ℕ
  xGrid : Vec K
  yGrid : Vec K
  ome : Grid K
  psi : Grid K
  secondDerivativeRespectX : Grid K
  secondDerivativeRespectY : Grid K
  u : Grid K
  v : Grid K
  border : Boundary K

/-- The initialiser list of the constructor, on storage with any content. -/
def init (M N : ℕ) (raw : PoissonProblem K) : Members K where
  M := M
  N := N
  xGrid := ⟨0, raw.xGrid⟩
  yGrid := ⟨0, raw.yGrid⟩
  ome := ⟨M + 1, N + 1, raw.ome⟩
  psi := ⟨M + 1, N + 1, raw.psi⟩
  secondDerivativeRespectX := ⟨M + 1, M + 1, raw.secondDerivativeRespectX⟩
  secondDerivativeRespectY := ⟨0, 0, raw.secondDerivativeRespectY⟩
  u := ⟨M + 1, M + 1, raw.u⟩
  v := ⟨0, 0, raw.v⟩
  border :=
    ⟨⟨M + 1, raw.border.left⟩, ⟨N + 1, raw.border.down⟩, ⟨M + 1, raw.border.right⟩,
      ⟨N + 1, raw.border.up⟩⟩

section Definitions

variable [Field K]

/-- `second_order_operator` -/
def secondOrderOperator (m : ℕ) : Checked (Grid K) :=
  CS.Checked.secondDerivative m m ⟨m + 1, m + 1, identity K⟩

/-- The matrix equation of `solve`. -/
def solveEquation [ZeroTest K] (lu : BS.EigenLU K) (p : Members K) : Checked (Members K) := do
  let m ← sub p.M 2
  if p.M = p.N then
    let (x, psi) ← BS.Checked.bsSolveSquare lu m p.secondDerivativeRespectX p.u p.ome p.psi
    return { p with secondDerivativeRespectX := x, psi := psi }
  else
    let n ← sub p.N 2
    let s ← BS.Checked.bsSolve lu m n
      ⟨p.secondDerivativeRespectX, p.secondDerivativeRespectY, p.u, p.v, p.ome, p.psi⟩
    return { p with
      secondDerivativeRespectX := s.a
      secondDerivativeRespectY := s.b
      u := s.u
      v := s.v
      ome := s.c
      psi := s.rslt }

variable [Trig K]

-- under names, so that the numerals need no auxiliary lemmas
local instance atLeastTwo_four : Nat.AtLeastTwo 4 := ⟨Nat.le_add_left 2 2⟩

local instance atLeastTwo_thirtyTwo : Nat.AtLeastTwo 32 := ⟨Nat.le_add_left 2 30⟩

/-- `RHS` -/
def RHS (M N : ℕ) (xGrid yGrid : Vec K) (omega : Grid K) : Checked (Grid K) :=
  forUpToM 0 M omega fun i omega => forUpToM 0 N omega fun j omega => do
    let x ← xGrid.get i
    let y ← yGrid.get j
    omega.set i j (32 * Trig.pi * Trig.pi * Trig.sin (4 * Trig.pi * x) *
      Trig.sin (4 * Trig.pi * y))

/-- Border values that are zero, transformed. -/
def zeroBorder (M N : ℕ) : Checked (Boundary K) := do
  let left ← FCT.Checked.cosfft1 M ⟨M + 1, fun _ => 0⟩ .forward
  let down ← FCT.Checked.cosfft1 N ⟨N + 1, fun _ => 0⟩ .forward
  let right ← FCT.Checked.cosfft1 M ⟨M + 1, fun _ => 0⟩ .forward
  let up ← FCT.Checked.cosfft1 N ⟨N + 1, fun _ => 0⟩ .forward
  return ⟨left, down, right, up⟩

/-- **`solve`** -/
def solve [ZeroTest K] (lu : BS.EigenLU K) (p : Members K) : Checked (Members K) := do
  let p ← solveEquation lu p
  let psi ← CS.Checked.homogeneousBoundary p.M p.N p.psi
  let psi ← FCT.Checked.cft2 p.M p.N psi .forward
  return { p with psi := psi }

/-- `calls` calls of `solve`. -/
def solves [ZeroTest K] (lu : BS.EigenLU K) : ℕ → Members K → Checked (Members K)
  | 0, p => .ok p
  | calls + 1, p => do solves lu calls (← solve lu p)

variable [Scalar K]

/-- **The constructor.** -/
def new (eps : K) (M N : ℕ) (xMin xMax yMin yMax : K) (raw : PoissonProblem K) :
    Checked (Members K) := do
  let p := init M N raw
  let xGrid ← FCT.Checked.gridSpan M xMin xMax p.xGrid.cell
  let yGrid ← FCT.Checked.gridSpan N yMin yMax p.yGrid.cell
  let x ← secondOrderOperator M
  let y ← (if M ≠ N then secondOrderOperator N else pure p.secondDerivativeRespectY)
  let border ← zeroBorder M N
  let ome ← RHS M N xGrid yGrid p.ome
  let ome ← FCT.Checked.cft2 M N ome .inverse
  let p := { p with xGrid := xGrid, yGrid := yGrid, ome := ome, border := border }
  let m ← sub M 2
  if M = N then
    let (x, u) ← BS.Checked.initAu eps m x p.u
    return { p with secondDerivativeRespectX := x, secondDerivativeRespectY := y, u := u }
  else
    let n ← sub N 2
    let (x, y, u, v) ← BS.Checked.initAbuv eps m n x y p.u ⟨N + 1, N + 1, p.v.cell⟩
    return { p with secondDerivativeRespectX := x, secondDerivativeRespectY := y, u := u, v := v }

/-- **A use of the solver**: the constructor and `calls` calls of `solve`. -/
def run (eps : K) (lu : BS.EigenLU K) (M N : ℕ) (xMin xMax yMin yMax : K) (raw : PoissonProblem K)
    (calls : ℕ) : Checked (Members K) := do
  let p ← new eps M N xMin xMax yMin yMax raw
  solves lu calls p

end Definitions

/-! ### No check fails -/

/-- The members with their sizes, after the constructor: the grids have the cells `x` and `y`, and
the matrices that depend on the grid sizes have `side` rows and columns. -/
def sized (side : ℕ) (x y : ℕ → K) (p : PoissonProblem K) : Members K where
  M := p.M
  N := p.N
  xGrid := ⟨p.M + 1, x⟩
  yGrid := ⟨p.N + 1, y⟩
  ome := ⟨p.M + 1, p.N + 1, p.ome⟩
  psi := ⟨p.M + 1, p.N + 1, p.psi⟩
  secondDerivativeRespectX := ⟨p.M + 1, p.M + 1, p.secondDerivativeRespectX⟩
  secondDerivativeRespectY := ⟨side, side, p.secondDerivativeRespectY⟩
  u := ⟨p.M + 1, p.M + 1, p.u⟩
  v := ⟨side, side, p.v⟩
  border :=
    ⟨⟨p.M + 1, p.border.left⟩, ⟨p.N + 1, p.border.down⟩, ⟨p.M + 1, p.border.right⟩,
      ⟨p.N + 1, p.border.up⟩⟩

section Proofs

variable [Field K]

theorem secondOrderOperator_eq {m : ℕ} (hm : 3 ≤ m) :
    secondOrderOperator m = .ok (⟨m + 1, m + 1, PoissonProblem.secondOrderOperator m⟩ : Grid K) :=
  CS.Checked.secondDerivative_eq (by omega) hm m.lt_succ_self _

-- two intervals are too few
example : secondOrderOperator (K := K) 2 = .error .belowZero := rfl

variable [Trig K]

/-- The right-hand side, on the grid of `p`. -/
theorem RHS_eq (p : PoissonProblem K) {x y : ℕ → K} (hx : ∀ i, i ≤ p.M → x i = p.xGrid i)
    (hy : ∀ j, j ≤ p.N → y j = p.yGrid j) (omega : Mat K) :
    RHS p.M p.N ⟨p.M + 1, x⟩ ⟨p.N + 1, y⟩ ⟨p.M + 1, p.N + 1, omega⟩ =
      .ok ⟨p.M + 1, p.N + 1, p.RHS omega⟩ := by
  refine forUpToM_eq (Grid.mk _ _) ?_
  intro i _ hi omega
  refine forUpToM_eq (Grid.mk _ _) ?_
  intro j _ hj omega
  rw [← hx i hi, ← hy j hj]
  refine bind_eq (Vec.get_ok x (by omega)) (bind_eq (Vec.get_ok y (by omega)) ?_)
  exact Grid.set_ok omega _ (by omega) (by omega)

theorem zeroBorder_eq {M N : ℕ} (hM : GridSize M) (hN : GridSize N) : zeroBorder (K := K) M N = .ok
    ⟨⟨M + 1, (PoissonProblem.zeroBorder M N).left⟩,
      ⟨N + 1, (PoissonProblem.zeroBorder M N).down⟩,
      ⟨M + 1, (PoissonProblem.zeroBorder M N).right⟩,
      ⟨N + 1, (PoissonProblem.zeroBorder M N).up⟩⟩ := by
  refine bind_eq (FCT.Checked.cosfft1_eq hM M.lt_succ_self _ _) ?_
  refine bind_eq (FCT.Checked.cosfft1_eq hN N.lt_succ_self _ _) ?_
  refine bind_eq (FCT.Checked.cosfft1_eq hM M.lt_succ_self _ _) ?_
  exact bind_eq (FCT.Checked.cosfft1_eq hN N.lt_succ_self _ _) rfl

omit [Trig K] in
/-- **No check fails in the matrix equation.** -/
theorem solveEquation_eq [ZeroTest K] (lu : BS.EigenLU K) {side : ℕ} (x y : ℕ → K)
    (p : PoissonProblem K) (hM : 2 ≤ p.M) (hN : 2 ≤ p.N) (hside : p.M ≠ p.N → side = p.N + 1) :
    solveEquation lu (sized side x y p) = sized side x y <$> unchecked (p.solveEquation lu) := by
  refine bind_eq (sub_ok hM) ?_
  rw [PoissonProblem.solveEquation]
  obtain ⟨M, N, xGrid, yGrid, ome, psi, X, Y, u, v, border⟩ := p
  dsimp only at hM hN hside
  have hm : M - 2 + 1 < M + 1 := by omega
  have hn : N - 2 + 1 < N + 1 := by omega
  by_cases hMN : M = N
  · obtain rfl := hMN
    refine (if_pos rfl).trans ?_
    rw [if_pos rfl]
    refine bind_unchecked (BS.Checked.pair _ _ _ _) (sized side x y)
      (BS.Checked.bsSolveSquare_eq lu hm X u ome psi) fun s => ?_
    rfl
  · obtain rfl := hside hMN
    refine (if_neg hMN).trans (bind_eq (sub_ok hN) ?_)
    refine (bind_unchecked (BS.Checked.sized (M + 1) (N + 1)) (sized (N + 1) x y)
      (BS.Checked.bsSolve_eq lu hm hn ⟨X, Y, u, v, ome, psi⟩) fun s => ?_).trans
      (congrArg (fun r => sized (N + 1) x y <$> unchecked r) (if_neg hMN).symm)
    rfl

omit [Trig K] in
/-- The grid sizes are kept by the matrix equation. -/
theorem sizes_of_solveEquation [ZeroTest K] {lu : BS.EigenLU K} {p p' : PoissonProblem K}
    (h : p.solveEquation lu = .ok p') : p'.M = p.M ∧ p'.N = p.N := by
  rw [PoissonProblem.solveEquation] at h
  split_ifs at h
  all_goals
    obtain ⟨s, -, hs⟩ := of_bind_ok h
    cases hs
    exact ⟨rfl, rfl⟩

/-- **No check fails in `solve`.** -/
theorem solve_eq [ZeroTest K] (lu : BS.EigenLU K) {side : ℕ} (x y : ℕ → K) (p : PoissonProblem K)
    (hM : GridSize p.M) (hN : GridSize p.N) (hside : p.M ≠ p.N → side = p.N + 1) :
    solve lu (sized side x y p) = sized side x y <$> unchecked (p.solve lu) := by
  have hM₄ := hM.four_le
  have hN₄ := hN.four_le
  rw [solve, solveEquation_eq lu x y p (by omega) (by omega) hside, PoissonProblem.solve,
    PoissonProblem.solveSpectral]
  cases hrun : p.solveEquation lu with
  | error msg => rfl
  | ok p' =>
      obtain ⟨hM', hN'⟩ := sizes_of_solveEquation hrun
      have hboundary : CS.Checked.homogeneousBoundary p'.M p'.N (sized side x y p').psi =
          .ok ⟨p'.M + 1, p'.N + 1, CS.homogeneousBoundary p'.M p'.N p'.psi⟩ :=
        CS.Checked.homogeneousBoundary_eq (by omega) (by omega) p'.M.lt_succ_self
          p'.N.lt_succ_self _
      rw [← hM'] at hM
      rw [← hN'] at hN
      exact bind_eq rfl (bind_eq hboundary (bind_eq (FCT.Checked.cft2_eq hM hN _ .forward) rfl))

/-- The grid sizes are kept by `solve`. -/
theorem sizes_of_solve [ZeroTest K] {lu : BS.EigenLU K} {p p' : PoissonProblem K}
    (h : p.solve lu = .ok p') : p'.M = p.M ∧ p'.N = p.N := by
  obtain ⟨r, hr, hp'⟩ := of_bind_ok h
  obtain ⟨q, hq, hr'⟩ := of_bind_ok hr
  cases hr'
  cases hp'
  obtain ⟨hM, hN⟩ := sizes_of_solveEquation hq
  exact ⟨hM, hN⟩

/-- **No check fails in any number of calls of `solve`.** -/
theorem safe_solves [ZeroTest K] (lu : BS.EigenLU K) {side : ℕ} (x y : ℕ → K) (calls : ℕ)
    (p : PoissonProblem K) (hM : GridSize p.M) (hN : GridSize p.N)
    (hside : p.M ≠ p.N → side = p.N + 1) : Safe (solves lu calls (sized side x y p)) := by
  induction calls generalizing p with
  | zero => exact safe_map_unchecked (sized side x y) (.ok p)
  | succ calls ih =>
      rw [solves, solve_eq lu x y p hM hN hside]
      cases hrun : p.solve lu with
      | error msg => exact safe_map_unchecked (sized side x y) (.error msg)
      | ok p' =>
          obtain ⟨hM', hN'⟩ := sizes_of_solve hrun
          rw [← hM'] at hM
          rw [← hN'] at hN
          rw [← hM', ← hN'] at hside
          exact ih p' hM hN hside

/-- What the constructor computes the right-hand side from. -/
def onGrid (M N : ℕ) (xMin xMax yMin yMax : K) (raw : PoissonProblem K) : PoissonProblem K :=
  { raw with
    M := M
    N := N
    xGrid := FCT.gridSpan M xMin xMax
    yGrid := FCT.gridSpan N yMin yMax }

variable [Scalar K]

/-- The grid sizes are those of the constructor. -/
theorem sizes_of_new {eps : K} {M N : ℕ} {xMin xMax yMin yMax : K} {raw p : PoissonProblem K}
    (h : PoissonProblem.new eps M N xMin xMax yMin yMax raw = .ok p) : p.M = M ∧ p.N = N := by
  by_cases hMN : M = N
  · obtain rfl := hMN
    simp only [PoissonProblem.new, ne_eq, not_true_eq_false, if_false, if_true] at h
    obtain ⟨s, -, hs⟩ := of_bind_ok h
    cases hs
    exact ⟨rfl, rfl⟩
  · simp only [PoissonProblem.new, ne_eq, hMN, not_false_eq_true, if_true, if_false] at h
    obtain ⟨s, -, hs⟩ := of_bind_ok h
    cases hs
    exact ⟨rfl, rfl⟩

/-- **No check fails in the constructor.** -/
theorem new_eq (eps : K) {M N : ℕ} (hM : GridSize M) (hN : GridSize N) (xMin xMax yMin yMax : K)
    (raw : PoissonProblem K) : ∃ side x y, (M ≠ N → side = N + 1) ∧
      new eps M N xMin xMax yMin yMax raw = sized side x y <$>
        unchecked (PoissonProblem.new eps M N xMin xMax yMin yMax raw) := by
  have hM₄ := hM.four_le
  have hN₄ := hN.four_le
  have hM₂ : 2 ≤ M - 2 := by omega
  have hN₂ : 2 ≤ N - 2 := by omega
  have hM₁ : M - 2 + 1 < M + 1 := by omega
  have hN₁ : N - 2 + 1 < N + 1 := by omega
  have hM₀ : M - 2 < M + 1 := by omega
  have hN₀ : N - 2 < N + 1 := by omega
  obtain ⟨x, hxrun, hx⟩ := FCT.Checked.gridSpan_eq M xMin xMax raw.xGrid
  obtain ⟨y, hyrun, hy⟩ := FCT.Checked.gridSpan_eq N yMin yMax raw.yGrid
  by_cases hMN : M = N
  · obtain rfl := hMN
    refine ⟨0, x, y, fun h => absurd rfl h, ?_⟩
    refine bind_eq hxrun (bind_eq hyrun (bind_eq (secondOrderOperator_eq (by omega)) ?_))
    refine bind_eq (if_neg (not_not_intro rfl)) (bind_eq (zeroBorder_eq hM hM) ?_)
    refine bind_eq (RHS_eq (onGrid M M xMin xMax yMin yMax raw) hx hy raw.ome) ?_
    refine bind_eq (FCT.Checked.cft2_eq hM hM _ _) (bind_eq (sub_ok (by omega)) ?_)
    refine (if_pos rfl).trans ?_
    simp only [PoissonProblem.new, ne_eq, not_true_eq_false, if_false, if_true]
    exact bind_unchecked (BS.Checked.pair (M + 1) (M + 1) (M + 1) (M + 1)) (sized 0 x y)
      (BS.Checked.initAu_eq eps hM₂ hM₁ hM₁ hM₀ hM₀ _ _) fun s => rfl
  · refine ⟨N + 1, x, y, fun _ => rfl, ?_⟩
    refine bind_eq hxrun (bind_eq hyrun (bind_eq (secondOrderOperator_eq (by omega)) ?_))
    refine bind_eq ((if_pos hMN).trans (secondOrderOperator_eq (by omega))) ?_
    refine bind_eq (zeroBorder_eq hM hN) ?_
    refine bind_eq (RHS_eq (onGrid M N xMin xMax yMin yMax raw) hx hy raw.ome) ?_
    refine bind_eq (FCT.Checked.cft2_eq hM hN _ _) (bind_eq (sub_ok (by omega)) ?_)
    refine (if_neg hMN).trans (bind_eq (sub_ok (by omega)) ?_)
    simp only [PoissonProblem.new, ne_eq, hMN, not_false_eq_true, if_true, if_false]
    exact bind_unchecked _ (sized (N + 1) x y) (BS.Checked.initAbuv_eq eps hM₂ hN₂ hM₁ hM₁ hN₁ hN₁
      hM₀ hM₀ hN₀ hN₀ _ _ _ _) fun s => rfl

/-- **No check fails in any use of the solver**: for all powers of two from four on, every access is
inside its array and no unsigned number gets below zero. -/
theorem safe_run (eps : K) (lu : BS.EigenLU K) {M N : ℕ} (hM : GridSize M) (hN : GridSize N)
    (xMin xMax yMin yMax : K) (raw : PoissonProblem K) (calls : ℕ) :
    Safe (run eps lu M N xMin xMax yMin yMax raw calls) := by
  obtain ⟨side, x, y, hside, hnew⟩ := new_eq eps hM hN xMin xMax yMin yMax raw
  rw [run, hnew]
  cases hrun : PoissonProblem.new eps M N xMin xMax yMin yMax raw with
  | error msg => exact safe_map_unchecked (sized side x y) (.error msg)
  | ok p =>
      obtain ⟨hM', hN'⟩ := sizes_of_new hrun
      rw [← hM'] at hM hside
      rw [← hN'] at hN hside
      exact safe_solves lu x y calls p hM hN hside

end Proofs

/-- A grid of four by eight intervals. -/
theorem safe_run_four_eight : GridSize 4 ∧ GridSize 8 ∧ ∀ raw : PoissonProblem ℝ,
    Safe (run 0 BS.exactLU 4 8 (-1) 1 (-1) 1 raw 1) :=
  have hfour : GridSize 4 := ⟨2, le_rfl, rfl⟩
  have height : GridSize 8 := ⟨3, by decide, rfl⟩
  ⟨hfour, height, fun raw => safe_run 0 BS.exactLU hfour height (-1) 1 (-1) 1 raw 1⟩

end Chebyshev.PoissonProblem.Checked
