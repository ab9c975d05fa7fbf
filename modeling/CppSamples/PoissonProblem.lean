/-
**The Poisson solver of `chebyshev_pseudospectral`.**

`PoissonProblem.cpp` solves `ΔΨ = -ω` on a rectangle with `Ψ = 0` on its boundary.  The constructor
builds the grids, the second derivatives with boundary conditions, the right-hand side and its
Chebyshev coefficients, and prepares the matrix solver; `solve` solves the matrix equation for the
coefficients of the solution, chooses the last two rows and columns by the boundary conditions and
transforms the result to the grid.  With as many intervals each way there is one second derivative
and one orthogonal matrix for both directions.

The storage that the members have before the constructor runs is a parameter, and so is the `eps`
of the QR iteration.

Main definitions:

* `Chebyshev.PoissonProblem` — the members;
* `Chebyshev.PoissonProblem.new` — the constructor;
* `Chebyshev.PoissonProblem.solveSpectral`, `Chebyshev.PoissonProblem.solve` — `solve`, up to its
  last transform and as a whole.
-/

import CppSamples.ChebyshevDifferentiate
import CppSamples.CosineTransform

set_option relaxedAutoImplicit false
set_option autoImplicit false

namespace Chebyshev

open CountedLoop Function

/-- `PoissonProblem::Boundary` -/
structure Boundary (K : Type*) where
  left : ℕ → K
  down : ℕ → K
  right : ℕ → K
  up : ℕ → K

/-- The members of `PoissonProblem`. -/
structure PoissonProblem (K : Type*) where
  /-- grid size along `x` -/
  M : ℕ
  /-- grid size along `y` -/
  N : ℕ
  xGrid : ℕ → K
  yGrid : ℕ → K
  /-- the right-hand side -/
  ome : Mat K
  /-- the unknown -/
  psi : Mat K
  secondDerivativeRespectX : Mat K
  /-- only with different grid sizes -/
  secondDerivativeRespectY : Mat K
  u : Mat K
  /-- only with different grid sizes -/
  v : Mat K
  border : Boundary K

namespace PoissonProblem

section Constructor

variable {K : Type*} [Field K]

/-- `second_order_operator` -/
def secondOrderOperator (m : ℕ) : Mat K := CS.secondDerivative m m (identity K)

variable [Trig K]

/-- `RHS`, on the grid of `p` -/
def RHS (p : PoissonProblem K) (omega : Mat K) : Mat K :=
  forUpTo 0 p.M omega fun i omega => forUpTo 0 p.N omega fun j omega =>
    update omega (i, j) (32 * Trig.pi * Trig.pi * Trig.sin (4 * Trig.pi * p.xGrid i) *
      Trig.sin (4 * Trig.pi * p.yGrid j))

/-- Border values that are zero, transformed. -/
def zeroBorder (M N : ℕ) : Boundary K where
  left := FCT.cosfft1 M (fun _ => 0) .forward
  down := FCT.cosfft1 N (fun _ => 0) .forward
  right := FCT.cosfft1 M (fun _ => 0) .forward
  up := FCT.cosfft1 N (fun _ => 0) .forward

variable [Scalar K]

/-- **The constructor**, on members with any content. -/
def new (eps : K) (M N : ℕ) (xMin xMax yMin yMax : K) (raw : PoissonProblem K) :
    Except String (PoissonProblem K) := do
  let p := { raw with
    M := M
    N := N
    xGrid := FCT.gridSpan M xMin xMax
    yGrid := FCT.gridSpan N yMin yMax
    secondDerivativeRespectX := secondOrderOperator M }
  let p := if M ≠ N then { p with secondDerivativeRespectY := secondOrderOperator N } else p
  let p := { p with border := zeroBorder M N }
  let p := { p with ome := p.RHS p.ome }
  let p := { p with ome := FCT.cft2 M N p.ome .inverse }
  if M = N then
    let (x, u) ← BS.initAu eps (M - 2) p.secondDerivativeRespectX p.u
    return { p with secondDerivativeRespectX := x, u := u }
  else
    let (x, y, u, v) ← BS.initAbuv eps (M - 2) (N - 2) p.secondDerivativeRespectX
      p.secondDerivativeRespectY p.u p.v
    return { p with secondDerivativeRespectX := x, secondDerivativeRespectY := y, u := u, v := v }

end Constructor

section Solve

variable {K : Type*} [Field K] [ZeroTest K]

/-- The matrix equation of `solve`. -/
def solveEquation (lu : BS.EigenLU K) (p : PoissonProblem K) : Except String (PoissonProblem K) :=
  if p.M = p.N then do
    let (x, psi) ← BS.bsSolveSquare lu (p.M - 2) p.secondDerivativeRespectX p.u p.ome p.psi
    return { p with secondDerivativeRespectX := x, psi := psi }
  else do
    let s ← BS.bsSolve lu (p.M - 2) (p.N - 2)
      ⟨p.secondDerivativeRespectX, p.secondDerivativeRespectY, p.u, p.v, p.ome, p.psi⟩
    return { p with
      secondDerivativeRespectX := s.a
      secondDerivativeRespectY := s.b
      u := s.u
      v := s.v
      ome := s.c
      psi := s.rslt }

/-- `solve` before its last transform: the Chebyshev coefficients of the solution. -/
def solveSpectral (lu : BS.EigenLU K) (p : PoissonProblem K) :
    Except String (PoissonProblem K) := do
  let p ← p.solveEquation lu
  return { p with psi := CS.homogeneousBoundary p.M p.N p.psi }

/-- **`solve`**, with the solution on the grid. -/
def solve [Trig K] (lu : BS.EigenLU K) (p : PoissonProblem K) :
    Except String (PoissonProblem K) := do
  let p ← p.solveSpectral lu
  return { p with psi := FCT.cft2 p.M p.N p.psi .forward }

end Solve

end PoissonProblem

end Chebyshev
