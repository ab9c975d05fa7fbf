/-
**Spectral differentiation and boundary conditions of `chebyshev_pseudospectral`.**

`ChebyshevDifferentiate.cpp` works on the coefficients of Chebyshev expansions:
`spectral_differentiate` computes the coefficients of the derivative by a recurrence from the
highest degree down, `homogeneous_boundary` chooses the two highest coefficients of every row and
every column so that the expansion vanishes on the boundary, and `second_derivative` applies the
first one twice to every row after the second.

The input and the output of the differentiation may be the same vector, so the input is given by
what it looks like when the output has been written so far.

Main definitions:

* `Chebyshev.CS.spectralDifferentiate` — the coefficients of the derivative, and
  `Chebyshev.CS.spectralDifferentiateInPlace`;
* `Chebyshev.CS.homogeneousBoundary` — the boundary conditions;
* `Chebyshev.CS.secondDerivative` — the second derivative of every row.
-/

import CppSamples.BartelsStewart
import Mathlib.Algebra.Field.Basic

set_option relaxedAutoImplicit false
set_option autoImplicit false

namespace Chebyshev.CS

open CountedLoop Function

/-! ### Differentiation -/

section Differentiate

variable {K : Type*} [Field K]

/-- `spectral_differentiate`, with the input `read out` when the output is `out`. -/
def differentiate (n : ℕ) (read : (ℕ → K) → ℕ → K) (out : ℕ → K) (span : K) : ℕ → K :=
  let temp1 := read out (n - 1)
  let temp2 := read out (n - 2)
  let out := update out (n - 1) (2 * n * read out n * span)
  let out := update out (n - 2) (2 * (n - 1 : ℕ) * temp1 * span)
  let (temp2, out) := forDownTo (n - 3) 1 (temp2, out) fun j s =>
    let (temp2, out) := s
    let temp1 := read out j
    (temp1, update out j (out (j + 2) + 2 * (j + 1 : ℕ) * temp2 * span))
  let out := update out 0 (1 / 2 * out 2 + temp2 * span)
  update out n 0

/-- **The coefficients of the derivative**, in another vector. -/
def spectralDifferentiate (n : ℕ) (a out : ℕ → K) (span : K) : ℕ → K :=
  differentiate n (fun _ => a) out span

/-- **The coefficients of the derivative**, in the same vector. -/
def spectralDifferentiateInPlace (n : ℕ) (inout : ℕ → K) (span : K) : ℕ → K :=
  differentiate n (fun out => out) inout span

end Differentiate

/-! ### Boundary conditions -/

section Boundary

variable {K : Type*} [AddCommGroup K]

/-- The sums of a line over the odd and the even places `1, 2, …` with counters below `bound`, both
with a minus sign. -/
def negSums (bound : ℕ) (line : ℕ → K) : K × K :=
  forBelowBy 2 1 bound (0, 0) fun j s => (s.1 - line j, s.2 - line (j + 1))

/-- The last two entries of row `i`. -/
def closeRow (n bound i : ℕ) (a : Mat K) : Mat K :=
  let (odds, evens) := negSums bound fun j => a (i, j)
  let a := update a (i, n - 1) odds
  update a (i, n) (evens - a (i, 0))

/-- The last two entries of column `i`. -/
def closeColumn (m bound i : ℕ) (a : Mat K) : Mat K :=
  let (odds, evens) := negSums bound fun j => a (j, i)
  let a := update a (m - 1, i) odds
  update a (m, i) (evens - a (0, i))

/-- **The boundary conditions**: the last two entries of every row and every column. -/
def homogeneousBoundary (m n : ℕ) (a : Mat K) : Mat K :=
  let a := forUpTo 0 (m - 2) a fun i a => closeRow n (n - 2 + 1) i a
  let a := forUpTo 0 (n - 2) a fun i a => closeColumn m (m - 2) i a
  let a := closeRow n (n - 2) (m - 1) a
  let (odds, evens) := forBelowBy 2 0 m (0, 0) fun i s =>
    (s.1 - a (i, n - 1), s.2 - a (i, n))
  let a := update a (m, n - 1) odds
  update a (m, n) evens

/-- **The boundary conditions**, in another matrix: the input is copied unless the two matrices, of
`rows` rows and `cols` columns, are equal. -/
def homogeneousBoundaryTo [DecidableEq K] (rows cols m n : ℕ) (a out : Mat K) : Mat K :=
  let out := if ∀ i < rows, ∀ j < cols, out (i, j) = a (i, j) then out
    else fun x => if x.1 < rows ∧ x.2 < cols then a x else out x
  homogeneousBoundary m n out

end Boundary

/-- **The second derivative of every row**, after the boundary conditions. -/
def secondDerivative {K : Type*} [Field K] (m n : ℕ) (a : Mat K) : Mat K :=
  forUpTo 0 m (homogeneousBoundary m n a) fun i a =>
    let row := spectralDifferentiateInPlace n (fun j => a (i, j)) 1
    let row := spectralDifferentiateInPlace n row 1
    fun x => if x.1 = i ∧ x.2 ≤ n then row x.2 else a x

end Chebyshev.CS
