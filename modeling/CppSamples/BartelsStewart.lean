/-
**The Bartels–Stewart solver of `chebyshev_pseudospectral`.**

`BartelsStewart.cpp` solves the matrix equation `AᵀX + XB = -C` in four stages: the two matrices are
reduced to Hessenberg form by Householder reflections (`hshldr`), whose history is multiplied out
into orthogonal matrices (`bckmlt`); a shifted QR iteration brings them to a form with diagonal
blocks of size one and two (`schur`); the transformed equation is solved block by block (`shrslv`);
and the solution is transformed back (`bs_solve`).  The arrays are larger than the matrices they
hold: row and column `n + 1` keep the history of the reflections and are scratch space later.

An array is a function of its two indices.  The arithmetic is any one with the comparisons and the
library functions that the code calls, so the code runs over every such arithmetic and is reasoned
about over the reals.  The LU decomposition of Eigen is a parameter.

Main definitions:

* `Chebyshev.BS.hshldr`, `Chebyshev.BS.bckmlt` — the reduction to Hessenberg form;
* `Chebyshev.BS.schur` — the QR iteration;
* `Chebyshev.BS.shrslv` — the solver of the transformed equation;
* `Chebyshev.BS.initAu`, `Chebyshev.BS.initAbuv`, `Chebyshev.BS.bsSolve`,
  `Chebyshev.BS.bsSolveSquare` — the interface.
-/

import CppSamples.CountedLoop
import CppSamples.Numerals
import Mathlib.Analysis.Real.Sqrt
import Mathlib.LinearAlgebra.Matrix.Notation

set_option relaxedAutoImplicit false
set_option autoImplicit false

namespace Chebyshev

/-- The test `x == 0.0` of an arithmetic. -/
class ZeroTest (K : Type*) where
  isZero : K → Bool

/-- The comparisons and the library functions that the solver uses. -/
class Scalar (K : Type*) extends ZeroTest K where
  /-- `x < y` -/
  lt : K → K → Bool
  /-- `x <= y` -/
  le : K → K → Bool
  /-- `std::fabs` -/
  fabs : K → K
  /-- `std::sqrt` -/
  sqrt : K → K
  /-- `std::copysign` -/
  copysign : K → K → K
  /-- the literal `1.5` -/
  threeHalves : K

open Classical in
noncomputable instance : Scalar ℝ where
  isZero x := decide (x = 0)
  lt x y := decide (x < y)
  le x y := decide (x ≤ y)
  fabs x := |x|
  sqrt := Real.sqrt
  copysign x y := if y < 0 then -|x| else |x|
  threeHalves := 3 / 2

/-- A two-dimensional array. -/
abbrev Mat (K : Type*) := ℕ × ℕ → K

/-- `Identity` -/
def identity (K : Type*) [Zero K] [One K] : Mat K := fun x => if x.1 = x.2 then 1 else 0

namespace BS

open CountedLoop Function ZeroTest Scalar

variable {K : Type*} [Zero K] [One K] [Add K] [Sub K] [Mul K] [Div K] [Neg K]

/-! ### `hshldr` and `bckmlt` -/

section Householder

variable [Scalar K]

/-- The largest absolute value of column `l` below the diagonal. -/
def columnMax (n l : ℕ) (a : Mat K) : K :=
  forUpTo (l + 1) n 0 fun i max =>
    let s := fabs (a (i, l))
    if lt max s then s else max

/-- Scaling column `l` below the diagonal by `max`; the sum of its squares comes with it. -/
def scaleColumn (n l : ℕ) (max : K) (a : Mat K) : K × Mat K :=
  forUpTo (l + 1) n (0, a) fun i t =>
    let s := t.2 (i, l) / max
    (t.1 + s * s, update t.2 (i, l) s)

/-- The reflection with the vector in column `l` of `a`, applied to column `j` of `b`. -/
def reflectColumn (n l : ℕ) (a : Mat K) (j : ℕ) (b : Mat K) : Mat K :=
  let sum := forUpTo (l + 1) n 0 fun i sum => sum + a (i, l) * b (i, j)
  let p := sum / a (n + 1, l)
  forUpTo (l + 1) n b fun i b => update b (i, j) (b (i, j) - a (i, l) * p)

/-- The reflection with the vector in column `l`, applied to row `i`. -/
def reflectRow (n l i : ℕ) (a : Mat K) : Mat K :=
  let sum := forUpTo (l + 1) n 0 fun j sum => sum + a (i, j) * a (j, l)
  let p := sum / a (n + 1, l)
  forUpTo (l + 1) n a fun j a => update a (i, j) (a (i, j) - p * a (j, l))

/-- One pass of `hshldr`: column `l` is reflected onto its first entry below the diagonal, which
goes to column `n + 1`; the vector of the reflection stays below the diagonal and its divisor goes
to row `n + 1`. -/
def hshldrAt (n l : ℕ) (a : Mat K) : Mat K :=
  let max := columnMax n l a
  if isZero max then update (update a (n + 1, l) 0) (l, n + 1) 0
  else
    let (sum, a) := scaleColumn n l max a
    let s := copysign (Scalar.sqrt sum) (a (l + 1, l))
    let a := update a (l, n + 1) (-max * s)
    let p := a (l + 1, l) + s
    let a := update a (l + 1, l) p
    let a := update a (n + 1, l) (p * s)
    let a := forUpTo (l + 1) n a fun j a => reflectColumn n l a j a
    forUpTo 0 n a fun i a => reflectRow n l i a

/-- **Reduction to Hessenberg form.** -/
def hshldr (n : ℕ) (a : Mat K) : Mat K :=
  let a := forUpTo 0 (n - 2) a (hshldrAt n)
  update a (n - 1, n + 1) (a (n, n - 1))

/-- One pass of `bckmlt`, for the reflection of column `l`. -/
def bckmltAt (n : ℕ) (a : Mat K) (l : ℕ) (u : Mat K) : Mat K :=
  let u := if isZero (a (n + 1, l)) then u
    else forUpTo (l + 1) n u fun j u => reflectColumn n l a j u
  let u := forUpTo (l + 1) n u fun i u => update (update u (l, i) 0) (i, l) 0
  update u (l, l) 1

/-- **The orthogonal matrix of the reduction**, from the history that `hshldr` leaves in `a`. -/
def bckmlt (n : ℕ) (a u : Mat K) : Mat K :=
  let u := update (update u (n - 1, n - 1) 1) (n, n) 1
  let u := update (update u (n, n - 1) 0) (n - 1, n) 0
  forDownTo (n - 2) 0 u (bckmltAt n a)

end Householder

/-! ### `schur` -/

section Schur

variable [Scalar K]

/-- The norm `hn`: the largest row sum of absolute values on and above the subdiagonal. -/
def hessenbergNorm (n : ℕ) (h : Mat K) : K :=
  forUpTo 0 n 0 fun i hn =>
    let jl := if 1 < i then i - 1 else 0
    let rsum := forUpTo jl n 0 fun j rsum => rsum + fabs (h (i, j))
    if lt hn rsum then rsum else hn

/-- The search for a small subdiagonal entry `h(l, l - 1)`, from `l = n` down; zero if there is
none. -/
def smallSubdiagonal (test : K) (h : Mat K) : ℕ → ℕ
  | 0 => 0
  | l + 1 => if le (fabs (h (l + 1, l))) test then l + 1 else smallSubdiagonal test h l

/-- The small subdiagonal entry is set to zero. -/
def deflate (l : ℕ) (h : Mat K) : Mat K := if l = 0 then h else update h (l, l - 1) 0

/-- The sum `s` and the product `y` of the two shifts. -/
def shifts (hn : K) (n its : ℕ) (h : Mat K) : K × K :=
  let na := n - 1
  let x := h (n, n) / hn
  let y := h (na, na) / hn
  let r := h (n, na) / hn * (h (na, n) / hn)
  if its % 10 = 0 ∧ its ≠ 0 then
    let y := (fabs (h (n, na)) + fabs (h (na, na - 1))) / hn
    (threeHalves * y, y * y)
  else (x + y, x * y - r)

/-- The three components `p`, `q`, `r` of a vector that a reflection is made from. -/
structure Vec3 (K : Type*) where
  p : K
  q : K
  r : K

/-- `std::fabs(p) + std::fabs(q) + std::fabs(r)` -/
def Vec3.norm1 (v : Vec3 K) : K := fabs v.p + fabs v.q + fabs v.r

/-- `p /= w; q /= w; r /= w;` -/
def Vec3.scale (w : K) (v : Vec3 K) : Vec3 K := ⟨v.p / w, v.q / w, v.r / w⟩

/-- The first column of the shifted square of the block that starts at `m`, scaled. -/
def startVector (hn : K) (sy : K × K) (h : Mat K) (m : ℕ) : Vec3 K :=
  let (s, y) := sy
  let x := h (m, m) / hn
  let r := h (m + 1, m) / hn
  let z := h (m + 1, m + 1) / hn
  let v : Vec3 K := ⟨x * (x - s) + y + r * (h (m, m + 1) / hn), r * (x + z - s),
    r * (h (m + 2, m + 1) / hn)⟩
  v.scale v.norm1

/-- The row `m` that a sweep starts at, from `m = n - 2` down to `l`, and its vector. -/
def startRow (hn test : K) (sy : K × K) (h : Mat K) (l : ℕ) : ℕ → ℕ × Vec3 K
  | 0 => (0, startVector hn sy h 0)
  | m + 1 =>
    let v := startVector hn sy h (m + 1)
    if m + 1 = l ∨ le (fabs (h (m + 1, m)) * (fabs v.q + fabs v.r)) (fabs v.p * test) then (m + 1, v)
    else startRow hn test sy h l m

/-- The entries two and three places below the diagonal are cleared. -/
def clearBelow (n m : ℕ) (h : Mat K) : Mat K :=
  let h := forUpTo (m + 2) n h fun i h => update h (i, i - 2) 0
  forUpTo (m + 3) n h fun i h => update h (i, i - 3) 0

/-- The reflection `x`, `y`, `z`, `q`, `r` of rows `k`, `k + 1` and, unless it is the last one,
`k + 2`. -/
structure Reflector (K : Type*) where
  x : K
  y : K
  z : K
  q : K
  r : K

/-- The signed length `s` of a vector. -/
def Vec3.length (v : Vec3 K) : K :=
  let s := Scalar.sqrt (v.p * v.p + v.q * v.q + v.r * v.r)
  if lt v.p 0 then -s else s

/-- `p += s; x = p/s; y = q/s; z = r/s; q /= p; r /= p;` -/
def Vec3.reflector (v : Vec3 K) : Reflector K :=
  let s := v.length
  let p := v.p + s
  ⟨p / s, v.q / s, v.r / s, v.q / p, v.r / p⟩

/-- The reflection, applied to column `j`. -/
def Reflector.onColumn (g : Reflector K) (notlast : Bool) (k j : ℕ) (h : Mat K) : Mat K :=
  let p := h (k, j) + g.q * h (k + 1, j)
  let p' := if notlast then p + g.r * h (k + 2, j) else p
  let h := if notlast then update h (k + 2, j) (h (k + 2, j) - p' * g.z) else h
  let h := update h (k + 1, j) (h (k + 1, j) - p' * g.y)
  update h (k, j) (h (k, j) - p' * g.x)

/-- The reflection, applied to row `i`. -/
def Reflector.onRow (g : Reflector K) (notlast : Bool) (k i : ℕ) (h : Mat K) : Mat K :=
  let p := g.x * h (i, k) + g.y * h (i, k + 1)
  let p' := if notlast then p + g.z * h (i, k + 2) else p
  let h := if notlast then update h (i, k + 2) (h (i, k + 2) - p' * g.r) else h
  let h := update h (i, k + 1) (h (i, k + 1) - p' * g.q)
  update h (i, k) (h (i, k) - p')

/-- A reflection of the sweep on the rows of `h`, the columns of `h` and the columns of `u`. -/
def Reflector.apply (g : Reflector K) (nn n k : ℕ) (s : Mat K × Mat K) : Mat K × Mat K :=
  let notlast := decide (k ≠ n - 1)
  let h := forUpTo k nn s.1 (g.onColumn notlast k)
  let j := if k + 3 < n then k + 3 else n
  (forUpTo 0 j h (g.onRow notlast k), forUpTo 0 nn s.2 (g.onRow notlast k))

/-- The column that the bulge of the sweep is chased from. -/
def bulgeVector (n k : ℕ) (h : Mat K) : Vec3 K :=
  ⟨h (k, k - 1), h (k + 1, k - 1), if k ≠ n - 1 then h (k + 2, k - 1) else 0⟩

/-- One pass of a sweep that starts at row `m` with the vector `v` on the block from `l` to `n`. -/
def sweepAt (nn n l m : ℕ) (v : Vec3 K) (k : ℕ) (s : Mat K × Mat K) : Mat K × Mat K :=
  if k = m then
    let h := if l ≠ m then update s.1 (k, k - 1) (-s.1 (k, k - 1)) else s.1
    v.reflector.apply nn n k (h, s.2)
  else
    let b := bulgeVector n k s.1
    let x := b.norm1
    if isZero x then s
    else
      let b := b.scale x
      let h := update s.1 (k, k - 1) (-b.length * x)
      b.reflector.apply nn n k (h, s.2)

/-- A double QR sweep on the block from `l` to `n`. -/
def sweep (hn test : K) (nn n l its : ℕ) (s : Mat K × Mat K) : Mat K × Mat K :=
  let (m, v) := startRow hn test (shifts hn n its s.1) s.1 l (n - 2)
  forUpTo m (n - 1) (clearBelow n m s.1, s.2) (sweepAt nn n l m v)

/-- `MAXITER` -/
def maxIter : ℕ := 150

omit [One K] [Add K] [Sub K] [Mul K] [Div K] [Neg K] [Zero K] in
theorem smallSubdiagonal_le (test : K) (h : Mat K) (n : ℕ) : smallSubdiagonal test h n ≤ n := by
  induction n with
  | zero => exact le_rfl
  | succ n ih =>
      rw [smallSubdiagonal]
      split_ifs
      · exact le_rfl
      · exact ih.trans n.le_succ

/-- The iterations on the block that ends at `n`; a counter that would get below zero stays at
zero, where the iteration stops as well. -/
def iterate (hn test : K) (nn n its : ℕ) (s : Mat K × Mat K) : Bool × Mat K × Mat K :=
  if hn₀ : n = 0 then (true, s)
  else
    let l := smallSubdiagonal test s.1 n
    let h := deflate l s.1
    if n - 1 ≤ l then iterate hn test nn (l - 1) 0 (h, s.2)
    else if hits : maxIter ≤ its then (false, h, s.2)
    else iterate hn test nn n (its + 1) (sweep hn test nn n l its (h, s.2))
  termination_by (n, maxIter - its)
  decreasing_by
  · have hl := smallSubdiagonal_le test s.1 n
    exact Prod.Lex.left _ _ (by omega)
  · exact Prod.Lex.right _ (by omega)

/-- **The QR iteration** on `h`, collected in `u`; entries up to `eps` times the norm are taken for
zero. -/
def schur (nn : ℕ) (eps : K) (h u : Mat K) : Bool × Mat K × Mat K :=
  let hn := hessenbergNorm nn h
  let test := eps * hn
  if isZero hn then (true, h, u) else iterate hn test nn nn 0 (h, u)

end Schur

/-! ### `init_au` and `init_abuv` -/

section Init

variable [Scalar K]

/-- The subdiagonal, back from column `m + 1`. -/
def restoreSubdiagonal (m : ℕ) (a : Mat K) : Mat K :=
  forBelow 0 m a fun i a => update a (i + 1, i) (a (i, m + 1))

/-- **The Schur form of one matrix**; `eps` is the default argument of `schur`. -/
def initAu (eps : K) (m : ℕ) (a u : Mat K) : Except String (Mat K × Mat K) :=
  let a := hshldr m a
  let u := bckmlt m a u
  let a := restoreSubdiagonal m a
  let (ok, a, u) := schur m eps a u
  if ok then .ok (a, u) else .error "** SCHUR FAILED!"

/-- The leading block of an array is transposed in place. -/
def transposeInPlace (m : ℕ) (a : Mat K) : Mat K :=
  forUpTo 0 m a fun i a =>
    forUpTo (i + 1) m a fun j a => update (update a (i, j) (a (j, i))) (j, i) (a (i, j))

/-- **The Schur forms of two matrices**, the first one transposed; `eps` is the default argument of
`schur`. -/
def initAbuv (eps : K) (m n : ℕ) (a b u v : Mat K) :
    Except String (Mat K × Mat K × Mat K × Mat K) := do
  let (a, u) ← initAu eps m a u
  let a := transposeInPlace m a
  let (b, v) ← initAu eps n b v
  return (a, b, u, v)

end Init

/-! ### `shrslv` -/

section Solve

variable [ZeroTest K]

/-- `Eigen`'s LU solvers for the systems of size two and four. -/
structure EigenLU (K : Type*) where
  solve2 : Matrix (Fin 2) (Fin 2) K → (Fin 2 → K) → Fin 2 → K
  solve4 : Matrix (Fin 4) (Fin 4) K → (Fin 4 → K) → Fin 4 → K

/-- The size of the block of columns at `l`. -/
def columnBlock (n : ℕ) (b : Mat K) (l : ℕ) : ℕ :=
  if l ≠ n ∧ isZero (b (l + 1, l)) = false then 2 else 1

/-- The size of the block of rows at `k`. -/
def rowBlock (m : ℕ) (a : Mat K) (k : ℕ) : ℕ :=
  if k ≠ m ∧ isZero (a (k, k + 1)) = false then 2 else 1

/-- The system of a block of two rows and two columns. -/
def system22 (a b : Mat K) (k l : ℕ) : Matrix (Fin 4) (Fin 4) K :=
  !![a (k, k) + b (l, l), a (k, k + 1), b (l + 1, l), 0;
     a (k + 1, k), a (k + 1, k + 1) + b (l, l), 0, b (l + 1, l);
     b (l, l + 1), 0, a (k, k) + b (l + 1, l + 1), a (k, k + 1);
     0, b (l, l + 1), a (k + 1, k), a (k + 1, k + 1) + b (l + 1, l + 1)]

/-- The system of a block of two rows and one column. -/
def system21 (a b : Mat K) (k l : ℕ) : Matrix (Fin 2) (Fin 2) K :=
  !![a (k, k) + b (l, l), a (k, k + 1); a (k + 1, k), a (k + 1, k + 1) + b (l, l)]

/-- The system of a block of one row and two columns. -/
def system12 (a b : Mat K) (k l : ℕ) : Matrix (Fin 2) (Fin 2) K :=
  !![a (k, k) + b (l, l), b (l + 1, l); b (l, l + 1), a (k, k) + b (l + 1, l + 1)]

/-- The solution of the system of one block. -/
def solveBlock (lu : EigenLU K) (a b : Mat K) (k dk l dl : ℕ) (c : Mat K) : Except String (Mat K) :=
  if dk = 2 then
    if dl = 2 then
      let pp := lu.solve4 (system22 a b k l)
        ![c (k, l), c (k + 1, l), c (k, l + 1), c (k + 1, l + 1)]
      let c := update (update c (k, l) (pp 0)) (k + 1, l) (pp 1)
      .ok (update (update c (k, l + 1) (pp 2)) (k + 1, l + 1) (pp 3))
    else
      let pp := lu.solve2 (system21 a b k l) ![c (k, l), c (k + 1, l)]
      .ok (update (update c (k, l) (pp 0)) (k + 1, l) (pp 1))
  else if dl = 2 then
    let pp := lu.solve2 (system12 a b k l) ![c (k, l), c (k, l + 1)]
    .ok (update (update c (k, l) (pp 0)) (k, l + 1) (pp 1))
  else
    let t := a (k, k) + b (l, l)
    if isZero t then .error "** SHRSLV:unable to solve" else .ok (update c (k, l) (c (k, l) / t))

/-- The solved columns, subtracted from the block of columns at `l`. -/
def subtractColumns (m l dl : ℕ) (b c : Mat K) : Mat K :=
  if l = 0 then c
  else
    forUpTo l (l + dl - 1) c fun j c => forUpTo 0 m c fun i c => forBelow 0 l c fun ib c =>
      update c (i, j) (c (i, j) - c (i, ib) * b (ib, j))

/-- The solved rows, subtracted from the block of rows at `k` in the block of columns at `l`. -/
def subtractRows (k dk l dl : ℕ) (a c : Mat K) : Mat K :=
  if k = 0 then c
  else
    forUpTo k (k + dk - 1) c fun i c => forUpTo l (l + dl - 1) c fun j c => forBelow 0 k c fun ja c =>
      update c (i, j) (c (i, j) - a (i, ja) * c (ja, j))

/-- The blocks of rows from `k` on, in the block of columns at `l`. -/
def solveRows (lu : EigenLU K) (m : ℕ) (a b : Mat K) (l dl k : ℕ) (c : Mat K) :
    Except String (Mat K) := do
  let dk := rowBlock m a k
  let c := subtractRows k dk l dl a c
  let c ← solveBlock lu a b k dk l dl c
  if k + dk ≤ m then solveRows lu m a b l dl (k + dk) c else return c
  termination_by m + 1 - k
  decreasing_by
    have hdk : 0 < rowBlock m a k := by
      rw [rowBlock]
      split_ifs <;> omega
    omega

/-- The blocks of columns from `l` on. -/
def solveColumns (lu : EigenLU K) (m n : ℕ) (a b : Mat K) (l : ℕ) (c : Mat K) :
    Except String (Mat K) := do
  let dl := columnBlock n b l
  let c := subtractColumns m l dl b c
  let c ← solveRows lu m a b l dl 0 c
  if l + dl ≤ n then solveColumns lu m n a b (l + dl) c else return c
  termination_by n + 1 - l
  decreasing_by
    have hdl : 0 < columnBlock n b l := by
      rw [columnBlock]
      split_ifs <;> omega
    omega

/-- **The transformed equation**: `a` has blocks on its lower side, `b` on its upper side. -/
def shrslv (lu : EigenLU K) (m n : ℕ) (a b c : Mat K) : Except String (Mat K) :=
  solveColumns lu m n a b 0 c

/-! ### `bs_solve` -/

/-- The arrays of `bs_solve`. -/
structure Arrays (K : Type*) where
  a : Mat K
  b : Mat K
  u : Mat K
  v : Mat K
  c : Mat K
  rslt : Mat K

/-- Column `j` of the result by way of column `m + 1` of `a`, where its entries are accumulated. -/
def throughColumn (m j : ℕ) (add : ℕ → ℕ → Arrays K → K → K) (s : Arrays K) : Arrays K :=
  let s := forUpTo 0 m s fun i s =>
    let s := { s with a := update s.a (i, m + 1) 0 }
    forUpTo 0 m s fun k s => { s with a := update s.a (i, m + 1) (add i k s (s.a (i, m + 1))) }
  forUpTo 0 m s fun i s => { s with rslt := update s.rslt (i, j) (s.a (i, m + 1)) }

/-- Row `i` of the result by way of row `n + 1` of `b`, where its entries are accumulated. -/
def throughRow (n i : ℕ) (add : ℕ → ℕ → Arrays K → K → K) (s : Arrays K) : Arrays K :=
  let s := forUpTo 0 n s fun j s =>
    let s := { s with b := update s.b (n + 1, j) 0 }
    forUpTo 0 n s fun k s => { s with b := update s.b (n + 1, j) (add j k s (s.b (n + 1, j))) }
  forUpTo 0 n s fun j s => { s with rslt := update s.rslt (i, j) (s.b (n + 1, j)) }

/-- The right-hand side in the new coordinates. -/
def transformRhs (m n : ℕ) (s : Arrays K) : Arrays K :=
  let s := forUpTo 0 n s fun j s =>
    throughColumn m j (fun i k s sum => sum - s.u (k, i) * s.c (k, j)) s
  forUpTo 0 m s fun i s => throughRow n i (fun j k s sum => sum + s.rslt (i, k) * s.v (k, j)) s

/-- The solution in the old coordinates. -/
def transformBack (m n : ℕ) (s : Arrays K) : Arrays K :=
  let s := forUpTo 0 n s fun j s =>
    throughColumn m j (fun i k s sum => sum + s.u (i, k) * s.rslt (k, j)) s
  forUpTo 0 m s fun i s => throughRow n i (fun j k s sum => sum + s.rslt (i, k) * s.v (j, k)) s

/-- **The solver**, with the arrays that `init_abuv` has prepared. -/
def bsSolve (lu : EigenLU K) (m n : ℕ) (s : Arrays K) : Except String (Arrays K) := do
  let s := transformRhs m n s
  let rslt ← shrslv lu m n s.a s.b s.rslt
  return transformBack m n { s with rslt := rslt }

/-- **The solver with one matrix**, with the arrays that `init_au` has prepared; only `a` and `rslt`
of the caller's arrays are written. -/
def bsSolveSquare (lu : EigenLU K) (m : ℕ) (a u c rslt : Mat K) : Except String (Mat K × Mat K) := do
  -- `b` is the second derivative in `x`, `a` the one in `y`
  let b : Mat K := fun x => a (x.2, x.1)
  let s ← bsSolve lu m m ⟨b, a, u, u, c, rslt⟩
  return (s.b, s.rslt)

end Solve

end BS

end Chebyshev
