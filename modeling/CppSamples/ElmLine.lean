/-
**The panels of `body_ax`.**

`elm_line.tcc` divides a straight segment into `n` elements whose lengths grow geometrically from
the first point on (`isym == 0`), or from both ends to the middle.  It finds the length of the first
element in closed form, marches along the segment with a running step that is multiplied by `alpha`
and, after the middle, divided by it, and keeps the arc length of every node.  The same routine puts
a node in the middle of every element.

The arithmetic is any one with the comparison and the library functions that the code calls.

Main definitions:

* `BodyAx.Lib` — that comparison, those functions and the literals;
* `BodyAx.Nodes` — the arrays of end-nodes or mid-nodes;
* `BodyAx.March`, `BodyAx.elementAt` — a pass of the loops over the end-nodes;
* `BodyAx.elmLine` — the discretisation.
-/

import CppSamples.CountedLoop
import CppSamples.Numerals
import Mathlib.Analysis.SpecialFunctions.Pow.Real

set_option relaxedAutoImplicit false
set_option autoImplicit false

namespace BodyAx

open CountedLoop Function

/-- The comparison, the library functions and the literals that the code uses. -/
class Lib (T : Type*) where
  /-- `x == y` -/
  eq : T → T → Bool
  /-- `std::sqrt` -/
  sqrt : T → T
  /-- `std::pow` -/
  pow : T → T → T
  /-- `HALF<T>` -/
  half : T
  /-- `TWO<T>` -/
  two : T

open Classical in
noncomputable instance : Lib ℝ where
  eq x y := decide (x = y)
  sqrt := Real.sqrt
  pow x y := x ^ y
  half := 1 / 2
  two := 2

open Lib

variable {T : Type*} [One T] [Add T] [Sub T] [Mul T] [Div T] [NatCast T] [Lib T]

/-- The coordinates and the arc lengths of a list of nodes: `xe`, `ye` and `se`, or `xm`, `ym` and
`sm`. -/
structure Nodes (T : Type*) where
  x : ℕ → T
  y : ℕ → T
  s : ℕ → T

/-- Node `i` is stored. -/
def Nodes.set (e : Nodes T) (i : ℕ) (x y s : T) : Nodes T :=
  ⟨update e.x i x, update e.y i y, update e.s i s⟩

/-! ### The march along the segment -/

/-- The end-nodes so far and the running step. -/
structure March (T : Type*) where
  deltax : T
  deltay : T
  e : Nodes T

/-- One pass of a loop over the end-nodes: node `i` is one step away from the node before it, and
the step becomes the `next` one. -/
def elementAt (next : T → T) (i : ℕ) (t : March T) : March T :=
  { deltax := next t.deltax
    deltay := next t.deltay
    e := t.e.set i (t.e.x (i - 1) + t.deltax) (t.e.y (i - 1) + t.deltay)
      (t.e.s (i - 1) + sqrt (t.deltax * t.deltax + t.deltay * t.deltay)) }

/-- The running step is changed between two loops. -/
def March.rescale (t : March T) (w : T) : March T :=
  { t with deltax := t.deltax / w, deltay := t.deltay / w }

/-- `alpha` and `factor` of `n` elements that grow from the first to the last. -/
def growth (n : ℕ) (ratio : T) : T × T :=
  if eq ratio 1 then (1, 1 / (n : T))
  else
    let texp := 1 / ((n : T) - 1)
    let alpha := pow ratio texp
    (alpha, (1 - alpha) / (1 - pow alpha n))

/-- `alpha` and `factor` of an odd number of elements that grow to the middle one. -/
def oddGrowth (n : ℕ) (ratio : T) : T × T :=
  if eq ratio 1 then (1, 1 / ((n + 1 : ℕ) : T))
  else
    let texp := two / ((n : T) - 1)
    let alpha := pow ratio texp
    let tmp1 := half * ((n : T) + 1)
    let tmp2 := half * ((n : T) - 1)
    (alpha, (1 - alpha) / (two - pow alpha tmp1 - pow alpha tmp2))

/-! ### The distributions -/

section Distributions

variable (n : ℕ) (ratio x1 y1 x2 y2 sinit : T) (e : Nodes T)

/-- One element. -/
def oneElement : Nodes T :=
  let dx := x2 - x1
  let dy := y2 - y1
  (e.set 0 x1 y1 sinit).set 1 x2 y2 (sinit + sqrt (dx * dx + dy * dy))

/-- The biased distribution. -/
def biased : Nodes T :=
  let (alpha, factor) := growth n ratio
  let t : March T := ⟨(x2 - x1) * factor, (y2 - y1) * factor, e.set 0 x1 y1 sinit⟩
  (forUpTo 1 n t (elementAt (· * alpha))).e

/-- The symmetric distribution of two elements. -/
def symmetricTwo : Nodes T :=
  let xh := half * (x1 + x2)
  let yh := half * (y1 + y2)
  let dx1 := xh - x1
  let dy1 := yh - y1
  let dx2 := x2 - xh
  let dy2 := y2 - yh
  let s1 := sinit + sqrt (dx1 * dx1 + dy1 * dy1)
  ((e.set 0 x1 y1 sinit).set 1 xh yh s1).set 2 x2 y2 (s1 + sqrt (dx2 * dx2 + dy2 * dy2))

/-- The symmetric distribution of an even number of elements above two. -/
def symmetricEven : Nodes T :=
  let xh := half * (x1 + x2)
  let yh := half * (y1 + y2)
  let nh := n / 2
  let nh1 := nh + 1
  let (alpha, factor) := growth nh ratio
  let t : March T := ⟨(xh - x1) * factor, (yh - y1) * factor, e.set 0 x1 y1 sinit⟩
  let t := forUpTo 1 nh t (elementAt (· * alpha))
  (forUpTo nh1 n (t.rescale alpha) (elementAt (· / alpha))).e

/-- The symmetric distribution of an odd number of elements. -/
def symmetricOdd : Nodes T :=
  let (alpha, factor) := oddGrowth n ratio
  let t : March T := ⟨(x2 - x1) * factor, (y2 - y1) * factor, e.set 0 x1 y1 sinit⟩
  let t := forBelow 1 ((n + 3) / 2) t (elementAt (· * alpha))
  (forUpTo ((n + 5) / 2 - 1) n (t.rescale (alpha * alpha)) (elementAt (· / alpha))).e

/-- The end-nodes of all the cases. -/
def endNodes (isym : ℤ) : Nodes T :=
  if n = 1 then oneElement x1 y1 x2 y2 sinit e
  else if isym = 0 then biased n ratio x1 y1 x2 y2 sinit e
  else if n % 2 = 0 then
    if n = 2 then symmetricTwo x1 y1 x2 y2 sinit e
    else symmetricEven n ratio x1 y1 x2 y2 sinit e
  else symmetricOdd n ratio x1 y1 x2 y2 sinit e

end Distributions

/-- The middle of element `i`. -/
def midNodeAt (e : Nodes T) (i : ℕ) (m : Nodes T) : Nodes T :=
  m.set i (half * (e.x i + e.x (i + 1))) (half * (e.y i + e.y (i + 1)))
    (half * (e.s i + e.s (i + 1)))

/-- **The discretisation of a segment**: the end-nodes and the mid-nodes of its elements. -/
def elmLine (n : ℕ) (ratio x1 y1 x2 y2 sinit : T) (isym : ℤ) (e m : Nodes T) :
    Nodes T × Nodes T :=
  let e := endNodes n ratio x1 y1 x2 y2 sinit e isym
  (e, forBelow 0 n m (midNodeAt e))

end BodyAx
