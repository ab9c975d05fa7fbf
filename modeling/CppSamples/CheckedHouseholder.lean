/-
**`hshldr` and `bckmlt` with every access checked.**

The two functions with arrays that know their sizes.  With row and column `n + 1` in the array,
where the history of the reflections goes, they compute what the functions without checks compute.

Main definitions:

* `Chebyshev.BS.Checked.hshldr`, `Chebyshev.BS.Checked.bckmlt` — the functions.

Main results:

* `Chebyshev.BS.Checked.hshldr_eq`, `Chebyshev.BS.Checked.bckmlt_eq` — **no check fails** in them.
-/

import CppSamples.BartelsStewart
import CppSamples.CheckedArray

set_option relaxedAutoImplicit false
set_option autoImplicit false

namespace Chebyshev.BS.Checked

open CheckedArray CountedLoop Function ZeroTest Scalar

variable {K : Type} [Field K]

/-! ### `hshldr` -/

section Definitions

variable [Scalar K]

/-- The largest absolute value of column `l` below the diagonal. -/
def columnMax (n l : ℕ) (a : Grid K) : Checked K :=
  forUpToM (l + 1) n 0 fun i max => do
    let s := fabs (← a.get i l)
    return if lt max s then s else max

/-- Scaling column `l` below the diagonal. -/
def scaleColumn (n l : ℕ) (max : K) (a : Grid K) : Checked (K × Grid K) :=
  forUpToM (l + 1) n (0, a) fun i t => do
    let s := (← t.2.get i l) / max
    return (t.1 + s * s, ← t.2.set i l s)

/-- The reflection of column `l`, applied to column `j` of `b`. -/
def reflectColumn (n l : ℕ) (a : Grid K) (j : ℕ) (b : Grid K) : Checked (Grid K) := do
  let sum ← forUpToM (l + 1) n 0 fun i sum => do return sum + (← a.get i l) * (← b.get i j)
  let p := sum / (← a.get (n + 1) l)
  forUpToM (l + 1) n b fun i b => do b.set i j ((← b.get i j) - (← a.get i l) * p)

/-- The reflection with the vector in column `l`, applied to row `i`. -/
def reflectRow (n l i : ℕ) (a : Grid K) : Checked (Grid K) := do
  let sum ← forUpToM (l + 1) n 0 fun j sum => do return sum + (← a.get i j) * (← a.get j l)
  let p := sum / (← a.get (n + 1) l)
  forUpToM (l + 1) n a fun j a => do a.set i j ((← a.get i j) - p * (← a.get j l))

/-- One pass of `hshldr`. -/
def hshldrAt (n l : ℕ) (a : Grid K) : Checked (Grid K) := do
  let max ← columnMax n l a
  if isZero max then
    let a ← a.set (n + 1) l 0
    a.set l (n + 1) 0
  else
    let (sum, a) ← scaleColumn n l max a
    let s := copysign (Scalar.sqrt sum) (← a.get (l + 1) l)
    let a ← a.set l (n + 1) (-max * s)
    let p := (← a.get (l + 1) l) + s
    let a ← a.set (l + 1) l p
    let a ← a.set (n + 1) l (p * s)
    let a ← forUpToM (l + 1) n a fun j a => reflectColumn n l a j a
    forUpToM 0 n a fun i a => reflectRow n l i a

/-- **Reduction to Hessenberg form.** -/
def hshldr (n : ℕ) (a : Grid K) : Checked (Grid K) := do
  let a ← forUpToM 0 (← sub n 2) a (hshldrAt n)
  a.set (← sub n 1) (n + 1) (← a.get n (← sub n 1))

/-! ### `bckmlt` -/

/-- One pass of `bckmlt`. -/
def bckmltAt (n : ℕ) (a : Grid K) (l : ℕ) (u : Grid K) : Checked (Grid K) := do
  let d ← a.get (n + 1) l
  let u ← (if isZero d then pure u else forUpToM (l + 1) n u fun j u => reflectColumn n l a j u)
  let u ← forUpToM (l + 1) n u fun i u => do
    let u ← u.set l i 0
    u.set i l 0
  u.set l l 1

/-- **The orthogonal matrix of the reduction.** -/
def bckmlt (n : ℕ) (a u : Grid K) : Checked (Grid K) := do
  let u ← u.set (← sub n 1) (← sub n 1) 1
  let u ← u.set n n 1
  let u ← u.set n (← sub n 1) 0
  let u ← u.set (← sub n 1) n 0
  forDownToM (← sub n 2) 0 u (bckmltAt n a)

end Definitions

/-! ### No check fails -/

section Reflections

variable {n l r c r' c' i j : ℕ} (a b : Mat K)

theorem scaleColumn_eq (hr : n < r) (hc : l < c) (max : K) :
    scaleColumn n l max ⟨r, c, a⟩ =
      .ok ((BS.scaleColumn n l max a).1, ⟨r, c, (BS.scaleColumn n l max a).2⟩) := by
  refine forUpToM_eq (t := ((0 : K), a)) (fun t => (t.1, (⟨r, c, t.2⟩ : Grid K))) ?_
  intro i _ hi t
  simp (disch := omega) only [Grid.get_ok, Grid.set_ok, ok_bind, pure_eq_ok]

theorem reflectColumn_eq (hr : n + 1 < r) (hc : l < c) (hr' : n < r') (hj : j < c') :
    reflectColumn n l ⟨r, c, a⟩ j ⟨r', c', b⟩ = .ok ⟨r', c', BS.reflectColumn n l a j b⟩ := by
  refine bind_eq (forUpToM_eq (g := fun i sum => sum + a (i, l) * b (i, j)) id fun i _ hi sum => ?_)
    ?_
  · simp (disch := omega) only [Grid.get_ok, ok_bind, pure_eq_ok, id]
  · refine bind_eq (Grid.get_ok a (by omega) hc) ?_
    refine forUpToM_eq (Grid.mk r' c') ?_
    intro i _ hi b
    simp (disch := omega) only [Grid.get_ok, Grid.set_ok, ok_bind, id]

theorem reflectRow_eq (hr : n + 1 < r) (hc : n < c) (hi : i ≤ n) (hl : l < n) :
    reflectRow n l i ⟨r, c, a⟩ = .ok ⟨r, c, BS.reflectRow n l i a⟩ := by
  refine bind_eq (forUpToM_eq (g := fun j sum => sum + a (i, j) * a (j, l)) id fun j _ hj sum => ?_)
    ?_
  · simp (disch := omega) only [Grid.get_ok, ok_bind, pure_eq_ok, id]
  · refine bind_eq (Grid.get_ok a (by omega) (by omega)) ?_
    refine forUpToM_eq (Grid.mk r c) ?_
    intro j _ hj a
    simp (disch := omega) only [Grid.get_ok, Grid.set_ok, ok_bind, id]

end Reflections

section Reduction

variable [Scalar K] {n l r c r' c' : ℕ} (a u : Mat K)

theorem columnMax_eq (hr : n < r) (hc : l < c) :
    columnMax n l ⟨r, c, a⟩ = .ok (BS.columnMax n l a) := by
  refine forUpToM_eq id ?_
  intro i _ hi max
  simp (disch := omega) only [Grid.get_ok, ok_bind, pure_eq_ok, id]

theorem hshldrAt_eq (hr : n + 1 < r) (hc : n + 1 < c) (hl : l < n) :
    hshldrAt n l ⟨r, c, a⟩ = .ok ⟨r, c, BS.hshldrAt n l a⟩ := by
  refine bind_eq (columnMax_eq a (by omega) (by omega)) ?_
  rw [BS.hshldrAt]
  split_ifs with hzero
  · simp (disch := omega) only [Grid.set_ok, ok_bind]
  · refine bind_eq (scaleColumn_eq a (by omega) (by omega) _) ?_
    simp (disch := omega) only [Grid.get_ok, Grid.set_ok, ok_bind]
    refine bind_eq (forUpToM_eq (Grid.mk r c) fun j _ hj a =>
      reflectColumn_eq a a hr (by omega) (by omega) (by omega)) ?_
    exact forUpToM_eq (Grid.mk r c) fun i _ hi a => reflectRow_eq a hr (by omega) hi hl

/-- **No check fails in `hshldr`.** -/
theorem hshldr_eq (hn : 2 ≤ n) (hr : n + 1 < r) (hc : n + 1 < c) :
    hshldr n ⟨r, c, a⟩ = .ok ⟨r, c, BS.hshldr n a⟩ := by
  refine bind_eq (sub_ok hn) ?_
  refine bind_eq (forUpToM_eq (Grid.mk r c) fun l _ hl a => hshldrAt_eq a hr hc (by omega)) ?_
  simp (disch := omega) only [sub_ok, Grid.get_ok, Grid.set_ok, ok_bind]
  rfl

theorem bckmltAt_eq (hr : n + 1 < r) (hc : n < c) (hr' : n < r') (hc' : n < c') (hl : l ≤ n) :
    bckmltAt n ⟨r, c, a⟩ l ⟨r', c', u⟩ = .ok ⟨r', c', BS.bckmltAt n a l u⟩ := by
  refine bind_eq (Grid.get_ok a hr (by omega)) ?_
  refine bind_eq (a := Grid.mk r' c' (if isZero (a (n + 1, l)) then u
    else forUpTo (l + 1) n u fun j u => BS.reflectColumn n l a j u)) ?_ ?_
  · split_ifs
    · rfl
    · exact forUpToM_eq (Grid.mk r' c') fun j _ hj u =>
        reflectColumn_eq a u hr (by omega) hr' (by omega)
  · refine bind_eq (forUpToM_eq (Grid.mk r' c')
      (g := fun i u => update (update u (l, i) 0) (i, l) 0) fun i _ hi u => ?_) ?_
    · simp (disch := omega) only [Grid.set_ok, ok_bind]
    · exact Grid.set_ok _ _ (by omega) (by omega)

/-- **No check fails in `bckmlt`.** -/
theorem bckmlt_eq (hn : 2 ≤ n) (hr : n + 1 < r) (hc : n < c) (hr' : n < r') (hc' : n < c') :
    bckmlt n ⟨r, c, a⟩ ⟨r', c', u⟩ = .ok ⟨r', c', BS.bckmlt n a u⟩ := by
  rw [bckmlt]
  simp (disch := omega) only [sub_ok, Grid.set_ok, ok_bind]
  exact forDownToM_eq (Grid.mk r' c') fun l _ hl u => bckmltAt_eq a u hr hc hr' hc' (by omega)

end Reduction

end Chebyshev.BS.Checked
