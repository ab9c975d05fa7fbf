/-
**`schur`, `init_au` and `init_abuv` with every access checked.**

The counters of `schur` are signed, and an array may be indexed by their differences.  A difference
that is used as an index is checked like an unsigned one, so that it is an index at all; the one
counter that does get below zero, the `n` of the last block, ends the iteration there.

Main definitions:

* `Chebyshev.BS.Checked.schur` — the QR iteration;
* `Chebyshev.BS.Checked.initAu`, `Chebyshev.BS.Checked.initAbuv` — the preparation.

Main results:

* `Chebyshev.BS.Checked.schur_eq` — **no check fails in the iteration**, whatever the comparisons of
  its numbers yield;
* `Chebyshev.BS.Checked.initAu_eq`, `Chebyshev.BS.Checked.initAbuv_eq` — nor in the preparation.
-/

import CppSamples.CheckedHouseholder

set_option relaxedAutoImplicit false
set_option autoImplicit false

namespace Chebyshev.BS.Checked

open CheckedArray CountedLoop Function ZeroTest Scalar

variable {K : Type} [Field K]

/-! ### `schur` -/

section Definitions

variable [Scalar K]

/-- The norm `hn`. -/
def hessenbergNorm (n : ℕ) (h : Grid K) : Checked K :=
  forUpToM 0 n 0 fun i hn => do
    let jl := if 1 < i then i - 1 else 0
    let rsum ← forUpToM jl n 0 fun j rsum => do return rsum + fabs (← h.get i j)
    return if lt hn rsum then rsum else hn

/-- The search for a small subdiagonal entry, from `l = n` down. -/
def smallSubdiagonal (test : K) (h : Grid K) : (n : ℕ) → Checked {l // l ≤ n}
  | 0 => .ok ⟨0, Nat.le_refl 0⟩
  | l + 1 => do
    if le (fabs (← h.get (l + 1) (← sub (l + 1) 1))) test then return ⟨l + 1, Nat.le_refl (l + 1)⟩
    else
      let l' ← smallSubdiagonal test h l
      return ⟨l'.1, Nat.le_succ_of_le l'.2⟩

/-- The small subdiagonal entry is set to zero. -/
def deflate (l : ℕ) (h : Grid K) : Checked (Grid K) :=
  if l = 0 then .ok h else do h.set l (← sub l 1) 0

/-- The numbers `x`, `y` and `r` of the last two rows. -/
def lastRows (hn : K) (n : ℕ) (h : Grid K) : Checked (K × K × K) := do
  let na ← sub n 1
  let x := (← h.get n n) / hn
  let y := (← h.get na na) / hn
  let r := (← h.get n na) / hn * ((← h.get na n) / hn)
  return (x, y, r)

/-- The sum and the product of the two shifts. -/
def shifts (hn : K) (n its : ℕ) (xyr : K × K × K) (h : Grid K) : Checked (K × K) := do
  let (x, y, r) := xyr
  if its % 10 = 0 ∧ its ≠ 0 then
    let na ← sub n 1
    let y := (fabs (← h.get n na) + fabs (← h.get na (← sub na 1))) / hn
    return (threeHalves * y, y * y)
  else return (x + y, x * y - r)

/-- The first column of the shifted square of the block that starts at `m`, scaled. -/
def startVector (hn : K) (sy : K × K) (h : Grid K) (m : ℕ) : Checked (Vec3 K) := do
  let (s, y) := sy
  let x := (← h.get m m) / hn
  let r := (← h.get (m + 1) m) / hn
  let z := (← h.get (m + 1) (m + 1)) / hn
  let p := x * (x - s) + y + r * ((← h.get m (m + 1)) / hn)
  let v : Vec3 K := ⟨p, r * (x + z - s), r * ((← h.get (m + 2) (m + 1)) / hn)⟩
  return v.scale v.norm1

/-- The row `m` that a sweep starts at, and its vector. -/
def startRow (hn test : K) (sy : K × K) (h : Grid K) (l : ℕ) : ℕ → Checked (ℕ × Vec3 K)
  | 0 => do return (0, ← startVector hn sy h 0)
  | m + 1 => do
    let v ← startVector hn sy h (m + 1)
    if m + 1 = l then return (m + 1, v)
    else if le (fabs (← h.get (m + 1) (← sub (m + 1) 1)) * (fabs v.q + fabs v.r)) (fabs v.p * test)
      then return (m + 1, v)
    else startRow hn test sy h l m

/-- The entries two and three places below the diagonal are cleared. -/
def clearBelow (n m : ℕ) (h : Grid K) : Checked (Grid K) := do
  let h ← forUpToM (m + 2) n h fun i h => do h.set i (← sub i 2) 0
  forUpToM (m + 3) n h fun i h => do h.set i (← sub i 3) 0

/-- A reflection, applied to column `j`. -/
def onColumn (g : Reflector K) (notlast : Bool) (k j : ℕ) (h : Grid K) : Checked (Grid K) := do
  let p := (← h.get k j) + g.q * (← h.get (k + 1) j)
  let (p, h) ← (if notlast then do
      let p := p + g.r * (← h.get (k + 2) j)
      return (p, ← h.set (k + 2) j ((← h.get (k + 2) j) - p * g.z))
    else pure (p, h))
  let h ← h.set (k + 1) j ((← h.get (k + 1) j) - p * g.y)
  h.set k j ((← h.get k j) - p * g.x)

/-- A reflection, applied to row `i`. -/
def onRow (g : Reflector K) (notlast : Bool) (k i : ℕ) (h : Grid K) : Checked (Grid K) := do
  let p := g.x * (← h.get i k) + g.y * (← h.get i (k + 1))
  let (p, h) ← (if notlast then do
      let p := p + g.z * (← h.get i (k + 2))
      return (p, ← h.set i (k + 2) ((← h.get i (k + 2)) - p * g.r))
    else pure (p, h))
  let h ← h.set i (k + 1) ((← h.get i (k + 1)) - p * g.q)
  h.set i k ((← h.get i k) - p)

/-- A reflection of the sweep on the rows of `h`, the columns of `h` and the columns of `u`. -/
def apply (g : Reflector K) (nn n k : ℕ) (s : Grid K × Grid K) : Checked (Grid K × Grid K) := do
  let notlast := decide (k ≠ (← sub n 1))
  let h ← forUpToM k nn s.1 (onColumn g notlast k)
  let j := if k + 3 < n then k + 3 else n
  let h ← forUpToM 0 j h (onRow g notlast k)
  let u ← forUpToM 0 nn s.2 (onRow g notlast k)
  return (h, u)

/-- The column that the bulge of the sweep is chased from. -/
def bulgeVector (n k : ℕ) (h : Grid K) : Checked (Vec3 K) := do
  let p ← h.get k (← sub k 1)
  let q ← h.get (k + 1) (← sub k 1)
  let na ← sub n 1
  let r ← (if k ≠ na then do h.get (k + 2) (← sub k 1) else pure 0)
  return ⟨p, q, r⟩

/-- One pass of a sweep. -/
def sweepAt (nn n l m : ℕ) (v : Vec3 K) (k : ℕ) (s : Grid K × Grid K) :
    Checked (Grid K × Grid K) := do
  if k = m then
    let h ← (if l ≠ m then do s.1.set k (← sub k 1) (-(← s.1.get k (← sub k 1))) else pure s.1)
    apply v.reflector nn n k (h, s.2)
  else
    let b ← bulgeVector n k s.1
    let x := b.norm1
    if isZero x then return s
    else
      let b := b.scale x
      let h ← s.1.set k (← sub k 1) (-b.length * x)
      apply b.reflector nn n k (h, s.2)

/-- A double QR sweep on the block from `l` to `n`. -/
def sweep (hn test : K) (nn n l its : ℕ) (xyr : K × K × K) (s : Grid K × Grid K) :
    Checked (Grid K × Grid K) := do
  let sy ← shifts hn n its xyr s.1
  let (m, v) ← startRow hn test sy s.1 l (← sub n 2)
  let h ← clearBelow n m s.1
  forUpToM m (← sub n 1) (h, s.2) (sweepAt nn n l m v)

/-- The iterations on the block that ends at `n`. -/
def iterate (hn test : K) (nn n its : ℕ) (s : Grid K × Grid K) :
    Checked (Bool × Grid K × Grid K) :=
  if hn₀ : n = 0 then .ok (true, s)
  else do
    let l ← smallSubdiagonal test s.1 n
    let h ← deflate l.1 s.1
    if (← sub n 1) ≤ l.1 then iterate hn test nn (l.1 - 1) 0 (h, s.2)
    else
      let xyr ← lastRows hn n h
      if hits : maxIter ≤ its then return (false, h, s.2)
      else
        let s ← sweep hn test nn n l.1 its xyr (h, s.2)
        iterate hn test nn n (its + 1) s
  termination_by (n, maxIter - its)
  decreasing_by
  · exact Prod.Lex.left _ _ ((Nat.sub_le_sub_right l.2 1).trans_lt (Nat.sub_one_lt hn₀))
  · exact Prod.Lex.right _ (by omega)

/-- **The QR iteration.** -/
def schur (nn : ℕ) (eps : K) (h u : Grid K) : Checked (Bool × Grid K × Grid K) := do
  let hn ← hessenbergNorm nn h
  let test := eps * hn
  if isZero hn then return (true, h, u) else iterate hn test nn nn 0 (h, u)

/-! ### `init_au` and `init_abuv` -/

/-- The subdiagonal, back from column `m + 1`. -/
def restoreSubdiagonal (m : ℕ) (a : Grid K) : Checked (Grid K) :=
  forBelowM 0 m a fun i a => do a.set (i + 1) i (← a.get i (m + 1))

/-- **The Schur form of one matrix.** -/
def initAu (eps : K) (m : ℕ) (a u : Grid K) : Checked (Grid K × Grid K) := do
  let a ← hshldr m a
  let u ← bckmlt m a u
  let a ← restoreSubdiagonal m a
  let (ok, a, u) ← schur m eps a u
  if ok then return (a, u) else throw (.thrown "** SCHUR FAILED!")

/-- The leading block of an array is transposed in place. -/
def transposeInPlace (m : ℕ) (a : Grid K) : Checked (Grid K) :=
  forUpToM 0 m a fun i a => forUpToM (i + 1) m a fun j a => do
    let x ← a.get i j
    let y ← a.get j i
    let a ← a.set i j y
    a.set j i x

/-- **The Schur forms of two matrices.** -/
def initAbuv (eps : K) (m n : ℕ) (a b u v : Grid K) :
    Checked (Grid K × Grid K × Grid K × Grid K) := do
  let (a, u) ← initAu eps m a u
  let a ← transposeInPlace m a
  let (b, v) ← initAu eps n b v
  return (a, b, u, v)

end Definitions

/-! ### No check fails -/

section Cells

variable {n l m k i j r c : ℕ} (h : Mat K)

theorem deflate_eq (hr : l < r) (hc : l < c) :
    deflate l ⟨r, c, h⟩ = .ok ⟨r, c, BS.deflate l h⟩ := by
  rw [deflate, BS.deflate]
  split_ifs with hl
  · rfl
  · simp (disch := omega) only [sub_ok, Grid.set_ok, ok_bind]

theorem onColumn_eq (g : Reflector K) {notlast : Bool} (hk : k + 1 < r)
    (hlast : notlast = true → k + 2 < r) (hj : j < c) :
    onColumn g notlast k j ⟨r, c, h⟩ = .ok ⟨r, c, g.onColumn notlast k j h⟩ := by
  cases notlast with
  | false =>
      simp (disch := omega) only [onColumn, Grid.get_ok, Grid.set_ok, ok_bind, pure_eq_ok,
        Bool.false_eq_true, if_false]
      rfl
  | true =>
      have hk₂ := hlast rfl
      simp (disch := omega) only [onColumn, Grid.get_ok, Grid.set_ok, ok_bind, pure_eq_ok, if_true]
      rfl

theorem onRow_eq (g : Reflector K) {notlast : Bool} (hi : i < r) (hk : k + 1 < c)
    (hlast : notlast = true → k + 2 < c) :
    onRow g notlast k i ⟨r, c, h⟩ = .ok ⟨r, c, g.onRow notlast k i h⟩ := by
  cases notlast with
  | false =>
      simp (disch := omega) only [onRow, Grid.get_ok, Grid.set_ok, ok_bind, pure_eq_ok,
        Bool.false_eq_true, if_false]
      rfl
  | true =>
      have hk₂ := hlast rfl
      simp (disch := omega) only [onRow, Grid.get_ok, Grid.set_ok, ok_bind, pure_eq_ok, if_true]
      rfl

theorem clearBelow_eq (hr : n < r) (hc : n < c) :
    clearBelow n m ⟨r, c, h⟩ = .ok ⟨r, c, BS.clearBelow n m h⟩ := by
  refine bind_eq (forUpToM_eq (Grid.mk r c) (g := fun i h => update h (i, i - 2) 0)
    fun i hlo hi h => ?_) (forUpToM_eq (Grid.mk r c) fun i hlo hi h => ?_)
  · simp (disch := omega) only [sub_ok, Grid.set_ok, ok_bind]
  · simp (disch := omega) only [sub_ok, Grid.set_ok, ok_bind]

theorem startVector_eq [Scalar K] (hn : K) (sy : K × K) (hr : m + 2 < r) (hc : m + 1 < c) :
    startVector hn sy ⟨r, c, h⟩ m = .ok (BS.startVector hn sy h m) := by
  simp (disch := omega) only [startVector, Grid.get_ok, ok_bind, pure_eq_ok]
  rfl

theorem lastRows_eq (hn : K) (hpos : 0 < n) (hr : n < r) (hc : n < c) :
    lastRows hn n ⟨r, c, h⟩ = .ok (h (n, n) / hn, h (n - 1, n - 1) / hn,
      h (n, n - 1) / hn * (h (n - 1, n) / hn)) := by
  simp (disch := omega) only [lastRows, sub_ok, Grid.get_ok, ok_bind, pure_eq_ok]

end Cells

section Schur

variable [Scalar K] {nn n l m k its r c : ℕ} (hn test : K) (h u : Mat K)

theorem hessenbergNorm_eq (hr : n < r) (hc : n < c) :
    hessenbergNorm n ⟨r, c, h⟩ = .ok (BS.hessenbergNorm n h) := by
  refine forUpToM_eq id ?_
  intro i _ hi hn
  refine bind_eq (forUpToM_eq (g := fun j rsum => rsum + fabs (h (i, j))) id fun j _ hj rsum => ?_)
    rfl
  simp (disch := omega) only [Grid.get_ok, ok_bind, pure_eq_ok, id]

omit [Field K] in
theorem smallSubdiagonal_eq (hr : n < r) (hc : n < c) : smallSubdiagonal test ⟨r, c, h⟩ n =
    .ok ⟨BS.smallSubdiagonal test h n, BS.smallSubdiagonal_le test h n⟩ := by
  induction n with
  | zero => rfl
  | succ l ih =>
      simp (disch := omega) only [smallSubdiagonal, sub_ok, Grid.get_ok, ok_bind]
      by_cases hsmall : le (fabs (h (l + 1, l))) test = true
      · refine (if_pos hsmall).trans (congrArg Except.ok (Subtype.ext ?_))
        exact (if_pos hsmall).symm
      · refine (if_neg hsmall).trans ?_
        rw [ih (by omega) (by omega)]
        refine congrArg Except.ok (Subtype.ext ?_)
        exact (if_neg hsmall).symm

theorem shifts_eq (hn₂ : 2 ≤ n) (hr : n < r) (hc : n < c) :
    shifts hn n its (h (n, n) / hn, h (n - 1, n - 1) / hn, h (n, n - 1) / hn * (h (n - 1, n) / hn))
      ⟨r, c, h⟩ = .ok (BS.shifts hn n its h) := by
  simp only [shifts, BS.shifts]
  split_ifs
  · simp (disch := omega) only [sub_ok, Grid.get_ok, ok_bind, pure_eq_ok]
  · rfl

theorem startRow_eq (sy : K × K) (hr : m + 2 < r) (hc : m + 1 < c) :
    startRow hn test sy ⟨r, c, h⟩ l m = .ok (BS.startRow hn test sy h l m) := by
  induction m with
  | zero =>
      refine bind_eq (startVector_eq h hn sy hr hc) rfl
  | succ m ih =>
      refine bind_eq (startVector_eq h hn sy hr hc) ?_
      simp (disch := omega) only [sub_ok, Grid.get_ok, ok_bind, pure_eq_ok, BS.startRow]
      by_cases hl : m + 1 = l
      · rw [if_pos hl, if_pos (.inl hl)]
      · rw [if_neg hl]
        by_cases hsmall : le (fabs (h (m + 1, m + 1 - 1)) *
            (fabs (BS.startVector hn sy h (m + 1)).q + fabs (BS.startVector hn sy h (m + 1)).r))
              (fabs (BS.startVector hn sy h (m + 1)).p * test) = true
        · rw [if_pos hsmall]
          exact congrArg Except.ok (if_pos (.inr hsmall)).symm
        · rw [if_neg hsmall, ih (by omega) (by omega)]
          exact congrArg Except.ok (if_neg (not_or.2 ⟨hl, hsmall⟩)).symm

omit [Scalar K] in
theorem apply_eq (g : Reflector K) (hk : k + 1 ≤ n) (hnn : n ≤ nn) (hr : nn < r) (hc : nn < c)
    {r' c' : ℕ} (hr' : nn < r') (hc' : nn < c') :
    apply g nn n k (⟨r, c, h⟩, ⟨r', c', u⟩) =
      .ok (⟨r, c, (g.apply nn n k (h, u)).1⟩, ⟨r', c', (g.apply nn n k (h, u)).2⟩) := by
  have hlast : decide (k ≠ n - 1) = true → k + 2 ≤ n := fun hne => by
    have hne' := of_decide_eq_true hne
    omega
  refine bind_eq (sub_ok (by omega)) ?_
  refine bind_eq (forUpToM_eq (Grid.mk r c) fun j _ hj h => onColumn_eq h g (by omega)
    (fun hl => (hlast hl).trans_lt (by omega)) (by omega)) ?_
  refine bind_eq (forUpToM_eq (Grid.mk r c) fun i _ hi h => onRow_eq h g ?_ (by omega)
    fun hl => (hlast hl).trans_lt (by omega)) ?_
  · split_ifs at hi
    all_goals omega
  refine bind_eq (forUpToM_eq (Grid.mk r' c') fun i _ hi u => onRow_eq u g (by omega) (by omega)
    fun hl => (hlast hl).trans_lt (by omega)) ?_
  rfl

omit [Scalar K] in
theorem bulgeVector_eq (hk : 0 < k) (hkn : k + 1 ≤ n) (hr : n < r) (hc : n < c) :
    bulgeVector n k ⟨r, c, h⟩ = .ok (BS.bulgeVector n k h) := by
  simp (disch := omega) only [bulgeVector, sub_ok, Grid.get_ok, ok_bind, pure_eq_ok]
  by_cases hlast : k ≠ n - 1
  · rw [if_pos hlast, ok_bind, BS.bulgeVector, if_pos hlast]
  · rw [if_neg hlast, ok_bind, BS.bulgeVector, if_neg hlast]

/-- A pair of arrays with their sizes. -/
def pair (r c r' c' : ℕ) (s : Mat K × Mat K) : Grid K × Grid K := (⟨r, c, s.1⟩, ⟨r', c', s.2⟩)

theorem sweepAt_eq (v : Vec3 K) (hk : k + 1 ≤ n) (hlm : l ≤ m) (hmk : m ≤ k) (hnn : n ≤ nn)
    (hr : nn < r) (hc : nn < c) {r' c' : ℕ} (hr' : nn < r') (hc' : nn < c') (s : Mat K × Mat K) :
    sweepAt nn n l m v k (pair r c r' c' s) = .ok (pair r c r' c' (BS.sweepAt nn n l m v k s)) := by
  obtain ⟨h, u⟩ := s
  have happly := fun (h : Mat K) (g : Reflector K) => apply_eq h u g hk hnn hr hc hr' hc'
  rw [BS.sweepAt, sweepAt]
  by_cases hkm : k = m
  · rw [if_pos hkm, if_pos hkm]
    refine bind_eq (a := Grid.mk r c (if l ≠ m then update h (k, k - 1) (-h (k, k - 1)) else h)) ?_
      (happly _ v.reflector)
    split_ifs with hl
    · simp (disch := omega) only [pair, sub_ok, Grid.get_ok, Grid.set_ok, ok_bind]
    · rfl
  · rw [if_neg hkm, if_neg hkm]
    refine bind_eq (bulgeVector_eq h (by omega) hk (by omega) (by omega)) ?_
    simp only
    split_ifs
    · rfl
    · refine bind_eq (sub_ok (by omega)) ?_
      refine bind_eq (Grid.set_ok h _ (by omega) (by omega)) ?_
      exact happly _ _

/-- The row that a sweep starts at. -/
theorem startRow_bounds (sy : K × K) (hlm : l ≤ m) :
    l ≤ (BS.startRow hn test sy h l m).1 ∧ (BS.startRow hn test sy h l m).1 ≤ m := by
  induction m with
  | zero => exact ⟨hlm, le_rfl⟩
  | succ m ih =>
      rw [BS.startRow]
      split_ifs with hstop
      · exact ⟨hlm, le_rfl⟩
      · have hbounds := ih (by omega)
        exact ⟨hbounds.1, hbounds.2.trans m.le_succ⟩

theorem sweep_eq (hl : l + 2 ≤ n) (hnn : n ≤ nn) (hr : nn < r) (hc : nn < c) {r' c' : ℕ}
    (hr' : nn < r') (hc' : nn < c') (s : Mat K × Mat K) :
    sweep hn test nn n l its (s.1 (n, n) / hn, s.1 (n - 1, n - 1) / hn,
      s.1 (n, n - 1) / hn * (s.1 (n - 1, n) / hn)) (pair r c r' c' s) =
        .ok (pair r c r' c' (BS.sweep hn test nn n l its s)) := by
  obtain ⟨h, u⟩ := s
  obtain ⟨sy, hsy⟩ : ∃ sy, sy = BS.shifts hn n its h := ⟨_, rfl⟩
  obtain ⟨hlow, hhigh⟩ := startRow_bounds hn test h sy (show l ≤ n - 2 by omega)
  refine bind_eq (shifts_eq hn h (by omega) (by omega) (by omega)) ?_
  refine bind_eq (sub_ok (by omega)) ?_
  refine bind_eq (startRow_eq hn test h _ (by omega) (by omega)) ?_
  rw [BS.sweep]
  simp only [← hsy]
  refine bind_eq (clearBelow_eq h (by omega) (by omega)) ?_
  refine bind_eq (sub_ok (by omega)) ?_
  exact forUpToM_eq (t := (BS.clearBelow n (BS.startRow hn test sy h l (n - 2)).1 h, u))
    (pair r c r' c') fun k hmk hk s => sweepAt_eq _ (by omega) hlow hmk hnn hr hc hr' hc' s

/-- One iteration: the checks before the sweep. -/
theorem iterate_step (hn₀ : n ≠ 0) (hr : n < r) (hc : n < c) {r' c' : ℕ} (s : Mat K × Mat K)
    {h : Mat K} (hl : BS.smallSubdiagonal test s.1 n = l) (hh : BS.deflate l s.1 = h) :
    iterate hn test nn n its (pair r c r' c' s) =
      if n - 1 ≤ l then iterate hn test nn (l - 1) 0 (pair r c r' c' (h, s.2))
      else if maxIter ≤ its then .ok (false, pair r c r' c' (h, s.2))
      else sweep hn test nn n l its (h (n, n) / hn, h (n - 1, n - 1) / hn,
        h (n, n - 1) / hn * (h (n - 1, n) / hn)) (pair r c r' c' (h, s.2)) >>=
          iterate hn test nn n (its + 1) := by
  have hln := smallSubdiagonal_le test s.1 n
  have hpos := Nat.pos_of_ne_zero hn₀
  rw [iterate, dif_neg hn₀]
  subst hl hh
  simp only [pair, smallSubdiagonal_eq test s.1 hr hc, ok_bind,
    deflate_eq s.1 (hln.trans_lt hr) (hln.trans_lt hc), sub_ok hpos, lastRows_eq _ hn hpos hr hc,
    pure_eq_ok, dite_eq_ite]

/-- The iterations. -/
theorem iterate_eq (hnn : n ≤ nn) (hr : nn < r) (hc : nn < c) {r' c' : ℕ} (hr' : nn < r')
    (hc' : nn < c') (s : Mat K × Mat K) : iterate hn test nn n its (pair r c r' c' s) =
      .ok ((BS.iterate hn test nn n its s).1, pair r c r' c' (BS.iterate hn test nn n its s).2) := by
  revert hnn
  fun_induction BS.iterate hn test nn n its s with
  | case1 its s =>
      intro hnn
      rw [iterate, dif_pos rfl]
  | case2 n its s hn₀ l h hl ih =>
      intro hnn
      have hln := smallSubdiagonal_le test s.1 n
      rw [iterate_step hn test hn₀ (by omega) (by omega) s rfl rfl, if_pos hl]
      exact ih (by omega)
  | case3 n its s hn₀ l h hl hits =>
      intro hnn
      rw [iterate_step hn test hn₀ (by omega) (by omega) s rfl rfl, if_neg hl, if_pos hits]
  | case4 n its s hn₀ l h hl hits ih =>
      intro hnn
      rw [iterate_step hn test hn₀ (by omega) (by omega) s rfl rfl, if_neg hl, if_neg hits]
      exact bind_eq (sweep_eq hn test (by omega) hnn hr hc hr' hc' (h, s.2)) (ih hnn)

/-- **No check fails in `schur`**, whatever the comparisons yield. -/
theorem schur_eq (eps : K) (hr : nn < r) (hc : nn < c) {r' c' : ℕ} (hr' : nn < r') (hc' : nn < c') :
    schur nn eps ⟨r, c, h⟩ ⟨r', c', u⟩ =
      .ok ((BS.schur nn eps h u).1, pair r c r' c' (BS.schur nn eps h u).2) := by
  refine bind_eq (hessenbergNorm_eq h hr hc) ?_
  rw [BS.schur]
  simp only
  split_ifs
  · rfl
  · exact iterate_eq _ _ le_rfl hr hc hr' hc' (h, u)

end Schur

section Preparation

variable {m n r c r' c' : ℕ}

omit [Field K] in
theorem restoreSubdiagonal_eq (a : Mat K) (hr : m < r) (hc : m + 1 < c) :
    restoreSubdiagonal m ⟨r, c, a⟩ = .ok ⟨r, c, BS.restoreSubdiagonal m a⟩ := by
  refine forBelowM_eq (Grid.mk r c) ?_
  intro i _ hi a
  simp (disch := omega) only [Grid.get_ok, Grid.set_ok, ok_bind]

omit [Field K] in
theorem transposeInPlace_eq (a : Mat K) (hr : m < r) (hc : m < c) :
    transposeInPlace m ⟨r, c, a⟩ = .ok ⟨r, c, BS.transposeInPlace m a⟩ := by
  refine forUpToM_eq (Grid.mk r c) ?_
  intro i _ hi a
  refine forUpToM_eq (Grid.mk r c) ?_
  intro j hlo hj a
  simp (disch := omega) only [Grid.get_ok, Grid.set_ok, ok_bind]

variable [Scalar K] (eps : K)

/-- **No check fails in `init_au`.** -/
theorem initAu_eq (hm : 2 ≤ m) (hr : m + 1 < r) (hc : m + 1 < c) (hr' : m < r') (hc' : m < c')
    (a u : Mat K) : initAu eps m ⟨r, c, a⟩ ⟨r', c', u⟩ =
      pair r c r' c' <$> unchecked (BS.initAu eps m a u) := by
  refine bind_eq (hshldr_eq a hm hr hc) ?_
  refine bind_eq (bckmlt_eq _ u hm hr (by omega) hr' hc') ?_
  refine bind_eq (restoreSubdiagonal_eq _ (by omega) hc) ?_
  refine bind_eq (schur_eq _ _ eps (by omega) (by omega) hr' hc') ?_
  rw [BS.initAu]
  simp only
  split_ifs
  · rfl
  · rfl

/-- **No check fails in `init_abuv`.** -/
theorem initAbuv_eq (hm : 2 ≤ m) (hn : 2 ≤ n) (hr : m + 1 < r) (hc : m + 1 < c) {p q : ℕ}
    (hp : n + 1 < p) (hq : n + 1 < q) (hr' : m < r') (hc' : m < c') {p' q' : ℕ} (hp' : n < p')
    (hq' : n < q') (a b u v : Mat K) :
    initAbuv eps m n ⟨r, c, a⟩ ⟨p, q, b⟩ ⟨r', c', u⟩ ⟨p', q', v⟩ =
      (fun s => (⟨r, c, s.1⟩, ⟨p, q, s.2.1⟩, ⟨r', c', s.2.2.1⟩, ⟨p', q', s.2.2.2⟩)) <$>
        unchecked (BS.initAbuv eps m n a b u v) := by
  refine bind_unchecked (pair r c r' c') _ (initAu_eq eps hm hr hc hr' hc' a u) ?_
  intro s
  refine bind_eq (transposeInPlace_eq s.1 (by omega) (by omega)) ?_
  refine bind_unchecked (pair p q p' q') _ (initAu_eq eps hn hp hq hp' hq' b v) ?_
  intro t
  rfl

end Preparation

end Chebyshev.BS.Checked
