/-
**`shrslv` and `bs_solve` with every access checked.**

The blocks of the transformed equation have size one or two, as the entries beside the diagonal are
zero or not; the last block ends with the matrix, as no entry is read behind it.  `bs_solve`
accumulates its products in column `m + 1` of `a` and row `n + 1` of `b`.

Main definitions:

* `Chebyshev.BS.Checked.shrslv` — the solver of the transformed equation;
* `Chebyshev.BS.Checked.bsSolve`, `Chebyshev.BS.Checked.bsSolveSquare` — the solver.

Main results:

* `Chebyshev.BS.Checked.shrslv_eq`, `Chebyshev.BS.Checked.bsSolve_eq`,
  `Chebyshev.BS.Checked.bsSolveSquare_eq` — **no check fails** in them.
-/

import CppSamples.BartelsStewartSquare
import CppSamples.CheckedSchur

set_option relaxedAutoImplicit false
set_option autoImplicit false

namespace Chebyshev.BS.Checked

open CheckedArray CountedLoop Function ZeroTest

variable {K : Type} [Field K]

/-! ### `shrslv` -/

section Definitions

variable [ZeroTest K]

/-- The size of the block at `k`, in a matrix that ends at `n`; `beside` reads the entry beside the
diagonal. -/
def blockSize (n k : ℕ) (beside : Checked K) : Checked {d // 0 < d} := do
  if k ≠ n then
    if isZero (← beside) then return ⟨1, Nat.one_pos⟩ else return ⟨2, Nat.two_pos⟩
  else return ⟨1, Nat.one_pos⟩

/-- The size of the block of columns at `l`. -/
def columnBlock (n : ℕ) (b : Grid K) (l : ℕ) : Checked {dl // 0 < dl} :=
  blockSize n l (b.get (l + 1) l)

/-- The size of the block of rows at `k`. -/
def rowBlock (m : ℕ) (a : Grid K) (k : ℕ) : Checked {dk // 0 < dk} :=
  blockSize m k (a.get k (k + 1))

/-- The system of a block of two rows and two columns. -/
def system22 (a b : Grid K) (k kk l ll : ℕ) : Checked (Matrix (Fin 4) (Fin 4) K) := do
  let t₀₀ := (← a.get k k) + (← b.get l l)
  let t₀₁ ← a.get k kk
  let t₀₂ ← b.get ll l
  let t₁₀ ← a.get kk k
  let t₁₁ := (← a.get kk kk) + (← b.get l l)
  let t₂₀ ← b.get l ll
  let t₂₂ := (← a.get k k) + (← b.get ll ll)
  let t₃₃ := (← a.get kk kk) + (← b.get ll ll)
  return !![t₀₀, t₀₁, t₀₂, 0; t₁₀, t₁₁, 0, t₀₂; t₂₀, 0, t₂₂, t₀₁; 0, t₂₀, t₁₀, t₃₃]

/-- The system of a block of two rows and one column. -/
def system21 (a b : Grid K) (k kk l : ℕ) : Checked (Matrix (Fin 2) (Fin 2) K) := do
  let t₀₀ := (← a.get k k) + (← b.get l l)
  let t₀₁ ← a.get k kk
  let t₁₀ ← a.get kk k
  let t₁₁ := (← a.get kk kk) + (← b.get l l)
  return !![t₀₀, t₀₁; t₁₀, t₁₁]

/-- The system of a block of one row and two columns. -/
def system12 (a b : Grid K) (k l ll : ℕ) : Checked (Matrix (Fin 2) (Fin 2) K) := do
  let t₀₀ := (← a.get k k) + (← b.get l l)
  let t₀₁ ← b.get ll l
  let t₁₀ ← b.get l ll
  let t₁₁ := (← a.get k k) + (← b.get ll ll)
  return !![t₀₀, t₀₁; t₁₀, t₁₁]

-- under names, so that the components of the solutions need no auxiliary lemmas
local instance neZero_two : NeZero 2 := ⟨Nat.succ_ne_zero 1⟩

local instance neZero_four : NeZero 4 := ⟨Nat.succ_ne_zero 3⟩

/-- The solution of the system of one block. -/
def solveBlock (lu : EigenLU K) (a b : Grid K) (k kk dk l ll dl : ℕ) (c : Grid K) :
    Checked (Grid K) := do
  if dk = 2 then
    if dl = 2 then
      let tt ← system22 a b k kk l ll
      let pp := lu.solve4 tt ![← c.get k l, ← c.get kk l, ← c.get k ll, ← c.get kk ll]
      let c ← c.set k l (pp 0)
      let c ← c.set kk l (pp 1)
      let c ← c.set k ll (pp 2)
      c.set kk ll (pp 3)
    else
      let tt ← system21 a b k kk l
      let pp := lu.solve2 tt ![← c.get k l, ← c.get kk l]
      let c ← c.set k l (pp 0)
      c.set kk l (pp 1)
  else if dl = 2 then
    let tt ← system12 a b k l ll
    let pp := lu.solve2 tt ![← c.get k l, ← c.get k ll]
    let c ← c.set k l (pp 0)
    c.set k ll (pp 1)
  else
    let t := (← a.get k k) + (← b.get l l)
    if isZero t then throw (.thrown "** SHRSLV:unable to solve")
    else c.set k l ((← c.get k l) / t)

/-- The solved columns, subtracted from the block of columns at `l`. -/
def subtractColumns (m l ll : ℕ) (b c : Grid K) : Checked (Grid K) :=
  if l = 0 then .ok c
  else
    forUpToM l ll c fun j c => forUpToM 0 m c fun i c => forBelowM 0 l c fun ib c => do
      c.set i j ((← c.get i j) - (← c.get i ib) * (← b.get ib j))

/-- The solved rows, subtracted from the block of rows at `k` in the block of columns at `l`. -/
def subtractRows (k kk l ll : ℕ) (a c : Grid K) : Checked (Grid K) :=
  if k = 0 then .ok c
  else
    forUpToM k kk c fun i c => forUpToM l ll c fun j c => forBelowM 0 k c fun ja c => do
      c.set i j ((← c.get i j) - (← a.get i ja) * (← c.get ja j))

/-- The blocks of rows from `k` on, in the block of columns at `l`. -/
def solveRows (lu : EigenLU K) (m : ℕ) (a b : Grid K) (l ll dl k : ℕ) (c : Grid K) :
    Checked (Grid K) := do
  let dk ← rowBlock m a k
  let kk ← sub (k + dk.1) 1
  let c ← subtractRows k kk l ll a c
  let c ← solveBlock lu a b k kk dk.1 l ll dl c
  if k + dk.1 ≤ m then solveRows lu m a b l ll dl (k + dk.1) c else return c
  termination_by m + 1 - k
  decreasing_by
    exact Nat.sub_lt_sub_left (by omega) (Nat.lt_add_of_pos_right dk.2)

/-- The blocks of columns from `l` on. -/
def solveColumns (lu : EigenLU K) (m n : ℕ) (a b : Grid K) (l : ℕ) (c : Grid K) :
    Checked (Grid K) := do
  let dl ← columnBlock n b l
  let ll ← sub (l + dl.1) 1
  let c ← subtractColumns m l ll b c
  let c ← solveRows lu m a b l ll dl.1 0 c
  if l + dl.1 ≤ n then solveColumns lu m n a b (l + dl.1) c else return c
  termination_by n + 1 - l
  decreasing_by
    exact Nat.sub_lt_sub_left (by omega) (Nat.lt_add_of_pos_right dl.2)

/-- **The transformed equation.** -/
def shrslv (lu : EigenLU K) (m n : ℕ) (a b c : Grid K) : Checked (Grid K) :=
  solveColumns lu m n a b 0 c

/-! ### `bs_solve` -/

/-- The arrays of `bs_solve`. -/
structure Arrays (K : Type) where
  a : Grid K
  b : Grid K
  u : Grid K
  v : Grid K
  c : Grid K
  rslt : Grid K

/-- Column `j` of the result by way of column `m + 1` of `a`. -/
def throughColumn (m j : ℕ) (add : ℕ → ℕ → Arrays K → K → Checked K) (s : Arrays K) :
    Checked (Arrays K) := do
  let s ← forUpToM 0 m s fun i s => do
    let s := { s with a := ← s.a.set i (m + 1) 0 }
    forUpToM 0 m s fun k s => do
      let sum ← add i k s (← s.a.get i (m + 1))
      return { s with a := ← s.a.set i (m + 1) sum }
  forUpToM 0 m s fun i s => do
    return { s with rslt := ← s.rslt.set i j (← s.a.get i (m + 1)) }

/-- Row `i` of the result by way of row `n + 1` of `b`. -/
def throughRow (n i : ℕ) (add : ℕ → ℕ → Arrays K → K → Checked K) (s : Arrays K) :
    Checked (Arrays K) := do
  let s ← forUpToM 0 n s fun j s => do
    let s := { s with b := ← s.b.set (n + 1) j 0 }
    forUpToM 0 n s fun k s => do
      let sum ← add j k s (← s.b.get (n + 1) j)
      return { s with b := ← s.b.set (n + 1) j sum }
  forUpToM 0 n s fun j s => do
    return { s with rslt := ← s.rslt.set i j (← s.b.get (n + 1) j) }

/-- The right-hand side in the new coordinates. -/
def transformRhs (m n : ℕ) (s : Arrays K) : Checked (Arrays K) := do
  let s ← forUpToM 0 n s fun j s =>
    throughColumn m j (fun i k s sum => do return sum - (← s.u.get k i) * (← s.c.get k j)) s
  forUpToM 0 m s fun i s =>
    throughRow n i (fun j k s sum => do return sum + (← s.rslt.get i k) * (← s.v.get k j)) s

/-- The solution in the old coordinates. -/
def transformBack (m n : ℕ) (s : Arrays K) : Checked (Arrays K) := do
  let s ← forUpToM 0 n s fun j s =>
    throughColumn m j (fun i k s sum => do return sum + (← s.u.get i k) * (← s.rslt.get k j)) s
  forUpToM 0 m s fun i s =>
    throughRow n i (fun j k s sum => do return sum + (← s.rslt.get i k) * (← s.v.get j k)) s

/-- **The solver.** -/
def bsSolve (lu : EigenLU K) (m n : ℕ) (s : Arrays K) : Checked (Arrays K) := do
  let s ← transformRhs m n s
  let rslt ← shrslv lu m n s.a s.b s.rslt
  transformBack m n { s with rslt := rslt }

/-- **The solver with one matrix.** -/
def bsSolveSquare (lu : EigenLU K) (m : ℕ) (a u c rslt : Grid K) : Checked (Grid K × Grid K) := do
  let s ← bsSolve lu m m ⟨a.transpose, a, u, u, c, rslt⟩
  return (s.b, s.rslt)

end Definitions

/-! ### No check fails -/

section Equation

variable {m n k l dk dl r c p q : ℕ} (a b C : Mat K)

theorem subtractColumns_eq (hdl : 0 < dl ∧ l + dl ≤ n + 1) (hp : n < p) (hq : n < q) (hr : m < r)
    (hc : n < c) :
    subtractColumns m l (l + dl - 1) ⟨p, q, b⟩ ⟨r, c, C⟩ =
      .ok ⟨r, c, BS.subtractColumns m l dl b C⟩ := by
  rw [subtractColumns, BS.subtractColumns]
  split_ifs
  · rfl
  · refine forUpToM_eq (Grid.mk r c) ?_
    intro j _ hj C
    refine forUpToM_eq (Grid.mk r c) ?_
    intro i _ hi C
    refine forBelowM_eq (Grid.mk r c) ?_
    intro ib _ hib C
    simp (disch := omega) only [Grid.get_ok, Grid.set_ok, ok_bind]

theorem subtractRows_eq (hdk : 0 < dk ∧ k + dk ≤ m + 1) (hdl : 0 < dl ∧ l + dl ≤ n + 1) (hp : m < p)
    (hq : m < q) (hr : m < r) (hc : n < c) : subtractRows k (k + dk - 1) l (l + dl - 1) ⟨p, q, a⟩
      ⟨r, c, C⟩ = .ok ⟨r, c, BS.subtractRows k dk l dl a C⟩ := by
  rw [subtractRows, BS.subtractRows]
  split_ifs
  · rfl
  · refine forUpToM_eq (Grid.mk r c) ?_
    intro i _ hi C
    refine forUpToM_eq (Grid.mk r c) ?_
    intro j _ hj C
    refine forBelowM_eq (Grid.mk r c) ?_
    intro ja _ hja C
    simp (disch := omega) only [Grid.get_ok, Grid.set_ok, ok_bind]

variable [ZeroTest K]

omit [Field K] in
/-- The size of a block: the entry beside the diagonal is there when it is read. -/
theorem blockSize_eq {beside : Checked K} {x : K} (hread : k ≠ n → beside = .ok x) :
    ∃ d, blockSize n k beside = .ok d ∧ d.1 = if k ≠ n ∧ isZero x = false then 2 else 1 := by
  by_cases hne : k = n
  · refine ⟨⟨1, Nat.one_pos⟩, if_neg (not_not_intro hne), ?_⟩
    exact (if_neg fun h => h.1 hne).symm
  cases hzero : isZero x with
  | false =>
      refine ⟨⟨2, Nat.two_pos⟩, (if_pos hne).trans (bind_eq (hread hne) ?_), ?_⟩
      · rw [hzero]
        rfl
      · exact (if_pos ⟨hne, rfl⟩).symm
  | true =>
      refine ⟨⟨1, Nat.one_pos⟩, (if_pos hne).trans (bind_eq (hread hne) (if_pos hzero)), ?_⟩
      exact (if_neg fun h => Bool.noConfusion h.2).symm

omit [Field K] in
theorem columnBlock_eq (hp : n < p) (hq : n < q) (hl : l ≤ n) :
    ∃ d, columnBlock n ⟨p, q, b⟩ l = .ok d ∧ d.1 = BS.columnBlock n b l :=
  blockSize_eq fun _ => Grid.get_ok b (by omega) (by omega)

omit [Field K] in
theorem rowBlock_eq (hp : m < p) (hq : m < q) (hk : k ≤ m) :
    ∃ d, rowBlock m ⟨p, q, a⟩ k = .ok d ∧ d.1 = BS.rowBlock m a k :=
  blockSize_eq fun _ => Grid.get_ok a (by omega) (by omega)

variable (lu : EigenLU K)

theorem solveBlock_eq (hdk : 0 < dk ∧ k + dk ≤ m + 1) (hdl : 0 < dl ∧ l + dl ≤ n + 1) {r' c' : ℕ}
    (hr' : m < r') (hc' : m < c') (hp : n < p) (hq : n < q) (hr : m < r) (hc : n < c) :
    solveBlock lu ⟨r', c', a⟩ ⟨p, q, b⟩ k (k + dk - 1) dk l (l + dl - 1) dl ⟨r, c, C⟩ =
      Grid.mk r c <$> unchecked (BS.solveBlock lu a b k dk l dl C) := by
  rw [solveBlock, BS.solveBlock]
  by_cases hdk₂ : dk = 2
  · subst hdk₂
    have hkk : k + 2 - 1 = k + 1 := rfl
    by_cases hdl₂ : dl = 2
    · subst hdl₂
      have hll : l + 2 - 1 = l + 1 := rfl
      rw [if_pos rfl, if_pos rfl, hkk, hll]
      simp (disch := omega) only [system22, Grid.get_ok, Grid.set_ok, ok_bind, pure_eq_ok]
      rfl
    · rw [if_pos rfl, if_neg hdl₂, if_pos rfl, if_neg hdl₂, hkk]
      simp (disch := omega) only [system21, Grid.get_ok, Grid.set_ok, ok_bind, pure_eq_ok]
      rfl
  · rw [if_neg hdk₂, if_neg hdk₂]
    by_cases hdl₂ : dl = 2
    · subst hdl₂
      have hll : l + 2 - 1 = l + 1 := rfl
      rw [if_pos rfl, if_pos rfl, hll]
      simp (disch := omega) only [system12, Grid.get_ok, Grid.set_ok, ok_bind, pure_eq_ok]
      rfl
    · rw [if_neg hdl₂, if_neg hdl₂]
      simp (disch := omega) only [Grid.get_ok, Grid.set_ok, ok_bind]
      split_ifs
      · rfl
      · rfl

/-- The blocks of rows. -/
theorem solveRows_eq (hdl : 0 < dl ∧ l + dl ≤ n + 1) {r' c' : ℕ} (hr' : m < r') (hc' : m < c')
    (hp : n < p) (hq : n < q) (hr : m < r) (hc : n < c) (k : ℕ) (hk : k ≤ m) (C : Mat K) :
    solveRows lu m ⟨r', c', a⟩ ⟨p, q, b⟩ l (l + dl - 1) dl k ⟨r, c, C⟩ =
      Grid.mk r c <$> unchecked (BS.solveRows lu m a b l dl k C) := by
  obtain ⟨⟨dk, hpos⟩, hrun, hdk⟩ := rowBlock_eq a hr' hc' hk
  have hbounds := rowBlock_bounds a hk
  rw [← (show dk = _ from hdk)] at hbounds
  rw [solveRows, BS.solveRows, ← (show dk = _ from hdk)]
  have hkk : sub (k + dk) 1 = .ok (k + dk - 1) := sub_ok (by omega)
  refine bind_eq hrun (bind_eq hkk ?_)
  refine bind_eq (subtractRows_eq a C hbounds hdl hr' hc' hr hc) ?_
  refine bind_unchecked (Grid.mk r c) (Grid.mk r c)
    (solveBlock_eq a b _ lu hbounds hdl hr' hc' hp hq hr hc) fun D => ?_
  split_ifs with hle
  · exact solveRows_eq hdl hr' hc' hp hq hr hc (k + dk) hle D
  · rfl
  termination_by m + 1 - k

/-- The blocks of columns. -/
theorem solveColumns_eq {r' c' : ℕ} (hr' : m < r') (hc' : m < c') (hp : n < p) (hq : n < q)
    (hr : m < r) (hc : n < c) (l : ℕ) (hl : l ≤ n) (C : Mat K) :
    solveColumns lu m n ⟨r', c', a⟩ ⟨p, q, b⟩ l ⟨r, c, C⟩ =
      Grid.mk r c <$> unchecked (BS.solveColumns lu m n a b l C) := by
  obtain ⟨⟨dl, hpos⟩, hrun, hdl⟩ := columnBlock_eq b hp hq hl
  have hbounds := columnBlock_bounds b hl
  rw [← (show dl = _ from hdl)] at hbounds
  rw [solveColumns, BS.solveColumns, ← (show dl = _ from hdl)]
  have hll : sub (l + dl) 1 = .ok (l + dl - 1) := sub_ok (by omega)
  refine bind_eq hrun (bind_eq hll ?_)
  refine bind_eq (subtractColumns_eq b C hbounds hp hq hr hc) ?_
  refine bind_unchecked (Grid.mk r c) (Grid.mk r c)
    (solveRows_eq a b lu hbounds hr' hc' hp hq hr hc 0 (Nat.zero_le m) _) fun D => ?_
  split_ifs with hle
  · exact solveColumns_eq hr' hc' hp hq hr hc (l + dl) hle D
  · rfl
  termination_by n + 1 - l

/-- **No check fails in the transformed equation.** -/
theorem shrslv_eq {r' c' : ℕ} (hr' : m < r') (hc' : m < c') (hp : n < p) (hq : n < q) (hr : m < r)
    (hc : n < c) : shrslv lu m n ⟨r', c', a⟩ ⟨p, q, b⟩ ⟨r, c, C⟩ =
      Grid.mk r c <$> unchecked (BS.shrslv lu m n a b C) :=
  solveColumns_eq a b lu hr' hc' hp hq hr hc 0 (Nat.zero_le n) C

end Equation

section Solve

variable {m n i j p q : ℕ}

/-- The arrays with their sizes. -/
def sized (p q : ℕ) (s : BS.Arrays K) : Arrays K where
  a := ⟨p, p, s.a⟩
  b := ⟨q, q, s.b⟩
  u := ⟨p, p, s.u⟩
  v := ⟨q, q, s.v⟩
  c := ⟨p, q, s.c⟩
  rslt := ⟨p, q, s.rslt⟩

theorem throughColumn_eq {add : ℕ → ℕ → Arrays K → K → Checked K}
    {g : ℕ → ℕ → BS.Arrays K → K → K} (hm : m + 1 < p) (hj : j < q)
    (hadd : ∀ i k s sum, i ≤ m → k ≤ m → add i k (sized p q s) sum = .ok (g i k s sum))
    (s : BS.Arrays K) :
    throughColumn m j add (sized p q s) = .ok (sized p q (BS.throughColumn m j g s)) := by
  refine bind_eq (forUpToM_eq (g := fun i s =>
    forUpTo 0 m { s with a := update s.a (i, m + 1) 0 } fun k s =>
      { s with a := update s.a (i, m + 1) (g i k s (s.a (i, m + 1))) }) (sized p q)
    fun i _ hi s => ?_) (forUpToM_eq (sized p q) fun i _ hi s => ?_)
  · refine bind_eq (Grid.set_ok s.a 0 (by omega) hm) ?_
    refine forUpToM_eq (t := { s with a := update s.a (i, m + 1) 0 }) (sized p q) ?_
    intro k _ hk s
    refine bind_eq (Grid.get_ok s.a (by omega) hm) (bind_eq (hadd i k s _ hi hk) ?_)
    exact bind_eq (Grid.set_ok s.a _ (by omega) hm) rfl
  · refine bind_eq (Grid.get_ok s.a (by omega) hm) ?_
    exact bind_eq (Grid.set_ok s.rslt _ (by omega) hj) rfl

theorem throughRow_eq {add : ℕ → ℕ → Arrays K → K → Checked K}
    {g : ℕ → ℕ → BS.Arrays K → K → K} (hn : n + 1 < q) (hi : i < p)
    (hadd : ∀ j k s sum, j ≤ n → k ≤ n → add j k (sized p q s) sum = .ok (g j k s sum))
    (s : BS.Arrays K) :
    throughRow n i add (sized p q s) = .ok (sized p q (BS.throughRow n i g s)) := by
  refine bind_eq (forUpToM_eq (g := fun j s =>
    forUpTo 0 n { s with b := update s.b (n + 1, j) 0 } fun k s =>
      { s with b := update s.b (n + 1, j) (g j k s (s.b (n + 1, j))) }) (sized p q)
    fun j _ hj s => ?_) (forUpToM_eq (sized p q) fun j _ hj s => ?_)
  · refine bind_eq (Grid.set_ok s.b 0 hn (by omega)) ?_
    refine forUpToM_eq (t := { s with b := update s.b (n + 1, j) 0 }) (sized p q) ?_
    intro k _ hk s
    refine bind_eq (Grid.get_ok s.b hn (by omega)) (bind_eq (hadd j k s _ hj hk) ?_)
    exact bind_eq (Grid.set_ok s.b _ hn (by omega)) rfl
  · refine bind_eq (Grid.get_ok s.b hn (by omega)) ?_
    exact bind_eq (Grid.set_ok s.rslt _ hi (by omega)) rfl

theorem transformRhs_eq (hm : m + 1 < p) (hn : n + 1 < q) (s : BS.Arrays K) :
    transformRhs m n (sized p q s) = .ok (sized p q (BS.transformRhs m n s)) := by
  refine bind_eq (forUpToM_eq (sized p q) fun j _ hj s => throughColumn_eq
    (g := fun i k s sum => sum - s.u (k, i) * s.c (k, j)) hm (by omega) ?_ s) ?_
  · intro i k s sum hi hk
    refine bind_eq (Grid.get_ok s.u (by omega) (by omega)) ?_
    exact bind_eq (Grid.get_ok s.c (by omega) (by omega)) rfl
  refine forUpToM_eq (sized p q) fun i _ hi s => throughRow_eq hn (by omega) ?_ s
  intro j k s sum hj hk
  refine bind_eq (Grid.get_ok s.rslt (by omega) (by omega)) ?_
  exact bind_eq (Grid.get_ok s.v (by omega) (by omega)) rfl

theorem transformBack_eq (hm : m + 1 < p) (hn : n + 1 < q) (s : BS.Arrays K) :
    transformBack m n (sized p q s) = .ok (sized p q (BS.transformBack m n s)) := by
  refine bind_eq (forUpToM_eq (sized p q) fun j _ hj s => throughColumn_eq
    (g := fun i k s sum => sum + s.u (i, k) * s.rslt (k, j)) hm (by omega) ?_ s) ?_
  · intro i k s sum hi hk
    refine bind_eq (Grid.get_ok s.u (by omega) (by omega)) ?_
    exact bind_eq (Grid.get_ok s.rslt (by omega) (by omega)) rfl
  refine forUpToM_eq (sized p q) fun i _ hi s => throughRow_eq hn (by omega) ?_ s
  intro j k s sum hj hk
  refine bind_eq (Grid.get_ok s.rslt (by omega) (by omega)) ?_
  exact bind_eq (Grid.get_ok s.v (by omega) (by omega)) rfl

variable [ZeroTest K] (lu : EigenLU K)

/-- **No check fails in the solver.** -/
theorem bsSolve_eq (hm : m + 1 < p) (hn : n + 1 < q) (s : BS.Arrays K) :
    bsSolve lu m n (sized p q s) = sized p q <$> unchecked (BS.bsSolve lu m n s) := by
  refine bind_eq (transformRhs_eq hm hn s) ?_
  rw [BS.bsSolve]
  generalize BS.transformRhs m n s = s
  have hshrslv := shrslv_eq s.a s.b s.rslt lu (m := m) (n := n) (Nat.lt_of_succ_lt hm)
    (Nat.lt_of_succ_lt hm) (Nat.lt_of_succ_lt hn) (Nat.lt_of_succ_lt hn) (Nat.lt_of_succ_lt hm)
    (Nat.lt_of_succ_lt hn)
  exact bind_unchecked (Grid.mk p q) (sized p q) hshrslv fun rslt =>
    transformBack_eq hm hn { s with rslt := rslt }

/-- **No check fails in the solver with one matrix.** -/
theorem bsSolveSquare_eq (hm : m + 1 < p) (a u c rslt : Mat K) :
    bsSolveSquare lu m ⟨p, p, a⟩ ⟨p, p, u⟩ ⟨p, p, c⟩ ⟨p, p, rslt⟩ =
      pair p p p p <$> unchecked (BS.bsSolveSquare lu m a u c rslt) := by
  refine bind_unchecked (sized p p) (pair p p p p)
    (bsSolve_eq lu hm hm ⟨fun x => a (x.2, x.1), a, u, u, c, rslt⟩) fun s => ?_
  rfl

end Solve

end Chebyshev.BS.Checked
