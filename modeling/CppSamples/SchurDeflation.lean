/-
**What the QR iteration has split off.**

Whatever the arithmetic and its comparisons, a subdiagonal entry that has been set to zero at a
split stays zero: a sweep on the block that ends at row `n` writes no row after it.  So when the
iteration comes to an end, no two neighbouring subdiagonal entries are left.

Main definitions:

* `Chebyshev.BS.Deflated` — the part after the block that the iteration works on.

Main results:

* `Chebyshev.BS.sweep_rows` — a sweep keeps the rows after its block;
* `Chebyshev.BS.iterate_quasiTriangular` — **the iteration leaves blocks of size one and two** when
  it succeeds.
-/

import CppSamples.HouseholderProduct

set_option relaxedAutoImplicit false
set_option autoImplicit false

namespace Chebyshev.BS

open CountedLoop Function

/-- The subdiagonal entries after the block that ends at `n`: the first one is zero, and no two
neighbours are left. -/
structure Deflated {K : Type*} [Zero K] (nn n : ℕ) (h : Mat K) : Prop where
  le : n ≤ nn
  edge : 0 < n → n < nn → h (n + 1, n) = 0
  tail : ∀ i, n < i → i < nn → h (i, i - 1) = 0 ∨ h (i + 1, i) = 0

section Deflated

variable {K : Type*} [Zero K] {nn n l : ℕ} {h h' : Mat K}

/-- Nothing has been split off yet. -/
theorem Deflated.start (nn : ℕ) (h : Mat K) : Deflated nn nn h := by
  refine ⟨le_rfl, fun _ hlt => absurd hlt (lt_irrefl nn), ?_⟩
  intro i hi hlt
  omega

/-- Only the rows after the block count. -/
theorem Deflated.congr (hd : Deflated nn n h) (hrows : ∀ x : ℕ × ℕ, n < x.1 → h' x = h x) :
    Deflated nn n h' := by
  refine ⟨hd.le, ?_, ?_⟩
  · intro hpos hlt
    rw [hrows _ n.lt_succ_self]
    exact hd.edge hpos hlt
  · intro i hi hlt
    rw [hrows _ hi, hrows _ (hi.trans i.lt_succ_self)]
    exact hd.tail i hi hlt

/-- Splitting a block off. -/
theorem Deflated.split (hd : Deflated nn n h) (hl : n - 1 ≤ l) (hln : l ≤ n) (hn : 0 < n)
    (hzero : l ≠ 0 → h (l, l - 1) = 0) : Deflated nn (l - 1) h := by
  have hle := hd.le
  refine ⟨by omega, ?_, ?_⟩
  · intro hpos hlt
    rw [show l - 1 + 1 = l by omega]
    exact hzero (by omega)
  · intro i hi hlt
    rcases Nat.lt_trichotomy i n with hin | rfl | hni
    · -- the block that is split off has two rows
      obtain rfl : i = l := by omega
      exact .inl (hzero (by omega))
    · rcases eq_or_ne l i with rfl | hne
      · exact .inl (hzero (by omega))
      · exact .inr (hd.edge hn hlt)
    · exact hd.tail i hni hlt

end Deflated

/-! ### The rows that a sweep writes -/

/-- One cell above the row of `x` is written. -/
theorem update_row {K : Type*} (h : Mat K) {i j : ℕ} (v : K) {x : ℕ × ℕ} (hx : i < x.1) :
    update h (i, j) v x = h x := by
  refine update_of_ne (fun he => ?_) _ _
  rw [he] at hx
  exact lt_irrefl _ hx

theorem deflate_row {K : Type*} [Zero K] {n l : ℕ} (hl : l ≤ n) (h : Mat K) {x : ℕ × ℕ}
    (hx : n < x.1) : deflate l h x = h x := by
  rw [deflate]
  split_ifs
  · rfl
  · exact update_row h 0 (hl.trans_lt hx)

theorem deflate_self {K : Type*} [Zero K] {l : ℕ} (h : Mat K) (hl : l ≠ 0) :
    deflate l h (l, l - 1) = 0 := by
  rw [deflate, if_neg hl, update_self]

theorem clearBelow_row {K : Type*} [Zero K] (n m : ℕ) (h : Mat K) {x : ℕ × ℕ} (hx : n < x.1) :
    clearBelow n m h x = h x := by
  have hloop : ∀ d (b : Mat K), forUpTo (m + d) n b (fun i h => update h (i, i - d) 0) x = b x :=
    fun d b => forBelow_frame fun i _ hi b => update_row b 0 (by omega)
  exact (hloop 3 _).trans (hloop 2 h)

section Rows

variable {K : Type*} [Zero K] [Add K] [Sub K] [Mul K]

omit [Zero K] in
theorem Reflector.onColumn_row (g : Reflector K) {notlast : Bool} {n k : ℕ} (hk : k + 1 ≤ n)
    (hlast : notlast = true → k + 2 ≤ n) (j : ℕ) (h : Mat K) {x : ℕ × ℕ} (hx : n < x.1) :
    g.onColumn notlast k j h x = h x := by
  rw [onColumn, update_row _ _ (by omega), update_row _ _ (by omega)]
  split_ifs with hnotlast
  · exact update_row h _ ((hlast hnotlast).trans_lt hx)
  · rfl

omit [Zero K] in
theorem Reflector.onRow_row (g : Reflector K) (notlast : Bool) (k : ℕ) {n i : ℕ} (hi : i ≤ n)
    (h : Mat K) {x : ℕ × ℕ} (hx : n < x.1) : g.onRow notlast k i h x = h x := by
  rw [onRow, update_row _ _ (by omega), update_row _ _ (by omega)]
  split_ifs
  · exact update_row h _ (by omega)
  · rfl

omit [Zero K] in
theorem Reflector.apply_row (g : Reflector K) (nn : ℕ) {n k : ℕ} (hk : k + 1 ≤ n)
    (s : Mat K × Mat K) {x : ℕ × ℕ} (hx : n < x.1) : (g.apply nn n k s).1 x = s.1 x := by
  have hj : (if k + 3 < n then k + 3 else n) ≤ n := by
    split_ifs <;> omega
  have hlast : decide (k ≠ n - 1) = true → k + 2 ≤ n := by
    intro h
    have hne := of_decide_eq_true h
    omega
  refine (forBelow_frame fun i _ hi b => g.onRow_row _ k (by omega) b hx).trans ?_
  exact forBelow_frame fun j _ _ b => g.onColumn_row hk hlast j b hx

variable [Div K] [Neg K] [Scalar K]

theorem sweepAt_row (nn : ℕ) {n k : ℕ} (hk : k + 1 ≤ n) (l m : ℕ) (v : Vec3 K) (s : Mat K × Mat K)
    {x : ℕ × ℕ} (hx : n < x.1) : (sweepAt nn n l m v k s).1 x = s.1 x := by
  rw [sweepAt]
  split_ifs with hkm hlm
  · exact (Reflector.apply_row _ nn hk _ hx).trans (update_row s.1 _ (by omega))
  · exact Reflector.apply_row _ nn hk _ hx
  · simp only
    split_ifs
    · rfl
    · exact (Reflector.apply_row _ nn hk _ hx).trans (update_row s.1 _ (by omega))

/-- **A sweep keeps the rows after its block.** -/
theorem sweep_rows (hn test : K) (nn : ℕ) {n : ℕ} (hpos : 0 < n) (l its : ℕ) (s : Mat K × Mat K)
    {x : ℕ × ℕ} (hx : n < x.1) : (sweep hn test nn n l its s).1 x = s.1 x := by
  have hloop : ∀ m (v : Vec3 K) (t : Mat K × Mat K),
      (forUpTo m (n - 1) t (sweepAt nn n l m v)).1 x = t.1 x := fun m v t =>
    forBelow_inv_const (fun b => b.1 x = t.1 x) rfl fun k _ hk b hb =>
      (sweepAt_row nn (by omega) l m v b hx).trans hb
  exact (hloop _ _ _).trans (clearBelow_row n _ s.1 hx)

/-! ### The iteration -/

/-- **The iteration leaves blocks of size one and two** when it succeeds, whatever the comparisons
yield. -/
theorem iterate_quasiTriangular {hn test : K} {nn n : ℕ} (its : ℕ) (s : Mat K × Mat K)
    (hd : Deflated nn n s.1) (hok : (iterate hn test nn n its s).1 = true) :
    QuasiTriangular nn (iterate hn test nn n its s).2.1 := by
  fun_induction iterate hn test nn n its s with
  | case1 its s => exact fun i hi hlt => hd.tail i hi hlt
  | case2 n its s hn₀ l h hl ih =>
      have hln : l ≤ n := smallSubdiagonal_le test s.1 n
      have hd' : Deflated nn n h := hd.congr fun x hx => deflate_row hln s.1 hx
      exact ih (hd'.split hl hln (Nat.pos_of_ne_zero hn₀) (deflate_self s.1)) hok
  | case3 n its s hn₀ l h hl hits => exact absurd hok Bool.false_ne_true
  | case4 n its s hn₀ l h hl hits ih =>
      have hln : l ≤ n := smallSubdiagonal_le test s.1 n
      refine ih (hd.congr fun x hx => ?_) hok
      exact (sweep_rows hn test nn (Nat.pos_of_ne_zero hn₀) l its (h, s.2) hx).trans
        (deflate_row hln s.1 hx)

/-- **The QR iteration leaves blocks of size one and two** when it succeeds, unless its first test
takes the norm of the matrix for zero; then it leaves the matrix as it is. -/
theorem schur_quasiTriangular (nn : ℕ) (eps : K) (h u : Mat K)
    (hok : (schur nn eps h u).1 = true) :
    QuasiTriangular nn (schur nn eps h u).2.1 ∨
      ZeroTest.isZero (hessenbergNorm nn h) = true ∧ (schur nn eps h u).2 = (h, u) := by
  unfold schur at hok ⊢
  simp only at hok ⊢
  split_ifs at hok ⊢ with hzero
  · exact .inr ⟨hzero, rfl⟩
  · exact .inl (iterate_quasiTriangular 0 (h, u) (Deflated.start nn h) hok)

end Rows

end Chebyshev.BS
