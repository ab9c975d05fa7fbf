/-
**Back substitution for the transformed equation.**

`shrslv` solves `LY + YR = C` for quasi-triangular `L` and `R`, block column by block column and in
each of them block row by block row: it subtracts what is known already and solves a system of
order one, two or four.  Each of its steps makes the equation true in the cells of one block and
leaves the cells that other equations depend on alone.

The arithmetic is that of any field.

Main definitions:

* `Chebyshev.BS.RowStart`, `Chebyshev.BS.ColumnStart` — where the diagonal blocks begin;
* `Chebyshev.BS.BlockSystem` — the system of a pair of blocks is nonsingular;
* `Chebyshev.BS.EigenLU.Exact`, `Chebyshev.BS.EigenLU.ExactOn` — what the solver relies on: its LU
  solvers are exact on every system, or on those of the blocks of two matrices;
* `Chebyshev.BS.exactLU` — the LU solvers of exact arithmetic.

Main results:

* `Chebyshev.BS.solveBlock_spec` — one block;
* `Chebyshev.BS.solveRows_spec`, `Chebyshev.BS.solveColumns_spec` — the two loops, by induction
  on the blocks that are left;
* `Chebyshev.BS.shrslv_solves`, `Chebyshev.BS.shrslv_solves_blocks` — **the whole back
  substitution**.
-/

import CppSamples.HouseholderProduct
import Mathlib.LinearAlgebra.Matrix.Determinant.Basic

set_option relaxedAutoImplicit false
set_option autoImplicit false

namespace Chebyshev.BS

open CountedLoop Function Finset Reflections

/-- The zero test is that of equality. -/
class LawfulZeroTest (K : Type*) [Zero K] [ZeroTest K] : Prop where
  isZero_iff (x : K) : ZeroTest.isZero x = true ↔ x = 0

instance : LawfulZeroTest ℝ := ⟨fun _ => decide_eq_true_iff⟩

variable {K : Type*} [Field K]

/-! ### What the solver relies on -/

/-- The LU solvers are exact on nonsingular systems. -/
structure EigenLU.Exact (lu : EigenLU K) : Prop where
  solve2 : ∀ (t : Matrix (Fin 2) (Fin 2) K) p, t.det ≠ 0 → t.mulVec (lu.solve2 t p) = p
  solve4 : ∀ (t : Matrix (Fin 4) (Fin 4) K) p, t.det ≠ 0 → t.mulVec (lu.solve4 t p) = p

/-- The LU solvers of exact arithmetic. -/
noncomputable def exactLU : EigenLU ℝ where
  solve2 t p := t⁻¹.mulVec p
  solve4 t p := t⁻¹.mulVec p

theorem exactLU_exact : exactLU.Exact := by
  constructor
  · intro t p ht
    rw [exactLU, Matrix.mulVec_mulVec, Matrix.mul_nonsing_inv t (isUnit_iff_ne_zero.2 ht),
      Matrix.one_mulVec]
  · intro t p ht
    rw [exactLU, Matrix.mulVec_mulVec, Matrix.mul_nonsing_inv t (isUnit_iff_ne_zero.2 ht),
      Matrix.one_mulVec]

variable [ZeroTest K]

/-- A block of rows begins at `k`. -/
def RowStart (a : Mat K) (k : ℕ) : Prop := k = 0 ∨ a (k - 1, k) = 0

/-- A block of columns begins at `l`. -/
def ColumnStart (b : Mat K) (l : ℕ) : Prop := l = 0 ∨ b (l, l - 1) = 0

/-- No two neighbours of the superdiagonal are both different from zero. -/
def QuasiLower (m : ℕ) (a : Mat K) : Prop :=
  ∀ k, 0 < k → k < m → a (k - 1, k) = 0 ∨ a (k, k + 1) = 0

/-- The system of a pair of blocks is nonsingular. -/
def BlockSystem (a b : Mat K) (k dk l dl : ℕ) : Prop :=
  if dk = 2 then if dl = 2 then (system22 a b k l).det ≠ 0 else (system21 a b k l).det ≠ 0
  else if dl = 2 then (system12 a b k l).det ≠ 0 else a (k, k) + b (l, l) ≠ 0

/-- The LU solvers are exact on the system of a pair of blocks. -/
def EigenLU.ExactAt (lu : EigenLU K) (a b : Mat K) (k dk l dl : ℕ) : Prop :=
  if dk = 2 then
    if dl = 2 then ∀ p, (system22 a b k l).mulVec (lu.solve4 (system22 a b k l) p) = p
    else ∀ p, (system21 a b k l).mulVec (lu.solve2 (system21 a b k l) p) = p
  else if dl = 2 then ∀ p, (system12 a b k l).mulVec (lu.solve2 (system12 a b k l) p) = p
  else True

/-- The system of every pair of diagonal blocks is nonsingular. -/
def Nonsingular (m n : ℕ) (a b : Mat K) : Prop :=
  ∀ k ≤ m, RowStart a k → ∀ l ≤ n, ColumnStart b l →
    BlockSystem a b k (rowBlock m a k) l (columnBlock n b l)

/-- The LU solvers are exact on the systems of all pairs of diagonal blocks. -/
def EigenLU.ExactOn (lu : EigenLU K) (m n : ℕ) (a b : Mat K) : Prop :=
  ∀ k ≤ m, RowStart a k → ∀ l ≤ n, ColumnStart b l →
    lu.ExactAt a b k (rowBlock m a k) l (columnBlock n b l)

omit [ZeroTest K] in
theorem EigenLU.Exact.exactAt {lu : EigenLU K} (hlu : lu.Exact) {a b : Mat K} {k dk l dl : ℕ}
    (hsys : BlockSystem a b k dk l dl) : lu.ExactAt a b k dk l dl := by
  rw [BlockSystem] at hsys
  rw [EigenLU.ExactAt]
  split_ifs at hsys ⊢ with hdk hdl hdl
  · exact fun p => hlu.solve4 _ p hsys
  · exact fun p => hlu.solve2 _ p hsys
  · exact fun p => hlu.solve2 _ p hsys

/-- LU solvers that are exact on nonsingular systems are exact on those of the blocks. -/
theorem EigenLU.Exact.exactOn {lu : EigenLU K} (hlu : lu.Exact) {m n : ℕ} {a b : Mat K}
    (hsys : Nonsingular m n a b) : lu.ExactOn m n a b := fun k hk hrow l hl hcolumn =>
  hlu.exactAt (hsys k hk hrow l hl hcolumn)

/-- The part of an array on and below the superdiagonal. -/
def lowerHess (a : Mat K) : Mat K := fun x => if x.2 ≤ x.1 + 1 then a x else 0

/-! ### The blocks -/

section Blocks

variable [LawfulZeroTest K] {m n k l : ℕ} {a b : Mat K}

/-- A block of columns ends inside the matrix, and the next one begins behind it. -/
theorem columnBlock_spec (hb : QuasiTriangular n b) (hl : l ≤ n) :
    (columnBlock n b l = 1 ∨ columnBlock n b l = 2) ∧ l + columnBlock n b l ≤ n + 1 ∧
      (l + columnBlock n b l ≤ n → b (l + columnBlock n b l, l + columnBlock n b l - 1) = 0) := by
  rw [columnBlock]
  split_ifs with h
  · -- a block of two: the entry below it is zero, as the one in it is not
    refine ⟨.inr rfl, by omega, fun hnext => ?_⟩
    have hne : b (l + 1, l) ≠ 0 := fun he =>
      Bool.false_ne_true (h.2.symm.trans ((LawfulZeroTest.isZero_iff _).2 he))
    exact (hb (l + 1) (by omega) (by omega)).resolve_left hne
  · refine ⟨.inl rfl, by omega, fun hnext => ?_⟩
    by_contra hne
    refine h ⟨by omega, ?_⟩
    rw [← Bool.not_eq_true, LawfulZeroTest.isZero_iff]
    exact hne

/-- A block of rows does, too: it is a block of columns of the transposed matrix. -/
theorem rowBlock_spec (ha : QuasiLower m a) (hk : k ≤ m) :
    (rowBlock m a k = 1 ∨ rowBlock m a k = 2) ∧ k + rowBlock m a k ≤ m + 1 ∧
      (k + rowBlock m a k ≤ m → a (k + rowBlock m a k - 1, k + rowBlock m a k) = 0) :=
  columnBlock_spec (b := fun x => a (x.2, x.1)) ha hk

end Blocks

/-! ### One block -/

section Block

variable {a b c d : Mat K} {lu : EigenLU K} {k dk l dl : ℕ}

/-- What the solution of a block does: the equation holds in its cells, with the sums over its own
rows and columns, and the other cells stay as they are. -/
structure SolvesBlock (a b : Mat K) (k dk l dl : ℕ) (c d : Mat K) : Prop where
  frame : ∀ x, ¬((k ≤ x.1 ∧ x.1 < k + dk) ∧ l ≤ x.2 ∧ x.2 < l + dl) → d x = c x
  equation : ∀ i, k ≤ i → i < k + dk → ∀ j, l ≤ j → j < l + dl →
    ∑ i' ∈ Ico k (k + dk), a (i, i') * d (i', j) + ∑ j' ∈ Ico l (l + dl), d (i, j') * b (j', j) =
      c (i, j)

omit [ZeroTest K] in
theorem sum_Ico_one (k : ℕ) (f : ℕ → K) : ∑ i ∈ Ico k (k + 1), f i = f k := by
  rw [Nat.Ico_succ_singleton, sum_singleton]

omit [ZeroTest K] in
theorem sum_Ico_two (k : ℕ) (f : ℕ → K) : ∑ i ∈ Ico k (k + 2), f i = f k + f (k + 1) := by
  rw [sum_Ico_succ_top (by omega), sum_Ico_one]

/-- One row and one column: one equation. -/
theorem solveBlock_one_one [LawfulZeroTest K] (hsys : a (k, k) + b (l, l) ≠ 0) :
    ∃ d, solveBlock lu a b k 1 l 1 c = .ok d ∧ SolvesBlock a b k 1 l 1 c d := by
  have hz : ZeroTest.isZero (a (k, k) + b (l, l)) = false := by
    rw [← Bool.not_eq_true, LawfulZeroTest.isZero_iff]
    exact hsys
  refine ⟨update c (k, l) (c (k, l) / (a (k, k) + b (l, l))), ?_, ?_, ?_⟩
  · simp [solveBlock, hz]
  · rintro ⟨i, j⟩ hx
    simp only at hx
    exact update_of_ne (cell_ne (by omega)) _ _
  · intro i hki hik j hlj hjl
    obtain rfl : i = k := by omega
    obtain rfl : j = l := by omega
    rw [sum_Ico_one, sum_Ico_one, update_self]
    field_simp

/-- One row and two columns. -/
theorem solveBlock_one_two
    (hlu : ∀ p, (system12 a b k l).mulVec (lu.solve2 (system12 a b k l) p) = p) :
    ∃ d, solveBlock lu a b k 1 l 2 c = .ok d ∧ SolvesBlock a b k 1 l 2 c d := by
  obtain ⟨pp, hpp⟩ : ∃ pp, pp = lu.solve2 (system12 a b k l) ![c (k, l), c (k, l + 1)] := ⟨_, rfl⟩
  have hsolved := hlu ![c (k, l), c (k, l + 1)]
  rw [← hpp] at hsolved
  have h₀ := congrFun hsolved 0
  have h₁ := congrFun hsolved 1
  simp only [system12, Matrix.mulVec, dotProduct, Fin.sum_univ_two, Matrix.of_apply,
    Matrix.cons_val_zero, Matrix.cons_val_one] at h₀ h₁
  obtain ⟨d, hd⟩ : ∃ d, d = update (update c (k, l) (pp 0)) (k, l + 1) (pp 1) := ⟨_, rfl⟩
  have hd₀ : d (k, l) = pp 0 := by rw [hd, update_of_ne (cell_ne (by omega)), update_self]
  have hd₁ : d (k, l + 1) = pp 1 := by rw [hd, update_self]
  refine ⟨d, ?_, ?_, ?_⟩
  · rw [hd, hpp]
    rfl
  · rintro ⟨i, j⟩ hx
    simp only at hx
    rw [hd, update_of_ne (cell_ne (by omega)), update_of_ne (cell_ne (by omega))]
  · intro i hki hik j hlj hjl
    obtain rfl : i = k := by omega
    rw [sum_Ico_one, sum_Ico_two, hd₀, hd₁]
    obtain rfl | rfl : j = l ∨ j = l + 1 := by omega
    · rw [hd₀]
      linear_combination h₀
    · rw [hd₁]
      linear_combination h₁

/-- Two rows and one column. -/
theorem solveBlock_two_one
    (hlu : ∀ p, (system21 a b k l).mulVec (lu.solve2 (system21 a b k l) p) = p) :
    ∃ d, solveBlock lu a b k 2 l 1 c = .ok d ∧ SolvesBlock a b k 2 l 1 c d := by
  obtain ⟨pp, hpp⟩ : ∃ pp, pp = lu.solve2 (system21 a b k l) ![c (k, l), c (k + 1, l)] := ⟨_, rfl⟩
  have hsolved := hlu ![c (k, l), c (k + 1, l)]
  rw [← hpp] at hsolved
  have h₀ := congrFun hsolved 0
  have h₁ := congrFun hsolved 1
  simp only [system21, Matrix.mulVec, dotProduct, Fin.sum_univ_two, Matrix.of_apply,
    Matrix.cons_val_zero, Matrix.cons_val_one] at h₀ h₁
  obtain ⟨d, hd⟩ : ∃ d, d = update (update c (k, l) (pp 0)) (k + 1, l) (pp 1) := ⟨_, rfl⟩
  have hd₀ : d (k, l) = pp 0 := by rw [hd, update_of_ne (cell_ne (by omega)), update_self]
  have hd₁ : d (k + 1, l) = pp 1 := by rw [hd, update_self]
  refine ⟨d, ?_, ?_, ?_⟩
  · rw [hd, hpp]
    rfl
  · rintro ⟨i, j⟩ hx
    simp only at hx
    rw [hd, update_of_ne (cell_ne (by omega)), update_of_ne (cell_ne (by omega))]
  · intro i hki hik j hlj hjl
    obtain rfl : j = l := by omega
    rw [sum_Ico_one, sum_Ico_two, hd₀, hd₁]
    obtain rfl | rfl : i = k ∨ i = k + 1 := by omega
    · rw [hd₀]
      linear_combination h₀
    · rw [hd₁]
      linear_combination h₁

/-- Two rows and two columns. -/
theorem solveBlock_two_two
    (hlu : ∀ p, (system22 a b k l).mulVec (lu.solve4 (system22 a b k l) p) = p) :
    ∃ d, solveBlock lu a b k 2 l 2 c = .ok d ∧ SolvesBlock a b k 2 l 2 c d := by
  obtain ⟨p, hp⟩ : ∃ p : Fin 4 → K, p = ![c (k, l), c (k + 1, l), c (k, l + 1), c (k + 1, l + 1)] :=
    ⟨_, rfl⟩
  obtain ⟨pp, hpp⟩ : ∃ pp, pp = lu.solve4 (system22 a b k l) p := ⟨_, rfl⟩
  have hsolved := hlu p
  rw [← hpp] at hsolved
  have h₀ := congrFun hsolved 0
  have h₁ := congrFun hsolved 1
  have h₂ := congrFun hsolved 2
  have h₃ := congrFun hsolved 3
  simp only [system22, Matrix.mulVec, dotProduct, Fin.sum_univ_four, Matrix.of_apply,
    Matrix.cons_val', Matrix.cons_val_fin_one, Matrix.cons_val_zero, Matrix.cons_val_one,
    Matrix.cons_val, hp] at h₀ h₁ h₂ h₃
  obtain ⟨d, hd⟩ : ∃ d, d = update (update (update (update c (k, l) (pp 0)) (k + 1, l) (pp 1))
    (k, l + 1) (pp 2)) (k + 1, l + 1) (pp 3) := ⟨_, rfl⟩
  have hd₀ : d (k, l) = pp 0 := by
    rw [hd, update_of_ne (cell_ne (by omega)), update_of_ne (cell_ne (by omega)),
      update_of_ne (cell_ne (by omega)), update_self]
  have hd₁ : d (k + 1, l) = pp 1 := by
    rw [hd, update_of_ne (cell_ne (by omega)), update_of_ne (cell_ne (by omega)), update_self]
  have hd₂ : d (k, l + 1) = pp 2 := by rw [hd, update_of_ne (cell_ne (by omega)), update_self]
  have hd₃ : d (k + 1, l + 1) = pp 3 := by rw [hd, update_self]
  refine ⟨d, ?_, ?_, ?_⟩
  · rw [hd, hpp, hp]
    rfl
  · rintro ⟨i, j⟩ hx
    simp only at hx
    rw [hd, update_of_ne (cell_ne (by omega)), update_of_ne (cell_ne (by omega)),
      update_of_ne (cell_ne (by omega)), update_of_ne (cell_ne (by omega))]
  · intro i hki hik j hlj hjl
    rw [sum_Ico_two, sum_Ico_two]
    obtain rfl | rfl : i = k ∨ i = k + 1 := by omega
    · obtain rfl | rfl : j = l ∨ j = l + 1 := by omega
      · rw [hd₀, hd₁, hd₂]
        linear_combination h₀
      · rw [hd₀, hd₂, hd₃]
        linear_combination h₂
    · obtain rfl | rfl : j = l ∨ j = l + 1 := by omega
      · rw [hd₀, hd₁, hd₃]
        linear_combination h₁
      · rw [hd₁, hd₂, hd₃]
        linear_combination h₃

/-- **One block.** -/
theorem solveBlock_spec [LawfulZeroTest K] (hdk : dk = 1 ∨ dk = 2) (hdl : dl = 1 ∨ dl = 2)
    (hsys : BlockSystem a b k dk l dl) (hlu : lu.ExactAt a b k dk l dl) (c : Mat K) :
    ∃ d, solveBlock lu a b k dk l dl c = .ok d ∧ SolvesBlock a b k dk l dl c d := by
  rcases hdk with rfl | rfl
  · rcases hdl with rfl | rfl
    · exact solveBlock_one_one hsys
    · exact solveBlock_one_two hlu
  · rcases hdl with rfl | rfl
    · exact solveBlock_two_one hlu
    · exact solveBlock_two_two hlu

end Block

/-! ### Subtracting what is known -/

section Subtract

variable (m : ℕ) {a b : Mat K} {k dk l dl : ℕ}

/-- **Subtracting what is known**, in the layers `lo, …, hi - 1` of the cells `cell p q`: a cell
loses a multiple of every known cell in line with it, and the known cells are those of the layers
before `lo`. -/
theorem subtractKnown_apply {R : Type*} [AddCommGroup R] (cell : ℕ → ℕ → ℕ × ℕ)
    {layer line : ℕ × ℕ → ℕ} (hcell : ∀ x, cell (layer x) (line x) = x)
    (hlayer : ∀ p q, layer (cell p q) = p) (hline : ∀ p q, line (cell p q) = q)
    (g : ℕ → ℕ → R → R) (lo hi lo' hi' : ℕ) (c : Mat R) (x : ℕ × ℕ) :
    forBelow lo hi c (fun p d => forBelow lo' hi' d fun q d => forBelow 0 lo d fun r d =>
      update d (cell p q) (d (cell p q) - g p r (d (cell r q)))) x =
      if lo ≤ layer x ∧ layer x < hi then
        if lo' ≤ line x ∧ line x < hi' then
          c x - ∑ r ∈ range lo, g (layer x) r (c (cell r (line x))) else c x
      else c x := by
  have hne : ∀ p q p' q', p ≠ p' → cell p q ≠ cell p' q' := by
    intro p q p' q' h he
    rw [← hlayer p q, he, hlayer] at h
    exact h rfl
  -- one cell
  have hone : ∀ p q, lo ≤ p → ∀ d : Mat R,
      forBelow 0 lo d (fun r d => update d (cell p q) (d (cell p q) - g p r (d (cell r q)))) =
        update d (cell p q) (d (cell p q) - ∑ r ∈ range lo, g p r (d (cell r q))) := by
    intro p q hp d
    rw [forBelow_update_sub, range_eq_Ico]
    intro r _ hr v
    rw [update_of_ne (hne r q p q (by omega))]
  -- one layer
  have hrow : ∀ p, lo ≤ p → ∀ (d : Mat R) (x : ℕ × ℕ),
      forBelow lo' hi' d (fun q d => forBelow 0 lo d fun r d =>
        update d (cell p q) (d (cell p q) - g p r (d (cell r q)))) x =
        if lo' ≤ line x ∧ line x < hi' then
          if layer x = p then d x - ∑ r ∈ range lo, g p r (d (cell r (line x))) else d x
        else d x := by
    intro p hp d x
    refine forBelow_layers line
      (fun x => if layer x = p then d x - ∑ r ∈ range lo, g p r (d (cell r (line x))) else d x)
      (fun q _ _ e y hy => ?_) (fun q _ _ e he y hy => ?_) x
    · rw [hone p q hp]
      refine update_of_ne (fun h => hy ?_) _ _
      rw [h, hline]
    · subst hy
      have hsame : ∀ r, e (cell r (line y)) = d (cell r (line y)) := fun r =>
        he _ (.inr (hline r _).ge)
      have hy : e y = d y := he y (.inr le_rfl)
      rw [hone p _ hp, update_apply]
      simp only [hsame]
      by_cases hp' : layer y = p
      · rw [if_pos hp', ← hp', hcell, if_pos rfl]
      · have hy' : y ≠ cell p (line y) := by
          intro h
          rw [h, hlayer] at hp'
          exact hp' rfl
        rw [if_neg hp', if_neg hy', hy]
  refine forBelow_layers layer (fun x => if lo' ≤ line x ∧ line x < hi' then
    c x - ∑ r ∈ range lo, g (layer x) r (c (cell r (line x))) else c x)
    (fun p hp _ e y hy => ?_) (fun p hp _ e he y hy => ?_) x
  · rw [hrow p hp, if_neg hy, ite_self]
  · subst hy
    have hknown : ∀ r ∈ range lo, g (layer y) r (e (cell r (line y))) =
        g (layer y) r (c (cell r (line y))) := by
      intro r hr
      rw [he _ (.inl ((hlayer r _).trans_lt (mem_range.1 hr)))]
    rw [hrow _ hp, if_pos rfl, he y (.inr le_rfl), sum_congr rfl hknown]

omit [ZeroTest K] in
/-- The known rows, subtracted from a block. -/
theorem subtractRows_apply (hdk : 0 < dk) (hdl : 0 < dl) (c : Mat K) (x : ℕ × ℕ) :
    subtractRows k dk l dl a c x =
      if (k ≤ x.1 ∧ x.1 < k + dk) ∧ l ≤ x.2 ∧ x.2 < l + dl then
        c x - ∑ i' ∈ range k, a (x.1, i') * c (i', x.2) else c x := by
  rw [subtractRows]
  by_cases hk : k = 0
  · subst hk
    rw [if_pos rfl, range_zero, sum_empty, sub_zero, ite_self]
  · rw [if_neg hk, forUpTo, show k + dk - 1 + 1 = k + dk by omega]
    simp only [forUpTo, show l + dl - 1 + 1 = l + dl by omega]
    refine (subtractKnown_apply Prod.mk (fun _ => rfl) (fun _ _ => rfl) (fun _ _ => rfl)
      (fun i i' v => a (i, i') * v) k (k + dk) l (l + dl) c x).trans ?_
    exact (ite_and ..).symm

omit [ZeroTest K] in
/-- The known columns, subtracted from a block of columns. -/
theorem subtractColumns_apply (hdl : 0 < dl) (c : Mat K) (x : ℕ × ℕ) :
    subtractColumns m l dl b c x =
      if (l ≤ x.2 ∧ x.2 < l + dl) ∧ x.1 ≤ m then
        c x - ∑ j' ∈ range l, c (x.1, j') * b (j', x.2) else c x := by
  rw [subtractColumns]
  by_cases hl : l = 0
  · subst hl
    rw [if_pos rfl, range_zero, sum_empty, sub_zero, ite_self]
  · rw [if_neg hl, forUpTo, show l + dl - 1 + 1 = l + dl by omega]
    refine (subtractKnown_apply (fun j i => (i, j)) (fun _ => rfl) (fun _ _ => rfl)
      (fun _ _ => rfl) (fun j j' v => v * b (j', j)) l (l + dl) 0 (m + 1) c x).trans ?_
    rw [← ite_and]
    exact if_congr (by omega) rfl rfl

end Subtract

/-! ### The two loops -/

omit [ZeroTest K] in
/-- A sum over a row: what is known in front of a block, the block, and zeros behind it. -/
theorem sum_block {m k dk : ℕ} (hk : k + dk ≤ m + 1) {f known own : ℕ → K}
    (hknown : ∀ i, i < k → f i = known i) (hown : ∀ i, k ≤ i → i < k + dk → f i = own i)
    (hzero : ∀ i, k + dk ≤ i → i ≤ m → f i = 0) :
    ∑ i ∈ range (m + 1), f i = ∑ i ∈ range k, known i + ∑ i ∈ Ico k (k + dk), own i := by
  have hbehind : ∑ i ∈ Ico (k + dk) (m + 1), f i = 0 := by
    refine sum_eq_zero ?_
    intro i hi
    rw [mem_Ico] at hi
    exact hzero i hi.1 (by omega)
  rw [← sum_range_add_sum_Ico f hk, ← sum_range_add_sum_Ico f (Nat.le_add_right k dk), hbehind,
    add_zero]
  congr 1
  · exact sum_congr rfl fun i hi => hknown i (mem_range.1 hi)
  · exact sum_congr rfl fun i hi => hown i (mem_Ico.1 hi).1 (mem_Ico.1 hi).2

omit [ZeroTest K] in
/-- Below the diagonal block that ends at `e` the columns of the block are zero. -/
theorem hess_behind {b : Mat K} {j j' e : ℕ} (hj : j < e) (hj' : e ≤ j')
    (hzero : b (e, e - 1) = 0) : hess b (j', j) = 0 := by
  rw [hess]
  split_ifs with hnear
  · -- the first entry below the block
    obtain rfl : j' = e := by simp only at hnear; omega
    obtain rfl : j = j' - 1 := by simp only at hnear; omega
    exact hzero
  · rfl

omit [ZeroTest K] in
/-- To the right of it the rows of the block are. -/
theorem lowerHess_behind {a : Mat K} {i i' e : ℕ} (hi : i < e) (hi' : e ≤ i')
    (hzero : a (e - 1, e) = 0) : lowerHess a (i, i') = 0 :=
  hess_behind (b := fun x => a (x.2, x.1)) hi hi' hzero

section Loops

variable [LawfulZeroTest K] {lu : EigenLU K} {m n : ℕ} {a b : Mat K}

/-- **The loop over the block rows** of one block column makes the equations of its rows true, with
the sums over the columns of the block. -/
theorem solveRows_spec (ha : QuasiLower m a) {l dl : ℕ} (hdl : dl = 1 ∨ dl = 2)
    (hsys : ∀ k ≤ m, RowStart a k → BlockSystem a b k (rowBlock m a k) l dl)
    (hlu : ∀ k ≤ m, RowStart a k → lu.ExactAt a b k (rowBlock m a k) l dl) (k : ℕ) (hk : k ≤ m)
    (hstart : RowStart a k) (c : Mat K) :
    ∃ y, solveRows lu m a b l dl k c = .ok y ∧
      (∀ x, ¬((k ≤ x.1 ∧ x.1 ≤ m) ∧ l ≤ x.2 ∧ x.2 < l + dl) → y x = c x) ∧
      ∀ i, k ≤ i → i ≤ m → ∀ j, l ≤ j → j < l + dl →
        ∑ i' ∈ range (m + 1), lowerHess a (i, i') * y (i', j) +
          ∑ j' ∈ Ico l (l + dl), y (i, j') * b (j', j) = c (i, j) := by
  obtain ⟨hdk, hend, hnext⟩ := rowBlock_spec ha hk
  obtain ⟨dk, hdk'⟩ : ∃ dk, dk = rowBlock m a k := ⟨_, rfl⟩
  have hsub := subtractRows_apply (a := a) (k := k) (l := l) (show 0 < dk by omega)
    (show 0 < dl by omega) c
  obtain ⟨d, hd, hblock⟩ := solveBlock_spec (hdk' ▸ hdk) hdl (hdk' ▸ hsys k hk hstart)
    (hdk' ▸ hlu k hk hstart) (subtractRows k dk l dl a c)
  rw [← hdk'] at hend hnext
  -- what the block leaves to the rows after it
  have hrest : ∀ x, ¬((k ≤ x.1 ∧ x.1 < k + dk) ∧ l ≤ x.2 ∧ x.2 < l + dl) → d x = c x := by
    intro x hx
    rw [hblock.frame x hx, hsub, if_neg hx]
  have hstep : solveRows lu m a b l dl k c =
      if k + dk ≤ m then solveRows lu m a b l dl (k + dk) d else .ok d := by
    rw [solveRows, ← hdk', hd]
    rfl
  obtain ⟨y, hy, hframe, hlater⟩ : ∃ y, solveRows lu m a b l dl k c = .ok y ∧
      (∀ x, ¬((k + dk ≤ x.1 ∧ x.1 ≤ m) ∧ l ≤ x.2 ∧ x.2 < l + dl) → y x = d x) ∧
      ∀ i, k + dk ≤ i → i ≤ m → ∀ j, l ≤ j → j < l + dl →
        ∑ i' ∈ range (m + 1), lowerHess a (i, i') * y (i', j) +
          ∑ j' ∈ Ico l (l + dl), y (i, j') * b (j', j) = d (i, j) := by
    rw [hstep]
    split_ifs with hmore
    · exact solveRows_spec ha hdl hsys hlu (k + dk) hmore (.inr (hnext hmore)) d
    · exact ⟨d, rfl, fun _ _ => rfl, fun i hki him => by omega⟩
  refine ⟨y, hy, fun x hx => ?_, fun i hki him j hlj hjl => ?_⟩
  · rw [hframe x (by omega), hrest x (by omega)]
  · rcases Nat.lt_or_ge i (k + dk) with hik | hki'
    · have hknown : ∀ i', i' < k → lowerHess a (i, i') * y (i', j) = a (i, i') * c (i', j) := by
        intro i' hi'
        rw [hframe _ (by simp only; omega), hrest _ (by simp only; omega)]
        exact congrArg (· * c (i', j)) (if_pos (by simp only; omega))
      have hown : ∀ i', k ≤ i' → i' < k + dk →
          lowerHess a (i, i') * y (i', j) = a (i, i') * d (i', j) := by
        intro i' hki' hi'
        rw [hframe _ (by simp only; omega)]
        exact congrArg (· * d (i', j)) (if_pos (by simp only; omega))
      have hcols : ∀ j' ∈ Ico l (l + dl), y (i, j') * b (j', j) = d (i, j') * b (j', j) := by
        intro j' _
        rw [hframe _ (by simp only; omega)]
      have hafter : ∀ i', k + dk ≤ i' → i' ≤ m → lowerHess a (i, i') * y (i', j) = 0 := by
        intro i' hi' him'
        rw [lowerHess_behind hik hi' (hnext (hi'.trans him')), zero_mul]
      have hequation := hblock.equation i hki hik j hlj hjl
      rw [hsub, if_pos (by simp only; omega)] at hequation
      rw [sum_block hend hknown hown hafter, sum_congr rfl hcols]
      linear_combination hequation
    · rw [hlater i hki' him j hlj hjl, hrest _ (by simp only; omega)]
  termination_by m + 1 - k

/-- **The loop over the block columns** makes the equations of its columns true. -/
theorem solveColumns_spec (ha : QuasiLower m a) (hb : QuasiTriangular n b)
    (hsys : Nonsingular m n a b) (hlu : lu.ExactOn m n a b) (l : ℕ) (hl : l ≤ n)
    (hstart : ColumnStart b l) (c : Mat K) :
    ∃ y, solveColumns lu m n a b l c = .ok y ∧
      (∀ x, ¬((l ≤ x.2 ∧ x.2 ≤ n) ∧ x.1 ≤ m) → y x = c x) ∧
      ∀ i ≤ m, ∀ j, l ≤ j → j ≤ n →
        ∑ i' ∈ range (m + 1), lowerHess a (i, i') * y (i', j) +
          ∑ j' ∈ range (n + 1), y (i, j') * hess b (j', j) = c (i, j) := by
  obtain ⟨hdl, hend, hnext⟩ := columnBlock_spec hb hl
  obtain ⟨dl, hdl'⟩ : ∃ dl, dl = columnBlock n b l := ⟨_, rfl⟩
  rw [← hdl'] at hdl hend hnext
  have hsub := subtractColumns_apply m (b := b) (l := l) (show 0 < dl by omega) c
  obtain ⟨d, hd, hrows, hblock⟩ := solveRows_spec ha hdl
    (fun k hk hs => hdl' ▸ hsys k hk hs l hl hstart)
    (fun k hk hs => hdl' ▸ hlu k hk hs l hl hstart) 0 (Nat.zero_le m) (.inl rfl)
    (subtractColumns m l dl b c)
  have hrest : ∀ x, ¬((l ≤ x.2 ∧ x.2 < l + dl) ∧ x.1 ≤ m) → d x = c x := by
    intro x hx
    rw [hrows x (by omega), hsub, if_neg hx]
  have hstep : solveColumns lu m n a b l c =
      if l + dl ≤ n then solveColumns lu m n a b (l + dl) d else .ok d := by
    rw [solveColumns, ← hdl', hd]
    rfl
  obtain ⟨y, hy, hframe, hlater⟩ : ∃ y, solveColumns lu m n a b l c = .ok y ∧
      (∀ x, ¬((l + dl ≤ x.2 ∧ x.2 ≤ n) ∧ x.1 ≤ m) → y x = d x) ∧
      ∀ i ≤ m, ∀ j, l + dl ≤ j → j ≤ n →
        ∑ i' ∈ range (m + 1), lowerHess a (i, i') * y (i', j) +
          ∑ j' ∈ range (n + 1), y (i, j') * hess b (j', j) = d (i, j) := by
    rw [hstep]
    split_ifs with hmore
    · exact solveColumns_spec ha hb hsys hlu (l + dl) hmore (.inr (hnext hmore)) d
    · exact ⟨d, rfl, fun _ _ => rfl, fun i him j hlj hjn => by omega⟩
  refine ⟨y, hy, fun x hx => ?_, fun i him j hlj hjn => ?_⟩
  · rw [hframe x (by omega), hrest x (by omega)]
  · rcases Nat.lt_or_ge j (l + dl) with hjl | hlj'
    · have hknown : ∀ j', j' < l → y (i, j') * hess b (j', j) = c (i, j') * b (j', j) := by
        intro j' hj'
        rw [hframe _ (by simp only; omega), hrest _ (by simp only; omega)]
        exact congrArg (c (i, j') * ·) (if_pos (by simp only; omega))
      have hown : ∀ j', l ≤ j' → j' < l + dl →
          y (i, j') * hess b (j', j) = d (i, j') * b (j', j) := by
        intro j' hlj' hj'
        rw [hframe _ (by simp only; omega)]
        exact congrArg (d (i, j') * ·) (if_pos (by simp only; omega))
      have hrows' : ∀ i' ∈ range (m + 1), lowerHess a (i, i') * y (i', j) =
          lowerHess a (i, i') * d (i', j) := by
        intro i' _
        rw [hframe _ (by simp only; omega)]
      have hafter : ∀ j', l + dl ≤ j' → j' ≤ n → y (i, j') * hess b (j', j) = 0 := by
        intro j' hj' hjn'
        rw [hess_behind hjl hj' (hnext (hj'.trans hjn')), mul_zero]
      have hequation := hblock i (Nat.zero_le i) him j hlj hjl
      rw [hsub, if_pos (by simp only; omega)] at hequation
      rw [sum_block hend hknown hown hafter, sum_congr rfl hrows']
      linear_combination hequation
    · rw [hlater i him j hlj' hjn, hrest _ (by simp only; omega)]
  termination_by n + 1 - l

/-- **Back substitution**: when every system it meets is nonsingular, `shrslv` returns the solution
of the transformed equation. -/
theorem shrslv_solves (hlu : lu.Exact) (ha : QuasiLower m a) (hb : QuasiTriangular n b)
    (hsys : Nonsingular m n a b) (c : Mat K) :
    ∃ y, shrslv lu m n a b c = .ok y ∧ ∀ i ≤ m, ∀ j ≤ n,
      ∑ i' ∈ range (m + 1), lowerHess a (i, i') * y (i', j) +
        ∑ j' ∈ range (n + 1), y (i, j') * hess b (j', j) = c (i, j) := by
  obtain ⟨y, hy, -, heq⟩ :=
    solveColumns_spec ha hb hsys (hlu.exactOn hsys) 0 (Nat.zero_le n) (.inl rfl) c
  exact ⟨y, hy, fun i hi j hj => heq i hi j (Nat.zero_le j) hj⟩

/-- **The equation that `shrslv` solves**, when the LU solvers are exact on the systems it meets:
nothing is thrown, and no cell outside the leading block is written. -/
theorem shrslv_solves_blocks (ha : QuasiLower m a) (hb : QuasiTriangular n b)
    (hsys : Nonsingular m n a b) (hlu : lu.ExactOn m n a b) (c : Mat K) :
    ∃ y, shrslv lu m n a b c = .ok y ∧
      block m m (lowerHess a) * block m n y + block m n y * block n n (hess b) = block m n c ∧
      ∀ x, ¬(x.1 ≤ m ∧ x.2 ≤ n) → y x = c x := by
  obtain ⟨y, hy, hframe, hequation⟩ :=
    solveColumns_spec ha hb hsys hlu 0 (Nat.zero_le n) (.inl rfl) c
  refine ⟨y, hy, ?_, fun x hx => hframe x (by omega)⟩
  ext i j
  rw [Matrix.add_apply, block_mul_apply, block_mul_apply]
  exact hequation i (Nat.lt_succ_iff.1 i.2) j (Nat.zero_le _) (Nat.lt_succ_iff.1 j.2)

end Loops

/-- One block of two rows and two columns. -/
theorem shrslv_solves_blocks_two : ∃ y, shrslv exactLU 1 1
    (fun x => if x.1 = x.2 then 2 else 1) (fun x => if x.1 = x.2 then 2 else 1) (identity ℝ) =
      .ok y ∧
    block 1 1 (lowerHess fun x => if x.1 = x.2 then 2 else 1) * block 1 1 y +
      block 1 1 y * block 1 1 (hess fun x => if x.1 = x.2 then 2 else 1) =
        block 1 1 (identity ℝ) ∧
    ∀ x, ¬(x.1 ≤ 1 ∧ x.2 ≤ 1) → y x = identity ℝ x := by
  obtain ⟨a, ha⟩ : ∃ a : Mat ℝ, a = fun x => if x.1 = x.2 then 2 else 1 := ⟨_, rfl⟩
  have hsys : Nonsingular 1 1 a a := by
    intro k hk hrow l hl hcolumn
    obtain rfl : k = 0 := by
      by_contra hne
      obtain rfl : k = 1 := by omega
      exact absurd (hrow.resolve_left hne) (by simp [ha])
    obtain rfl : l = 0 := by
      by_contra hne
      obtain rfl : l = 1 := by omega
      exact absurd (hcolumn.resolve_left hne) (by simp [ha])
    have hblock : rowBlock 1 a 0 = 2 ∧ columnBlock 1 a 0 = 2 := by
      simp [rowBlock, columnBlock, isZero_real, ha]
    have hdet : (system22 a a 0 0).det = 192 := by
      simp [system22, Matrix.det_succ_row_zero, Fin.sum_univ_succ, ha, Fin.succAbove]
      norm_num
    rw [hblock.1, hblock.2, BlockSystem, if_pos rfl, if_pos rfl, hdet]
    norm_num
  rw [← ha]
  exact shrslv_solves_blocks (fun k h₀ h₁ => absurd h₁ (by omega))
    (fun k h₀ h₁ => absurd h₁ (by omega)) hsys (exactLU_exact.exactOn hsys) _

end Chebyshev.BS
