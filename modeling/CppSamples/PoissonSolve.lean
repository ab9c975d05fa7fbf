/-
**What the Poisson solver computes.**

The constructor leaves the Schur forms of the two second derivatives in the arrays that `bs_solve`
gets, whether the grid sizes are the same or not, and every run of `solve` keeps them there.  The
solution of the matrix equation, completed by the boundary conditions, has the Chebyshev
coefficients of a polynomial that vanishes on the boundary; and since the second derivative with
boundary conditions takes the coefficients of such a polynomial to those of its second derivative,
the matrix equation says that the coefficients of the residual below the last two rows and columns
are zero.

Main definitions:

* `Chebyshev.PoissonProblem.arrays` — the arrays that `bs_solve` gets;
* `Chebyshev.PoissonProblem.Reachable` — the solvers that a program can have.

Main results:

* `Chebyshev.PoissonProblem.Reachable.prepared` — the Schur forms are kept;
* `Chebyshev.PoissonProblem.solveSpectral_solves` — the solution of the Poisson problem.
-/

import CppSamples.BartelsStewartSolve
import CppSamples.PoissonProblem
import CppSamples.SpectralDerivative

set_option relaxedAutoImplicit false
set_option autoImplicit false

namespace Chebyshev.PoissonProblem

open BS ChebyshevExpansion CountedLoop Finset Function Reflections

/-! ### The arrays of the matrix solver -/

/-- The arrays that `bs_solve` gets. -/
def arrays (p : PoissonProblem ℝ) : Arrays ℝ :=
  if p.M = p.N then ⟨fun x => p.secondDerivativeRespectX (x.2, x.1), p.secondDerivativeRespectX,
    p.u, p.u, p.ome, p.psi⟩
  else ⟨p.secondDerivativeRespectX, p.secondDerivativeRespectY, p.u, p.v, p.ome, p.psi⟩

/-- The members after `bs_solve` has left the arrays `s`. -/
def store (p : PoissonProblem ℝ) (s : Arrays ℝ) : PoissonProblem ℝ :=
  if p.M = p.N then { p with secondDerivativeRespectX := s.b, psi := s.rslt }
  else { p with
    secondDerivativeRespectX := s.a
    secondDerivativeRespectY := s.b
    u := s.u
    v := s.v
    ome := s.c
    psi := s.rslt }

variable {p q : PoissonProblem ℝ} {lu : EigenLU ℝ} {M N : ℕ} {s : Arrays ℝ}

/-- Both branches of `solve` are `bs_solve` on the same arrays. -/
theorem solveEquation_eq (lu : EigenLU ℝ) (p : PoissonProblem ℝ) :
    p.solveEquation lu = (bsSolve lu (p.M - 2) (p.N - 2) p.arrays).map p.store := by
  rw [solveEquation, arrays]
  by_cases hsquare : p.M = p.N
  · have hstore : p.store = fun s => { p with secondDerivativeRespectX := s.b, psi := s.rslt } :=
      funext fun s => if_pos hsquare
    rw [if_pos hsquare, if_pos hsquare, hstore, ← hsquare, bsSolveSquare]
    rcases bsSolve lu (p.M - 2) (p.M - 2) _ with e | s <;> rfl
  · have hstore : p.store = fun s => { p with
        secondDerivativeRespectX := s.a
        secondDerivativeRespectY := s.b
        u := s.u
        v := s.v
        ome := s.c
        psi := s.rslt } := funext fun s => if_neg hsquare
    rw [if_neg hsquare, if_neg hsquare, hstore]
    rcases bsSolve lu (p.M - 2) (p.N - 2) _ with e | s <;> rfl

/-- The Schur forms of the two second derivatives are in the arrays of `bs_solve`. -/
structure Prepared (M N : ℕ) (p : PoissonProblem ℝ) : Prop where
  M_eq : p.M = M
  N_eq : p.N = N
  forms : SchurForms (M - 2) (N - 2) (block (M - 2) (M - 2) (secondOrderOperator M))
    (block (N - 2) (N - 2) (secondOrderOperator N)) p.arrays

theorem arrays_of_eq (h : p.M = p.N) : p.arrays =
    ⟨fun x => p.secondDerivativeRespectX (x.2, x.1), p.secondDerivativeRespectX, p.u, p.u, p.ome,
      p.psi⟩ :=
  if_pos h

theorem arrays_of_ne (h : p.M ≠ p.N) : p.arrays =
    ⟨p.secondDerivativeRespectX, p.secondDerivativeRespectY, p.u, p.v, p.ome, p.psi⟩ :=
  if_neg h

theorem arrays_c (p : PoissonProblem ℝ) : p.arrays.c = p.ome := by
  rw [arrays]
  split_ifs <;> rfl

theorem arrays_psi (p : PoissonProblem ℝ) (psi : Mat ℝ) :
    { p with psi := psi }.arrays = { p.arrays with rslt := psi } := by
  rw [arrays, arrays]
  split_ifs <;> rfl

theorem arrays_ome (p : PoissonProblem ℝ) (ome : Mat ℝ) :
    { p with ome := ome }.arrays = { p.arrays with c := ome } := by
  rw [arrays, arrays]
  split_ifs <;> rfl

theorem store_M (p : PoissonProblem ℝ) (s : Arrays ℝ) : (p.store s).M = p.M := by
  rw [store]
  split_ifs <;> rfl

theorem store_N (p : PoissonProblem ℝ) (s : Arrays ℝ) : (p.store s).N = p.N := by
  rw [store]
  split_ifs <;> rfl

theorem store_psi (p : PoissonProblem ℝ) (s : Arrays ℝ) : (p.store s).psi = s.rslt := by
  rw [store]
  split_ifs <;> rfl

theorem arrays_store_of_eq (h : p.M = p.N) : (p.store s).arrays =
    ⟨fun x => s.b (x.2, x.1), s.b, p.u, p.u, p.ome, s.rslt⟩ := by
  rw [store, if_pos h]
  exact if_pos h

theorem arrays_store_of_ne (h : p.M ≠ p.N) : (p.store s).arrays = s := by
  rw [store, if_neg h]
  exact if_neg h

/-! ### The prepared solver -/

/-- With one matrix, its transposed is on the left. -/
theorem schurForms_square {m : ℕ} (hm : 2 ≤ m) {A U a u : Mat ℝ}
    (h : initAu 0 m A U = .ok (a, u)) (C rslt : Mat ℝ) :
    SchurForms m m (block m m A) (block m m A) ⟨fun x => a (x.2, x.1), a, u, u, C, rslt⟩ := by
  obtain ⟨hA, hquasi⟩ := initAu_spec hm h
  have hlower : (block m m (lowerHess fun x => a (x.2, x.1))).transpose = block m m (hess a) := by
    ext i j
    rfl
  refine ⟨?_, hA, hquasi, hquasi⟩
  rw [hlower]
  exact hA

/-- **The constructor prepares the solver.** -/
theorem new_prepared (hM : 4 ≤ M) (hN : 4 ≤ N) {xMin xMax yMin yMax : ℝ} {raw : PoissonProblem ℝ}
    (h : new 0 M N xMin xMax yMin yMax raw = .ok p) : Prepared M N p := by
  rw [new] at h
  by_cases hsquare : M = N
  · subst hsquare
    simp only [ne_eq, not_true_eq_false, if_true, if_false] at h
    rcases hau : initAu 0 (M - 2) (secondOrderOperator M) raw.u with e | ⟨x, u⟩
    · rw [hau] at h
      exact absurd h (by rintro ⟨⟩)
    · rw [hau] at h
      obtain rfl := Except.ok.inj h
      refine ⟨rfl, rfl, ?_⟩
      rw [arrays_of_eq rfl]
      exact schurForms_square (by omega) hau _ _
  · simp only [ne_eq, hsquare, not_false_eq_true, if_true, if_false] at h
    rcases habuv : initAbuv 0 (M - 2) (N - 2) (secondOrderOperator M) (secondOrderOperator N) raw.u
      raw.v with e | ⟨x, y, u, v⟩
    · rw [habuv] at h
      exact absurd h (by rintro ⟨⟩)
    · rw [habuv] at h
      obtain rfl := Except.ok.inj h
      refine ⟨rfl, rfl, ?_⟩
      rw [arrays_of_ne hsquare]
      exact initAbuv_spec (by omega) (by omega) habuv _ _

/-- What `bs_solve` writes keeps the Schur forms. -/
theorem Prepared.store (hp : Prepared M N p) (hkeep : Keeps (M - 2) (N - 2) p.arrays s) :
    Prepared M N (p.store s) := by
  refine ⟨(store_M p s).trans hp.M_eq, (store_N p s).trans hp.N_eq, ?_⟩
  by_cases hsquare : p.M = p.N
  · have hb := hkeep.b
    have hMN : M = N := by rw [← hp.M_eq, ← hp.N_eq, hsquare]
    refine hp.forms.congr ?_ ?_ ?_ ?_
    all_goals rw [arrays_store_of_eq hsquare, arrays_of_eq hsquare] at *
    · intro x hx
      exact hb (x.2, x.1) (by rwa [← hMN])
    · exact hb
  · rw [arrays_store_of_ne hsquare]
    exact hp.forms.keep hkeep

theorem Prepared.psi (hp : Prepared M N p) (psi : Mat ℝ) : Prepared M N { p with psi := psi } := by
  refine ⟨hp.M_eq, hp.N_eq, ?_⟩
  rw [arrays_psi]
  exact hp.forms.congr rfl rfl (fun _ _ => rfl) fun _ _ => rfl

theorem Prepared.ome (hp : Prepared M N p) (ome : Mat ℝ) : Prepared M N { p with ome := ome } := by
  refine ⟨hp.M_eq, hp.N_eq, ?_⟩
  rw [arrays_ome]
  exact hp.forms.congr rfl rfl (fun _ _ => rfl) fun _ _ => rfl

/-- **A run of `solve` keeps the solver prepared**, whatever the systems are. -/
theorem Prepared.solve (hp : Prepared M N p) (h : p.solve lu = .ok q) : Prepared M N q := by
  rw [PoissonProblem.solve, solveSpectral, solveEquation_eq, hp.M_eq, hp.N_eq] at h
  rcases hsolve : bsSolve lu (M - 2) (N - 2) p.arrays with e | s
  · rw [hsolve] at h
    exact absurd h (by rintro ⟨⟩)
  · rw [hsolve] at h
    obtain rfl := Except.ok.inj h
    exact ((hp.store (bsSolve_keeps hsolve)).psi _).psi _

/-- The solvers that a program can have: what the constructor makes on the domain
`[-1, 1] × [-1, 1]`, any coefficients in `ome_`, and runs of `solve`. -/
inductive Reachable (lu : EigenLU ℝ) (M N : ℕ) : PoissonProblem ℝ → Prop
  | new {raw p : PoissonProblem ℝ} (h : new 0 M N (-1) 1 (-1) 1 raw = .ok p) : Reachable lu M N p
  | ome {p : PoissonProblem ℝ} (h : Reachable lu M N p) (w : Mat ℝ) :
      Reachable lu M N { p with ome := w }
  | solve {p q : PoissonProblem ℝ} (h : Reachable lu M N p) (hq : p.solve lu = .ok q) :
      Reachable lu M N q

/-- **Every solver of a program is prepared.** -/
theorem Reachable.prepared (hM : 4 ≤ M) (hN : 4 ≤ N) (h : Reachable lu M N p) :
    Prepared M N p := by
  induction h with
  | new h => exact new_prepared hM hN h
  | ome _ w ih => exact ih.ome w
  | solve _ hq ih => exact ih.solve hq

/-! ### The solution -/

/-- The systems that `shrslv` solves are nonsingular. -/
def Solvable (p : PoissonProblem ℝ) : Prop :=
  if p.M = p.N then Nonsingular (p.M - 2) (p.M - 2)
    (fun x => p.secondDerivativeRespectX (x.2, x.1)) p.secondDerivativeRespectX
  else Nonsingular (p.M - 2) (p.N - 2) p.secondDerivativeRespectX p.secondDerivativeRespectY

theorem Solvable.arrays (h : Solvable p) :
    Nonsingular (p.M - 2) (p.N - 2) p.arrays.a p.arrays.b := by
  rw [Solvable] at h
  split_ifs at h with hsquare
  · rwa [arrays_of_eq hsquare, ← hsquare]
  · rwa [arrays_of_ne hsquare]

/-- The coefficients that `solve` finds: the equation away from the last two rows and columns, and
the boundary conditions. -/
theorem Prepared.solveSpectral (hlu : lu.Exact) (hMeven : Even M) (hNeven : Even N) (hM : 4 ≤ M)
    (hN : 4 ≤ N) (hp : Prepared M N p) (hsys : Solvable p) :
    ∃ q, p.solveSpectral lu = .ok q ∧
      (∀ i ≤ M, Closed N fun j => q.psi (i, j)) ∧ (∀ j ≤ N, Closed M fun i => q.psi (i, j)) ∧
      ∀ i ≤ M - 2, ∀ j ≤ N - 2,
        ∑ k ∈ range (M - 1), secondOrderOperator M (k, i) * q.psi (k, j) +
          ∑ k ∈ range (N - 1), q.psi (i, k) * secondOrderOperator N (k, j) = -p.ome (i, j) := by
  obtain ⟨s, hs, -, hequation⟩ := bsSolve_spec hlu hp.forms
    (by rw [← hp.M_eq, ← hp.N_eq]; exact hsys.arrays)
  have hsolve : p.solveSpectral lu =
      .ok { p.store s with psi := CS.homogeneousBoundary M N s.rslt } := by
    rw [PoissonProblem.solveSpectral, solveEquation_eq, hp.M_eq, hp.N_eq, hs]
    change Except.ok { p.store s with
      psi := CS.homogeneousBoundary (p.store s).M (p.store s).N (p.store s).psi } = _
    rw [store_M, store_N, store_psi, hp.M_eq, hp.N_eq]
  obtain ⟨hrows, hcolumns, hinner⟩ :=
    CS.homogeneousBoundary_closes hMeven hNeven (by omega) (by omega) s.rslt
  refine ⟨_, hsolve, hrows, hcolumns, fun i hi j hj => ?_⟩
  have hij := congrFun (congrFun hequation ⟨i, by omega⟩) ⟨j, by omega⟩
  rw [Matrix.add_apply, block_mul_apply, block_transpose_mul_apply, arrays_c] at hij
  have hM₁ : M - 1 = M - 2 + 1 := by omega
  have hN₁ : N - 1 = N - 2 + 1 := by omega
  refine Eq.trans ?_ hij
  rw [hM₁, hN₁]
  congr 1
  · refine sum_congr rfl ?_
    intro k hk
    rw [mem_range] at hk
    exact congrArg (secondOrderOperator M (k, i) * ·) (hinner k (by omega) j (by omega))
  · refine sum_congr rfl ?_
    intro k hk
    rw [mem_range] at hk
    exact congrArg (· * secondOrderOperator N (k, j)) (hinner i (by omega) k (by omega))

/-- **The Poisson problem is solved**: before its last transform `solve` has the coefficients of a
polynomial `Ψ` that vanishes on the boundary, and every coefficient of `ΔΨ + ω` below the last two
rows and columns is zero. -/
theorem solveSpectral_solves (hlu : lu.Exact) (hMeven : Even M) (hNeven : Even N) (hM : 4 ≤ M)
    (hN : 4 ≤ N) (hp : Reachable lu M N p) (hsys : Solvable p) :
    ∃ q, p.solveSpectral lu = .ok q ∧
      (∀ z, series₂ M N q.psi 1 z = 0 ∧ series₂ M N q.psi (-1) z = 0 ∧
        series₂ M N q.psi z 1 = 0 ∧ series₂ M N q.psi z (-1) = 0) ∧
      (∃ r, IsExpansion M N
        (fun x y => laplacian (series₂ M N q.psi) x y + series₂ M N p.ome x y) r) ∧
      ∀ r, IsExpansion M N
        (fun x y => laplacian (series₂ M N q.psi) x y + series₂ M N p.ome x y) r →
          ∀ k ≤ M - 2, ∀ l ≤ N - 2, r (k, l) = 0 := by
  obtain ⟨q, hq, hrows, hcolumns, hequation⟩ :=
    (hp.prepared hM hN).solveSpectral hlu hMeven hNeven hM hN hsys
  have hresidual : IsExpansion M N
      (fun x y => laplacian (series₂ M N q.psi) x y + series₂ M N p.ome x y) fun i =>
        ∑ k ∈ range (M - 1), secondOrderOperator M (k, i.1) * q.psi (k, i.2) +
          ∑ k ∈ range (N - 1), secondOrderOperator N (k, i.2) * q.psi (i.1, k) + p.ome i := by
    intro x y
    simp only
    rw [laplacian_series₂ (by omega) (by omega) (CS.secondDerivative_identity hMeven (by omega))
      (CS.secondDerivative_identity hNeven (by omega)) hcolumns hrows, series₂_add]
    rfl
  refine ⟨q, hq, fun z => series₂_boundary (by omega) (by omega) hMeven hNeven hcolumns hrows z,
    ⟨_, hresidual⟩, fun r hr k hk l hl => ?_⟩
  rw [hr.unique hresidual k (by omega) l (by omega)]
  simp only [mul_comm (secondOrderOperator N _)]
  rw [hequation k hk l hl, neg_add_cancel]

/-! ### A run -/

open Polynomial in
/-- The Chebyshev polynomials of degree three and four. -/
theorem T_three_four : Polynomial.Chebyshev.T ℝ 3 = 4 * X ^ 3 - 3 * X ∧
    Polynomial.Chebyshev.T ℝ 4 = 8 * X ^ 4 - 8 * X ^ 2 + 1 := by
  have h₃ := Polynomial.Chebyshev.T_add_two ℝ 1
  have h₄ := Polynomial.Chebyshev.T_add_two ℝ 2
  norm_num [Polynomial.Chebyshev.T_two] at h₃ h₄
  rw [h₃] at h₄
  refine ⟨h₃.trans ?_, h₄.trans ?_⟩ <;> ring

open Polynomial in
/-- The second derivative with boundary conditions, of the smallest size. -/
theorem secondOrderOperator_four :
    secondOrderOperator 4 (0, 0) = (-32 : ℝ) ∧ secondOrderOperator 4 (0, 2) = (-48 : ℝ) ∧
      secondOrderOperator 4 (1, 0) = (0 : ℝ) ∧ secondOrderOperator 4 (1, 1) = (-24 : ℝ) ∧
      secondOrderOperator 4 (1, 2) = (0 : ℝ) ∧ secondOrderOperator 4 (2, 0) = (-28 : ℝ) ∧
      secondOrderOperator 4 (2, 2) = (-48 : ℝ) := by
  obtain ⟨hT₃, hT₄⟩ := T_three_four
  -- the coefficients of the second derivatives of `1 - T 4`, `T 1 - T 3` and `T 2 - T 4`
  have hc₀ : series 4 (fun j => if j = 0 then -32 else if j = 2 then -48 else 0) =
      derivative^[2] (basis 4 0 : ℝ[X]) := by
    simp [series, basis, sum_range_succ, hT₄, Polynomial.Chebyshev.T_two, map_ofNat]
    ring
  have hc₁ : series 4 (fun j => if j = 1 then -24 else 0) = derivative^[2] (basis 4 1 : ℝ[X]) := by
    simp [series, basis, sum_range_succ, hT₃, map_ofNat]
    ring
  have hc₂ : series 4 (fun j => if j = 0 then -28 else if j = 2 then -48 else 0) =
      derivative^[2] (basis 4 2 : ℝ[X]) := by
    simp [series, basis, sum_range_succ, hT₄, Polynomial.Chebyshev.T_two, map_ofNat]
    ring
  have hrow : ∀ (k : ℕ) (c : ℕ → ℝ), k < 3 → series 4 c = derivative^[2] (basis 4 k) →
      ∀ j ≤ 4, secondOrderOperator 4 (k, j) = c j := fun k c hk hc =>
    series_injective ((CS.secondDerivative_identity (by decide) (by omega) k hk).trans hc.symm)
  have h₀ := hrow 0 _ (by omega) hc₀
  have h₁ := hrow 1 _ (by omega) hc₁
  have h₂ := hrow 2 _ (by omega) hc₂
  refine ⟨?_, ?_, ?_, ?_, ?_, ?_, ?_⟩
  · exact h₀ 0 (by omega)
  · exact h₀ 2 (by omega)
  · exact h₁ 0 (by omega)
  · exact h₁ 1 (by omega)
  · exact h₁ 2 (by omega)
  · exact h₂ 0 (by omega)
  · exact h₂ 2 (by omega)

/-- The iteration on a Hessenberg matrix that falls into a block of size two and one of size
one. -/
theorem schur_two {h u : Mat ℝ} (h₁ : h (1, 0) ≠ 0) (h₂ : h (2, 1) = 0) :
    schur 2 0 h u = (true, h, u) := by
  have hsmall₂ : smallSubdiagonal 0 h 2 = 2 := by
    rw [smallSubdiagonal, if_pos]
    rw [le_real, decide_eq_true_eq, fabs_real, h₂, abs_zero]
  have hsmall₁ : smallSubdiagonal 0 h 1 = 0 := by
    rw [smallSubdiagonal, if_neg]
    · rfl
    · rw [le_real, decide_eq_true_eq, fabs_real, abs_nonpos_iff]
      exact h₁
  have hiterate : ∀ hn : ℝ, iterate hn 0 2 2 0 (h, u) = (true, h, u) := by
    intro hn
    rw [iterate, dif_neg (by omega)]
    simp only [hsmall₂]
    rw [if_pos (by omega), deflate_eq_self fun _ => h₂, iterate, dif_neg (by omega)]
    simp only [hsmall₁]
    rw [if_pos (by omega), deflate_eq_self fun hne => absurd rfl hne, iterate, dif_pos (by omega)]
  rw [schur]
  simp only [zero_mul, hiterate, ite_self]

/-- The reflection of a column that has only a last entry exchanges the last two rows and the last
two columns, up to a sign. -/
theorem hshldrAt_exchange {a : Mat ℝ} {z : ℝ} (hz : 0 < z) (h₁ : a (1, 0) = 0)
    (h₂ : a (2, 0) = -z) : ∃ (t : Mat ℝ) (s : ℝ), hshldrAt 2 0 a = t ∧ s * s = 1 ∧
      t (0, 0) = a (0, 0) ∧ t (0, 1) = a (0, 2) * s ∧ t (1, 1) = a (2, 2) ∧ t (2, 1) = a (1, 2) ∧
      t (2, 2) = a (1, 1) ∧ t (0, 3) = -z * s := by
  have hmax : columnMax 2 0 a = z := by
    have hpasses : columnMax 2 0 a = if 0 < z then z else 0 := by
      simp [columnMax, forUpTo, forBelow, passes, lt_real, fabs_real, h₁, h₂, abs_of_pos hz]
    rw [hpasses, if_pos hz]
  obtain ⟨k, hk⟩ : ∃ k, k = keepColumn 2 0 a := ⟨_, rfl⟩
  obtain ⟨s, hs, -, hright, hbelow, hvec, hframe⟩ := keepColumn_spec (n := 2) (l := 0) (by omega) a
  rw [← hk] at hright hbelow hvec hframe
  rw [hmax] at hs hright hbelow hvec
  have hs₁ : s * s = 1 := by
    rw [hs, sum_Ico_two, h₁, h₂, zero_div, zero_mul, zero_add, neg_div, div_self hz.ne', neg_mul_neg,
      one_mul]
  -- the vector and the coefficient of the reflection
  have hk₁ : k (1, 0) = s := by
    rw [hvec 1 (by omega) (by omega), h₁, if_pos rfl, zero_div, zero_add]
  have hk₂ : k (2, 0) = -1 := by
    rw [hvec 2 (by omega) (by omega), h₂, if_neg (by omega), neg_div, div_self hz.ne', add_zero]
  have hk₃ : k (3, 0) = 1 := by rw [hbelow, h₁, zero_div, zero_add, hs₁]
  have hw₀ : keptVector 2 0 k 0 = 0 := keptVector_of_le le_rfl
  have hw₁ : keptVector 2 0 k 1 = s := (keptVector_of_lt (by omega) (by omega)).trans hk₁
  have hw₂ : keptVector 2 0 k 2 = -1 := (keptVector_of_lt (by omega) (by omega)).trans hk₂
  have hw₃ : keptVector 2 0 k 3 = 0 := keptVector_eq_zero (by omega)
  have hkept : ∀ i j, 1 ≤ j → j < 3 → k (i, j) = a (i, j) := fun i j hj hj' =>
    hframe _ (cell_ne (by omega)) (cell_ne (by omega)) (by simp only; omega)
  -- the columns, then the rows
  obtain ⟨b, hb, ht⟩ := hshldrAt_apply (by rw [hmax]; exact hz.ne') hk
  have hcol : ∀ i j, 1 ≤ j → j < 3 →
      b (i, j) = a (i, j) - keptVector 2 0 k i * (s * a (1, j) - a (2, j)) := by
    intro i j hj hj'
    rw [hb, if_pos ⟨hj, hj'⟩, onRows, keptCoefficient, hk₃, sum_range_succ, sum_range_succ,
      sum_range_one, hkept i j hj hj', hkept 1 j hj hj', hkept 2 j hj hj', hw₀, hw₁, hw₂]
    ring
  have hrow : ∀ i j, i < 3 → hshldrAt 2 0 a (i, j) =
      b (i, j) - (b (i, 1) * s - b (i, 2)) * keptVector 2 0 k j := by
    intro i j hi
    rw [ht, if_pos hi, onCols, keptCoefficient, hk₃, sum_range_succ, sum_range_succ, sum_range_one,
      hw₀, hw₁, hw₂]
    ring
  refine ⟨_, s, rfl, hs₁, ?_, ?_, ?_, ?_, ?_, ?_⟩
  · rw [hrow 0 0 (by omega), hw₀, mul_zero, sub_zero, hb, if_neg (by omega),
      hframe _ (cell_ne (by omega)) (cell_ne (by omega)) (by simp only; omega)]
  · rw [hrow 0 1 (by omega), hcol 0 1 le_rfl (by omega), hcol 0 2 (by omega) (by omega), hw₀, hw₁]
    linear_combination -a (0, 1) * hs₁
  · rw [hrow 1 1 (by omega), hcol 1 1 le_rfl (by omega), hcol 1 2 (by omega) (by omega), hw₁]
    linear_combination (a (1, 1) * s * s - a (1, 1) - a (1, 2) * s - a (2, 1) * s + a (2, 2)) * hs₁
  · rw [hrow 2 1 (by omega), hcol 2 1 le_rfl (by omega), hcol 2 2 (by omega) (by omega), hw₁, hw₂]
    linear_combination (a (1, 2) - a (1, 1) * s) * hs₁
  · rw [hrow 2 2 (by omega), hcol 2 1 le_rfl (by omega), hcol 2 2 (by omega) (by omega), hw₂]
    linear_combination a (1, 1) * hs₁
  · rw [hrow 0 3 (by omega), hb, if_neg (by omega), hright, hw₃, mul_zero, sub_zero]

/-- The Hessenberg form of size two, from the one pass that there is. -/
theorem restoreSubdiagonal_hshldr_two {a t : Mat ℝ} (ht : hshldrAt 2 0 a = t) :
    restoreSubdiagonal 2 (hshldr 2 a) =
      update (update (update t (1, 3) (t (2, 1))) (1, 0) (t (0, 3))) (2, 1) (t (2, 1)) := by
  rw [hshldr, forUpTo, forBelow_succ (Nat.zero_le _), forBelow_self, ht, restoreSubdiagonal,
    forBelow_succ (Nat.zero_le _), forBelow_succ (Nat.zero_le _), forBelow_self]
  simp only [zero_add]
  rw [update_of_ne (cell_ne (by omega) : (0, 2 + 1) ≠ (2 - 1, 2 + 1)),
    update_of_ne (cell_ne (by omega) : (1, 2 + 1) ≠ (1, 0)), update_self]

/-- One reflection brings the second derivative of the smallest size to Hessenberg form. -/
theorem hessenberg_four : ∃ (h : Mat ℝ) (s : ℝ),
    restoreSubdiagonal 2 (hshldr 2 (secondOrderOperator 4)) = h ∧ s * s = 1 ∧ h (0, 0) = -32 ∧
      h (0, 1) = -48 * s ∧ h (1, 0) = -28 * s ∧ h (1, 1) = -48 ∧ h (2, 1) = 0 ∧ h (2, 2) = -24 := by
  obtain ⟨d₀₀, d₀₂, d₁₀, d₁₁, d₁₂, d₂₀, d₂₂⟩ := secondOrderOperator_four
  obtain ⟨t, s, ht, hs, ht₀₀, ht₀₁, ht₁₁, ht₂₁, ht₂₂, ht₀₃⟩ :=
    hshldrAt_exchange (by norm_num : (0 : ℝ) < 28) d₁₀ d₂₀
  rw [d₀₀] at ht₀₀
  rw [d₀₂] at ht₀₁
  rw [d₂₂] at ht₁₁
  rw [d₁₂] at ht₂₁
  rw [d₁₁] at ht₂₂
  refine ⟨_, s, rfl, hs, ?_⟩
  rw [restoreSubdiagonal_hshldr_two ht]
  refine ⟨?_, ?_, ?_, ?_, ?_, ?_⟩
  · simpa using ht₀₀
  · simpa using ht₀₁
  · simpa using ht₀₃
  · simpa using ht₁₁
  · simpa using ht₂₁
  · simpa using ht₂₂

/-- The systems of the Hessenberg form of the smallest size are nonsingular. -/
theorem nonsingular_four {h : Mat ℝ} {s : ℝ} (hs : s * s = 1) (h₀₀ : h (0, 0) = -32)
    (h₀₁ : h (0, 1) = -48 * s) (h₁₀ : h (1, 0) = -28 * s) (h₁₁ : h (1, 1) = -48)
    (h₂₂ : h (2, 2) = -24) :
    Nonsingular 2 2 (fun x => h (x.2, x.1)) h := by
  have hs₀ : s ≠ 0 := fun he => by simp [he] at hs
  have hne : h (1, 0) ≠ 0 := by
    rw [h₁₀]
    exact mul_ne_zero (by norm_num) hs₀
  have hstart : ∀ k ≤ 2, ColumnStart h k → k = 0 ∨ k = 2 := by
    intro k hk hcol
    rcases hcol with rfl | hzero
    · exact .inl rfl
    · obtain rfl | rfl | rfl : k = 0 ∨ k = 1 ∨ k = 2 := by omega
      · exact .inl rfl
      · exact absurd hzero hne
      · exact .inr rfl
  have hisZero : ZeroTest.isZero (h (1, 0)) = false := by
    rw [isZero_real, decide_eq_false_iff_not]
    exact hne
  have hcolumn₀ : columnBlock 2 h 0 = 2 := if_pos ⟨by omega, hisZero⟩
  have hcolumn₂ : columnBlock 2 h 2 = 1 := if_neg fun hand => hand.1 rfl
  have hrow₀ : rowBlock 2 (fun x => h (x.2, x.1)) 0 = 2 := if_pos ⟨by omega, hisZero⟩
  have hrow₂ : rowBlock 2 (fun x => h (x.2, x.1)) 2 = 1 := if_neg fun hand => hand.1 rfl
  intro k hk hrow l hl hcol
  obtain rfl | rfl := hstart k hk hrow
  · obtain rfl | rfl := hstart l hl hcol
    · rw [hrow₀, hcolumn₀, BlockSystem, if_pos rfl, if_pos rfl, system22]
      simp only [zero_add, h₀₀, h₀₁, h₁₀, h₁₁]
      rcases mul_self_eq_one_iff.1 hs with rfl | rfl
      · simp [Matrix.det_succ_row_zero, Fin.sum_univ_succ, Fin.succAbove]
        norm_num
      · simp [Matrix.det_succ_row_zero, Fin.sum_univ_succ, Fin.succAbove]
        norm_num
    · rw [hrow₀, hcolumn₂, BlockSystem, if_pos rfl, if_neg (by omega), system21]
      simp only [zero_add, h₀₀, h₀₁, h₁₀, h₁₁, h₂₂, Matrix.det_fin_two_of]
      intro hdet
      nlinarith
  · obtain rfl | rfl := hstart l hl hcol
    · rw [hrow₂, hcolumn₀, BlockSystem, if_neg (by omega), if_pos rfl, system12]
      simp only [zero_add, h₀₀, h₀₁, h₁₀, h₁₁, h₂₂, Matrix.det_fin_two_of]
      intro hdet
      nlinarith
    · rw [hrow₂, hcolumn₂, BlockSystem, if_neg (by omega), if_neg (by omega), h₂₂]
      norm_num

/-- The constructor with the same grid size both ways. -/
theorem new_square {x u : Mat ℝ} {raw : PoissonProblem ℝ} (xMin xMax yMin yMax : ℝ)
    (h : initAu 0 (M - 2) (secondOrderOperator M) raw.u = .ok (x, u)) :
    ∃ p, new 0 M M xMin xMax yMin yMax raw = .ok p ∧ p.M = M ∧ p.N = M ∧
      p.secondDerivativeRespectX = x := by
  rw [new]
  simp only [ne_eq, not_true_eq_false, if_true, if_false]
  rw [h]
  exact ⟨_, rfl, rfl, rfl, rfl⟩

/-- The solver of the smallest size. -/
theorem solveSpectral_solves_four :
    ∃ p, Reachable exactLU 4 4 p ∧ ∃ q, p.solveSpectral exactLU = .ok q ∧
      (∀ z, series₂ 4 4 q.psi 1 z = 0 ∧ series₂ 4 4 q.psi (-1) z = 0 ∧
        series₂ 4 4 q.psi z 1 = 0 ∧ series₂ 4 4 q.psi z (-1) = 0) ∧
      (∃ r, IsExpansion 4 4
        (fun x y => laplacian (series₂ 4 4 q.psi) x y + series₂ 4 4 p.ome x y) r) ∧
      ∀ r, IsExpansion 4 4
        (fun x y => laplacian (series₂ 4 4 q.psi) x y + series₂ 4 4 p.ome x y) r →
          ∀ k ≤ 4 - 2, ∀ l ≤ 4 - 2, r (k, l) = 0 := by
  obtain ⟨h, s, hh, hs, h₀₀, h₀₁, h₁₀, h₁₁, h₂₁, h₂₂⟩ := hessenberg_four
  have hs₀ : s ≠ 0 := fun he => by simp [he] at hs
  have hne : h (1, 0) ≠ 0 := by
    rw [h₁₀]
    exact mul_ne_zero (by norm_num) hs₀
  -- members that are all zero
  obtain ⟨raw⟩ : Nonempty (PoissonProblem ℝ) := ⟨⟨0, 0, fun _ => 0, fun _ => 0, fun _ => 0,
    fun _ => 0, fun _ => 0, fun _ => 0, fun _ => 0, fun _ => 0,
    ⟨fun _ => 0, fun _ => 0, fun _ => 0, fun _ => 0⟩⟩⟩
  have hinit : ∃ u, initAu 0 (4 - 2) (secondOrderOperator 4) raw.u = .ok (h, u) := by
    refine ⟨bckmlt 2 (hshldr 2 (secondOrderOperator 4)) raw.u, ?_⟩
    change initAu 0 2 _ _ = _
    rw [initAu]
    simp only
    rw [hh, schur_two hne h₂₁]
    rfl
  obtain ⟨u, hu⟩ := hinit
  obtain ⟨p, hp, hM, hN, hx⟩ := new_square (-1) 1 (-1) 1 hu
  have hsys : Solvable p := by
    rw [Solvable, if_pos (hM.trans hN.symm), hM, hx]
    exact nonsingular_four hs h₀₀ h₀₁ h₁₀ h₁₁ h₂₂
  exact ⟨p, .new hp, solveSpectral_solves exactLU_exact (by decide) (by decide) le_rfl le_rfl
    (.new hp) hsys⟩

end Chebyshev.PoissonProblem
