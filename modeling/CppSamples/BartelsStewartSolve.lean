/-
**The solver end to end.**

The stages of `bs_solve` share their arrays: the products before and after the back substitution go
through a column of `a` and a row of `b` outside the matrices, and one of the Schur forms is
transposed in place.  Here the stages are put together: what `init_abuv` prepares is an orthogonal
similarity on each side, `bs_solve` solves the equation in the coordinates that these define, and
the solution in the old coordinates is the one of the given equation.

Main definitions:

* `Chebyshev.BS.Keeps` — what `bs_solve` leaves alone in its arrays.

Main results:

* `Chebyshev.BS.initAu_spec` — the Schur form of one matrix;
* `Chebyshev.BS.columns_spec`, `Chebyshev.BS.rows_spec` — the products by way of scratch cells;
* `Chebyshev.BS.bsSolve_spec` — the solver, on arrays that are prepared for it;
* `Chebyshev.BS.bsSolve_solves` — **the solver end to end**.
-/

import CppSamples.SchurIteration
import CppSamples.SylvesterSolve

set_option relaxedAutoImplicit false
set_option autoImplicit false

namespace Chebyshev.BS

open CountedLoop Function Finset Reflections

/-! ### The preparation -/

/-- **The Schur form of one matrix.** -/
theorem initAu_spec {m : ℕ} (hm : 2 ≤ m) {A U a u : Mat ℝ} (h : initAu 0 m A U = .ok (a, u)) :
    Turns (block m m u) (block m m A) (block m m (hess a)) ∧ QuasiTriangular m a := by
  obtain ⟨⟨Q, hQ, hu⟩, hquasi⟩ :=
    schur_turns m (restoreSubdiagonal m (hshldr m A)) (bckmlt m (hshldr m A) U)
  rw [initAu] at h
  simp only at h
  split_ifs at h with hok
  obtain ⟨ha, hu'⟩ := Prod.mk.inj (Except.ok.inj h)
  rw [ha] at hQ hquasi
  rw [hu'] at hu
  refine ⟨?_, hquasi hok⟩
  rw [hu]
  exact (hshldr_bckmlt hm A U).trans hQ

/-- Transposing in place. -/
theorem transposeInPlace_apply {K : Type*} (m : ℕ) (a : Mat K) (x : ℕ × ℕ) :
    transposeInPlace m a x = if x.1 ≤ m ∧ x.2 ≤ m then a (x.2, x.1) else a x := by
  have hrow : ∀ i (b : Mat K) (x : ℕ × ℕ), forUpTo (i + 1) m b (fun j b =>
      update (update b (i, j) (b (j, i))) (j, i) (b (i, j))) x =
        if i + 1 ≤ max x.1 x.2 ∧ max x.1 x.2 < m + 1 then
          if min x.1 x.2 = i then b (x.2, x.1) else b x else b x := by
    intro i b x
    rw [forUpTo]
    refine forBelow_layers (fun x => max x.1 x.2)
      (fun x => if min x.1 x.2 = i then b (x.2, x.1) else b x)
      (fun j hlo _ c y hy => ?_) (fun j hlo _ c hc y hy => ?_) x
    · obtain ⟨i', j'⟩ := y
      simp only at hy
      rw [update_of_ne (cell_ne (by omega)), update_of_ne (cell_ne (by omega))]
    · obtain ⟨i', j'⟩ := y
      simp only at hy hc ⊢
      rw [update_apply, update_apply, hc (i, j) (.inr (by simp only; omega)),
        hc (j, i) (.inr (by simp only; omega)), hc (i', j') (.inr (by simp only; omega))]
      simp only [Prod.mk.injEq]
      by_cases hlower : i' = j ∧ j' = i
      · obtain ⟨rfl, rfl⟩ := hlower
        rw [if_pos ⟨rfl, rfl⟩, if_pos (by omega)]
      · rw [if_neg hlower]
        by_cases hupper : i' = i ∧ j' = j
        · obtain ⟨rfl, rfl⟩ := hupper
          rw [if_pos ⟨rfl, rfl⟩, if_pos (by omega)]
        · rw [if_neg hupper, if_neg (by omega)]
  have hloop : transposeInPlace m a x = if 0 ≤ min x.1 x.2 ∧ min x.1 x.2 < m + 1 then
      if x.1 ≤ m ∧ x.2 ≤ m then a (x.2, x.1) else a x else a x := by
    rw [transposeInPlace, forUpTo]
    refine forBelow_layers (fun x => min x.1 x.2)
      (fun x => if x.1 ≤ m ∧ x.2 ≤ m then a (x.2, x.1) else a x)
      (fun i _ _ c y hy => ?_) (fun i _ hi c hc y hy => ?_) x
    · rw [hrow, if_neg hy, ite_self]
    · obtain ⟨i', j'⟩ := y
      simp only at hy hc ⊢
      rw [hrow, hc (i', j') (.inr (by simp only; omega)), hc (j', i') (.inr (by simp only; omega))]
      simp only [hy, if_true]
      by_cases hdiag : i' = j'
      · subst hdiag
        rw [ite_self, ite_self]
      · exact if_congr (by omega) rfl rfl
  rw [hloop]
  split_ifs <;> first | rfl | omega

/-! ### Products by way of scratch cells -/

/-- What `bs_solve` leaves alone: the orthogonal matrices, the right-hand side, and the two
matrices away from their scratch cells. -/
structure Keeps (m n : ℕ) (s t : Arrays ℝ) : Prop where
  u : t.u = s.u
  v : t.v = s.v
  c : t.c = s.c
  a : ∀ x, x.2 ≠ m + 1 → t.a x = s.a x
  b : ∀ x, x.1 ≠ n + 1 → t.b x = s.b x

section Products

variable {m n : ℕ} {s t r : Arrays ℝ}

theorem Keeps.refl (m n : ℕ) (s : Arrays ℝ) : Keeps m n s s :=
  ⟨rfl, rfl, rfl, fun _ _ => rfl, fun _ _ => rfl⟩

theorem Keeps.trans (h : Keeps m n s t) (h' : Keeps m n t r) : Keeps m n s r := by
  refine ⟨h'.u.trans h.u, h'.v.trans h.v, h'.c.trans h.c, fun x hx => ?_, fun x hx => ?_⟩
  · rw [h'.a x hx, h.a x hx]
  · rw [h'.b x hx, h.b x hx]

/-- A column of the result, accumulated in column `m + 1` of `a`. -/
theorem throughColumn_spec (n j : ℕ) (add : ℕ → ℕ → Arrays ℝ → ℝ → ℝ) (g : ℕ → ℕ → ℝ)
    (hadd : ∀ (a : Mat ℝ) i k z, add i k { s with a := a } z = z + g i k) :
    Keeps m n s (throughColumn m j add s) ∧ ∀ x, (throughColumn m j add s).rslt x =
      if x.1 ≤ m ∧ x.2 = j then ∑ k ∈ range (m + 1), g x.1 k else s.rslt x := by
  -- the sum of one entry
  have hentry : ∀ (a : Mat ℝ) i, forUpTo 0 m { s with a := update a (i, m + 1) 0 } (fun k s =>
      { s with a := update s.a (i, m + 1) (add i k s (s.a (i, m + 1))) }) =
        { s with a := update a (i, m + 1) (∑ k ∈ range (m + 1), g i k) } := by
    intro a i
    refine forBelow_inv (Nat.zero_le _) (fun k (t : Arrays ℝ) =>
      t = { s with a := update a (i, m + 1) (∑ k ∈ range k, g i k) }) ?_ ?_
    · rw [range_zero, sum_empty]
    · rintro k - - t rfl
      simp only [hadd, update_self, update_idem, sum_range_succ]
  have hcolumn : ∃ a : Mat ℝ, forUpTo 0 m s (fun i s => forUpTo 0 m
      { s with a := update s.a (i, m + 1) 0 } fun k s =>
        { s with a := update s.a (i, m + 1) (add i k s (s.a (i, m + 1))) }) = { s with a := a } ∧
      (∀ x, x.2 ≠ m + 1 → a x = s.a x) ∧
      ∀ i, i < m + 1 → a (i, m + 1) = ∑ k ∈ range (m + 1), g i k := by
    refine forBelow_inv (Nat.zero_le _) (fun i (t : Arrays ℝ) => ∃ a : Mat ℝ, t = { s with a := a } ∧
      (∀ x, x.2 ≠ m + 1 → a x = s.a x) ∧
      ∀ i', i' < i → a (i', m + 1) = ∑ k ∈ range (m + 1), g i' k) ?_ ?_
    · exact ⟨s.a, rfl, fun _ _ => rfl, fun i hi => absurd hi (Nat.not_lt_zero i)⟩
    · rintro i - - t ⟨a, rfl, hframe, hdone⟩
      refine ⟨_, hentry a i, fun x hx => ?_, fun i' hi' => ?_⟩
      · rw [update_of_ne (fun h => hx (congrArg Prod.snd h)), hframe x hx]
      · rcases Nat.lt_succ_iff_lt_or_eq.1 hi' with hlt | rfl
        · rw [update_of_ne (cell_ne (by omega)), hdone i' hlt]
        · rw [update_self]
  obtain ⟨a, ha, hframe, hsum⟩ := hcolumn
  have hcopy : throughColumn m j add s = { s with
      a := a
      rslt := forBelow 0 (m + 1) s.rslt fun i r => update r (i, j) (a (i, m + 1)) } := by
    rw [throughColumn, ha]
    refine forBelow_inv (Nat.zero_le _) (fun i (t : Arrays ℝ) => t = { s with
      a := a
      rslt := forBelow 0 i s.rslt fun i r => update r (i, j) (a (i, m + 1)) }) rfl ?_
    rintro i hlo - t rfl
    simp only [forBelow_succ hlo]
  rw [hcopy]
  refine ⟨⟨rfl, rfl, rfl, hframe, fun _ _ => rfl⟩, fun x => ?_⟩
  simp only
  rw [forBelow_layers Prod.fst (fun x => if x.2 = j then ∑ k ∈ range (m + 1), g x.1 k
    else s.rslt x)]
  · split_ifs <;> first | rfl | omega
  · rintro i - - r y hy
    exact update_of_ne (fun h => hy (congrArg Prod.fst h)) _ _
  · rintro i - hi r hr ⟨i', j'⟩ hy
    simp only at hy hr ⊢
    subst hy
    rw [update_apply, hsum i' hi, hr _ (.inr le_rfl)]
    exact if_congr (by simp) rfl rfl

/-- **A product from the left**, column by column: what is added for a column depends on the result
only in that column. -/
theorem columns_spec (add : ℕ → ℕ → ℕ → Arrays ℝ → ℝ → ℝ) (g : Mat ℝ → ℕ → ℕ → ℕ → ℝ)
    (hadd : ∀ t : Arrays ℝ, t.u = s.u → t.c = s.c → ∀ j i k z, add j i k t z = z + g t.rslt j i k)
    (hg : ∀ (r r' : Mat ℝ) j, (∀ i, r (i, j) = r' (i, j)) → g r j = g r' j) :
    Keeps m n s (forUpTo 0 n s fun j s => throughColumn m j (add j) s) ∧
      ∀ i ≤ m, ∀ j ≤ n, (forUpTo 0 n s fun j s => throughColumn m j (add j) s).rslt (i, j) =
        ∑ k ∈ range (m + 1), g s.rslt j i k := by
  have hinv := forBelow_inv (Nat.zero_le (n + 1)) (s := s)
    (f := fun j s => throughColumn m j (add j) s)
    (fun j t => Keeps m n s t ∧ ∀ x, t.rslt x =
      if x.1 ≤ m ∧ x.2 < j then ∑ k ∈ range (m + 1), g s.rslt x.2 x.1 k else s.rslt x) ?_ ?_
  · refine ⟨hinv.1, fun i hi j hj => ?_⟩
    exact (hinv.2 (i, j)).trans (if_pos (by simp only; omega))
  · refine ⟨Keeps.refl m n s, fun x => ?_⟩
    rw [if_neg (by omega)]
  · rintro j - hj t ⟨hkeep, ht⟩
    obtain ⟨hkeep', hcol⟩ := throughColumn_spec (s := t) n j (add j) (g t.rslt j)
      fun a i k z => hadd { t with a := a } hkeep.u hkeep.c j i k z
    refine ⟨hkeep.trans hkeep', ?_⟩
    rintro ⟨i', j'⟩
    rw [hcol, ht]
    simp only
    by_cases hj' : j' = j
    · subst hj'
      have hcolumn : g t.rslt j' = g s.rslt j' := by
        refine hg _ _ j' ?_
        intro i
        rw [ht, if_neg (by simp only; omega)]
      rw [hcolumn]
      split_ifs <;> first | rfl | omega
    · split_ifs <;> first | rfl | omega

/-- The arrays of the transposed equation. -/
def Arrays.swap (s : Arrays ℝ) : Arrays ℝ :=
  ⟨fun x => s.b x.swap, fun x => s.a x.swap, s.v, s.u, fun x => s.c x.swap, fun x => s.rslt x.swap⟩

theorem Keeps.swap (h : Keeps n m s.swap t) : Keeps m n s t.swap := by
  refine ⟨h.v, h.u, ?_, fun x hx => h.b x.swap hx, fun x hx => h.a x.swap hx⟩
  change (fun x : ℕ × ℕ => t.c x.swap) = s.c
  rw [h.c]
  rfl

/-- A row of the result is a column of the result of the transposed equation. -/
theorem throughRow_eq (n i : ℕ) (add : ℕ → ℕ → Arrays ℝ → ℝ → ℝ) (s : Arrays ℝ) :
    throughRow n i add s = (throughColumn n i (fun j k s => add j k s.swap) s.swap).swap := by
  have hscratch : ∀ (t : Arrays ℝ) j v, { t.swap with b := update t.swap.b (n + 1, j) v } =
      { t with a := update t.a (j, n + 1) v }.swap := by
    intro t j v
    rw [← update_swap]
    rfl
  have hresult : ∀ (t : Arrays ℝ) j v, { t.swap with rslt := update t.swap.rslt (i, j) v } =
      { t with rslt := update t.rslt (j, i) v }.swap := by
    intro t j v
    rw [← update_swap]
    rfl
  rw [throughRow, throughColumn]
  refine forBelow_rel (fun r c : Arrays ℝ => r = c.swap) ?_ ?_
  · refine forBelow_rel (fun r c : Arrays ℝ => r = c.swap) rfl ?_
    rintro j - - r c rfl
    refine forBelow_rel (fun r c : Arrays ℝ => r = c.swap) (hscratch c j 0) ?_
    rintro k - - r c rfl
    exact hscratch c j _
  · rintro j - - r c rfl
    exact hresult c j _

/-- **A product from the right**, row by row: what is added for a row depends on the result only in
that row. -/
theorem rows_spec (add : ℕ → ℕ → ℕ → Arrays ℝ → ℝ → ℝ) (g : Mat ℝ → ℕ → ℕ → ℕ → ℝ)
    (hadd : ∀ t : Arrays ℝ, t.v = s.v → ∀ i j k z, add i j k t z = z + g t.rslt i j k)
    (hg : ∀ (r r' : Mat ℝ) i, (∀ j, r (i, j) = r' (i, j)) → g r i = g r' i) :
    Keeps m n s (forUpTo 0 m s fun i s => throughRow n i (add i) s) ∧
      ∀ i ≤ m, ∀ j ≤ n, (forUpTo 0 m s fun i s => throughRow n i (add i) s).rslt (i, j) =
        ∑ k ∈ range (n + 1), g s.rslt i j k := by
  have hloop : forUpTo 0 m s (fun i s => throughRow n i (add i) s) =
      (forUpTo 0 m s.swap fun i s => throughColumn n i (fun j k s => add i j k s.swap) s).swap := by
    refine forBelow_rel (fun r c : Arrays ℝ => r = c.swap) rfl ?_
    rintro i - - r c rfl
    exact throughRow_eq n i (add i) c.swap
  obtain ⟨hkeep, hcols⟩ := columns_spec (m := n) (n := m) (s := s.swap)
    (fun i j k s => add i j k s.swap) (fun r => g fun x => r x.swap)
    (fun t hu _ i j k z => hadd t.swap hu i j k z) fun r r' i hr => hg _ _ i hr
  rw [hloop]
  exact ⟨hkeep.swap, fun i hi j hj => hcols j hj i hi⟩

/-- **The right-hand side in the new coordinates.** -/
theorem transformRhs_spec (m n : ℕ) (s : Arrays ℝ) :
    Keeps m n s (transformRhs m n s) ∧ block m n (transformRhs m n s).rslt =
      -((block m m s.u).transpose * block m n s.c * block n n s.v) := by
  obtain ⟨t, ht⟩ : ∃ t, t = forUpTo 0 n s fun j s =>
    throughColumn m j (fun i k s sum => sum - s.u (k, i) * s.c (k, j)) s := ⟨_, rfl⟩
  obtain ⟨hkeep, hcols⟩ := columns_spec (m := m) (n := n) (s := s)
    (fun j i k s sum => sum - s.u (k, i) * s.c (k, j)) (fun _ j i k => -(s.u (k, i) * s.c (k, j)))
    (fun t hu hc j i k z => by rw [hu, hc, sub_eq_add_neg]) (fun _ _ _ _ => rfl)
  rw [← ht] at hkeep hcols
  obtain ⟨hkeep', hrows⟩ := rows_spec (m := m) (n := n) (s := t)
    (fun i j k s sum => sum + s.rslt (i, k) * s.v (k, j)) (fun r i j k => r (i, k) * t.v (k, j))
    (fun t' hv i j k z => by rw [hv]) (fun r r' i hr => by funext j k; rw [hr])
  have htransform : transformRhs m n s = forUpTo 0 m t fun i s =>
      throughRow n i (fun j k s sum => sum + s.rslt (i, k) * s.v (k, j)) s := by
    rw [ht]
    rfl
  have hleft : block m n t.rslt = -((block m m s.u).transpose * block m n s.c) := by
    ext i j
    rw [block_apply, hcols i (by omega) j (by omega), Matrix.neg_apply, block_transpose_mul_apply,
      sum_neg_distrib]
  rw [htransform]
  refine ⟨hkeep.trans hkeep', ?_⟩
  rw [← Matrix.neg_mul, ← hleft]
  ext i j
  rw [block_apply, hrows i (by omega) j (by omega), block_mul_apply, hkeep.v]

/-- **The solution in the old coordinates.** -/
theorem transformBack_spec (m n : ℕ) (s : Arrays ℝ) :
    Keeps m n s (transformBack m n s) ∧ block m n (transformBack m n s).rslt =
      block m m s.u * block m n s.rslt * (block n n s.v).transpose := by
  obtain ⟨t, ht⟩ : ∃ t, t = forUpTo 0 n s fun j s =>
    throughColumn m j (fun i k s sum => sum + s.u (i, k) * s.rslt (k, j)) s := ⟨_, rfl⟩
  obtain ⟨hkeep, hcols⟩ := columns_spec (m := m) (n := n) (s := s)
    (fun j i k s sum => sum + s.u (i, k) * s.rslt (k, j)) (fun r j i k => s.u (i, k) * r (k, j))
    (fun t hu hc j i k z => by rw [hu]) (fun r r' j hr => by funext i k; rw [hr])
  rw [← ht] at hkeep hcols
  obtain ⟨hkeep', hrows⟩ := rows_spec (m := m) (n := n) (s := t)
    (fun i j k s sum => sum + s.rslt (i, k) * s.v (j, k)) (fun r i j k => r (i, k) * t.v (j, k))
    (fun t' hv i j k z => by rw [hv]) (fun r r' i hr => by funext j k; rw [hr])
  have htransform : transformBack m n s = forUpTo 0 m t fun i s =>
      throughRow n i (fun j k s sum => sum + s.rslt (i, k) * s.v (j, k)) s := by
    rw [ht]
    rfl
  have hleft : block m n t.rslt = block m m s.u * block m n s.rslt := by
    ext i j
    rw [block_apply, hcols i (by omega) j (by omega), block_mul_apply]
  rw [htransform]
  refine ⟨hkeep.trans hkeep', ?_⟩
  rw [← hleft]
  ext i j
  rw [block_apply, hrows i (by omega) j (by omega), Matrix.mul_apply, hkeep.v,
    ← Fin.sum_univ_eq_sum_range (fun k => t.rslt (i, k) * s.v (j, k))]
  rfl

end Products

/-! ### The solver -/

section Solver

variable {m n : ℕ} {lu : EigenLU ℝ}

/-- The systems of the blocks do not read the scratch cells. -/
theorem Nonsingular.congr {a b a' b' : Mat ℝ} (h : Nonsingular m n a b)
    (ha : ∀ x, x.2 ≠ m + 1 → a' x = a x) (hb : ∀ x, x.1 ≠ n + 1 → b' x = b x) :
    Nonsingular m n a' b' := by
  intro k hk hrow l hl hcol
  have hak : ∀ i, a' (i, k) = a (i, k) := fun i => ha _ (by simp only; omega)
  have hbl : ∀ j, b' (l, j) = b (l, j) := fun j => hb _ (by simp only; omega)
  have hak' : k ≠ m → ∀ i, a' (i, k + 1) = a (i, k + 1) := fun hne i =>
    ha _ (by simp only; omega)
  have hbl' : l ≠ n → ∀ j, b' (l + 1, j) = b (l + 1, j) := fun hne j => hb _ (by simp only; omega)
  have hdk : rowBlock m a' k = rowBlock m a k := by
    rw [rowBlock, rowBlock]
    refine if_congr (and_congr_right fun hne => ?_) rfl rfl
    rw [hak' hne]
  have hdl : columnBlock n b' l = columnBlock n b l := by
    rw [columnBlock, columnBlock]
    refine if_congr (and_congr_right fun hne => ?_) rfl rfl
    rw [hbl' hne]
  have hkm : rowBlock m a k = 2 → k ≠ m := by
    rw [rowBlock]
    split_ifs with htwo
    · exact fun _ => htwo.1
    · exact fun hfalse => absurd hfalse (by omega)
  have hln : columnBlock n b l = 2 → l ≠ n := by
    rw [columnBlock]
    split_ifs with htwo
    · exact fun _ => htwo.1
    · exact fun hfalse => absurd hfalse (by omega)
  have hsys := h k hk (by rwa [RowStart, ← hak]) l hl (by rwa [ColumnStart, ← hbl])
  rw [hdk, hdl]
  rw [BlockSystem] at hsys ⊢
  split_ifs at hsys ⊢ with h₁ h₂ h₂
  · rwa [system22, hak, hak, hak' (hkm h₁), hak' (hkm h₁), hbl, hbl, hbl' (hln h₂), hbl' (hln h₂)]
  · rwa [system21, hak, hak, hak' (hkm h₁), hak' (hkm h₁), hbl]
  · rwa [system12, hak, hbl, hbl, hbl' (hln h₂), hbl' (hln h₂)]
  · rwa [hak, hbl]

/-- The arrays hold the Schur forms of `A`, transposed, and of `B`. -/
structure SchurForms (m n : ℕ) (A : Matrix (Fin (m + 1)) (Fin (m + 1)) ℝ)
    (B : Matrix (Fin (n + 1)) (Fin (n + 1)) ℝ) (s : Arrays ℝ) : Prop where
  left : Turns (block m m s.u) A (block m m (lowerHess s.a)).transpose
  right : Turns (block n n s.v) B (block n n (hess s.b))
  lower : QuasiLower m s.a
  upper : QuasiTriangular n s.b

section SchurForms

variable {A : Matrix (Fin (m + 1)) (Fin (m + 1)) ℝ} {B : Matrix (Fin (n + 1)) (Fin (n + 1)) ℝ}
  {s t : Arrays ℝ}

/-- The scratch cells are not part of the matrices. -/
theorem SchurForms.congr (h : SchurForms m n A B s) (hu : t.u = s.u) (hv : t.v = s.v)
    (ha : ∀ x, x.2 ≠ m + 1 → t.a x = s.a x) (hb : ∀ x, x.1 ≠ n + 1 → t.b x = s.b x) :
    SchurForms m n A B t := by
  have hlower : block m m (lowerHess t.a) = block m m (lowerHess s.a) := by
    refine block_congr ?_
    intro i hi j hj
    simp only [lowerHess]
    rw [ha _ (by simp only; omega)]
  have hupper : block n n (hess t.b) = block n n (hess s.b) := by
    refine block_congr ?_
    intro i hi j hj
    simp only [hess]
    rw [hb _ (by simp only; omega)]
  refine ⟨?_, ?_, fun k hk hkm => ?_, fun k hk hkn => ?_⟩
  · rw [hu, hlower]
    exact h.left
  · rw [hv, hupper]
    exact h.right
  · rw [ha _ (by simp only; omega), ha _ (by simp only; omega)]
    exact h.lower k hk hkm
  · rw [hb _ (by simp only; omega), hb _ (by simp only; omega)]
    exact h.upper k hk hkn

theorem SchurForms.keep (h : SchurForms m n A B s) (hkeep : Keeps m n s t) :
    SchurForms m n A B t :=
  h.congr hkeep.u hkeep.v hkeep.a hkeep.b

/-- The solver leaves the prepared arrays alone, whatever the systems are. -/
theorem bsSolve_keeps (h : bsSolve lu m n s = .ok t) : Keeps m n s t := by
  obtain ⟨hkeep, -⟩ := transformRhs_spec m n s
  rw [bsSolve] at h
  rcases hshrslv : shrslv lu m n (transformRhs m n s).a (transformRhs m n s).b
    (transformRhs m n s).rslt with e | y
  · rw [hshrslv] at h
    exact absurd h (by rintro ⟨⟩)
  · rw [hshrslv] at h
    obtain rfl := Except.ok.inj h
    obtain ⟨hkeep', -⟩ := transformBack_spec m n { transformRhs m n s with rslt := y }
    exact hkeep.trans ⟨hkeep'.u, hkeep'.v, hkeep'.c, hkeep'.a, hkeep'.b⟩

/-- **The solver**, on arrays that hold the Schur forms. -/
theorem bsSolve_spec (hlu : lu.Exact) (hforms : SchurForms m n A B s)
    (hsys : Nonsingular m n s.a s.b) :
    ∃ t, bsSolve lu m n s = .ok t ∧ Keeps m n s t ∧
      A.transpose * block m n t.rslt + block m n t.rslt * B = -block m n s.c := by
  obtain ⟨hkeep, hrhs⟩ := transformRhs_spec m n s
  obtain ⟨t, ht⟩ : ∃ t, t = transformRhs m n s := ⟨_, rfl⟩
  rw [← ht] at hkeep hrhs
  have hforms' := hforms.keep hkeep
  obtain ⟨y, hy, hequation⟩ := shrslv_solves hlu hforms'.lower hforms'.upper
    (hsys.congr hkeep.a hkeep.b) t.rslt
  have hsolve : bsSolve lu m n s = .ok (transformBack m n { t with rslt := y }) := by
    rw [bsSolve, ← ht, hy]
    rfl
  obtain ⟨-, hback⟩ := transformBack_spec m n { t with rslt := y }
  refine ⟨_, hsolve, bsSolve_keeps hsolve, ?_⟩
  rw [hback]
  refine sylvester_of_turns hforms'.left hforms'.right ?_
  rw [← hkeep.u, ← hkeep.v] at hrhs
  rw [← hrhs, Matrix.transpose_transpose]
  ext i j
  rw [Matrix.add_apply, block_mul_apply, block_mul_apply, block_apply,
    ← hequation i (by omega) j (by omega)]

end SchurForms

/-- The lower part of a Schur form that is transposed in place. -/
theorem lowerHess_transposeInPlace (m : ℕ) (a : Mat ℝ) :
    (block m m (lowerHess (transposeInPlace m a))).transpose = block m m (hess a) := by
  ext i j
  rw [Matrix.transpose_apply, block_apply, block_apply]
  simp only [lowerHess, hess, transposeInPlace_apply]
  rw [if_pos (by omega : (j : ℕ) ≤ m ∧ (i : ℕ) ≤ m)]

/-- What `init_abuv` returns, from what `init_au` returns for each of the two matrices. -/
theorem initAbuv_eq {A B U V a b u v : Mat ℝ} (h : initAbuv 0 m n A B U V = .ok (a, b, u, v)) :
    ∃ a₀, initAu 0 m A U = .ok (a₀, u) ∧ transposeInPlace m a₀ = a ∧
      initAu 0 n B V = .ok (b, v) := by
  rw [initAbuv] at h
  rcases hau : initAu 0 m A U with e | ⟨a₀, u₀⟩
  · rw [hau] at h
    exact absurd h (by rintro ⟨⟩)
  rcases hbv : initAu 0 n B V with e | ⟨b₀, v₀⟩
  · rw [hau, hbv] at h
    exact absurd h (by rintro ⟨⟩)
  rw [hau, hbv] at h
  cases h
  exact ⟨a₀, rfl, rfl, rfl⟩

/-- **The Schur forms of two matrices.** -/
theorem initAbuv_spec (hm : 2 ≤ m) (hn : 2 ≤ n) {A B U V a b u v : Mat ℝ}
    (h : initAbuv 0 m n A B U V = .ok (a, b, u, v)) (C rslt : Mat ℝ) :
    SchurForms m n (block m m A) (block n n B) ⟨a, b, u, v, C, rslt⟩ := by
  obtain ⟨a₀, ha₀, rfl, hb₀⟩ := initAbuv_eq h
  obtain ⟨hA, hquasiA⟩ := initAu_spec hm ha₀
  obtain ⟨hB, hquasiB⟩ := initAu_spec hn hb₀
  refine ⟨by rwa [lowerHess_transposeInPlace], hB, fun k hk hkm => ?_, hquasiB⟩
  simp only
  rw [transposeInPlace_apply, transposeInPlace_apply, if_pos (by simp only; omega),
    if_pos (by simp only; omega)]
  exact hquasiA k hk hkm

/-- **The solver end to end**: the arrays that `init_abuv` returns give the solution of the equation
with the matrices it was given. -/
theorem bsSolve_solves (hlu : lu.Exact) (hm : 2 ≤ m) (hn : 2 ≤ n) {A B U V a b u v : Mat ℝ}
    (hinit : initAbuv 0 m n A B U V = .ok (a, b, u, v)) (hsys : Nonsingular m n a b)
    (C rslt : Mat ℝ) :
    ∃ s, bsSolve lu m n ⟨a, b, u, v, C, rslt⟩ = .ok s ∧ s.c = C ∧ s.u = u ∧ s.v = v ∧
      ∀ i ≤ m, ∀ j ≤ n, ∑ k ∈ range (m + 1), A (k, i) * s.rslt (k, j) +
        ∑ k ∈ range (n + 1), s.rslt (i, k) * B (k, j) = -C (i, j) := by
  obtain ⟨s, hs, hkeep, hequation⟩ := bsSolve_spec hlu (initAbuv_spec hm hn hinit C rslt) hsys
  refine ⟨s, hs, hkeep.c, hkeep.u, hkeep.v, fun i hi j hj => ?_⟩
  have hij := congrFun (congrFun hequation ⟨i, by omega⟩) ⟨j, by omega⟩
  rw [Matrix.add_apply, block_mul_apply, block_transpose_mul_apply] at hij
  exact hij

/-! ### A run -/

/-- A quarter turn of the plane of the vectors `(1, 0, 0)` and `(0, 3, 4)`, which it makes five
times as long, and a factor for the vectors at right angles to the plane. -/
def quarterTurn : ℕ × ℕ → ℤ
  | (0, 1) => -3
  | (0, 2) => -4
  | (1, 0) => 3
  | (1, 1) => 16
  | (1, 2) => -12
  | (2, 0) => 4
  | (2, 1) => -12
  | (2, 2) => 9
  | _ => 0

/-- The turn, by a factor. -/
noncomputable def turn (c : ℝ) : Mat ℝ := fun x => c * quarterTurn x

/-- The vector that reflects its first column, with the coefficient `2 / 5`. -/
def turnVector (i : ℕ) : ℝ := if i = 1 then 2 else if i = 2 then 1 else 0

/-- A Hessenberg form of the turn: a quarter turn of the first two rows, and the factor. -/
structure TurnForm (c : ℝ) (a : Mat ℝ) : Prop where
  h00 : a (0, 0) = 0
  h01 : a (0, 1) = c * 5
  h10 : a (1, 0) = c * -5
  h11 : a (1, 1) = 0
  h21 : a (2, 1) = 0
  h22 : a (2, 2) = c * 25

section Turn

variable {c : ℝ} (hc : 0 < c)

include hc

theorem columnMax_turn : columnMax 2 0 (turn c) = c * 4 := by
  have hfirst : Scalar.fabs (turn c (1, 0)) = c * 3 :=
    abs_of_pos (mul_pos hc (by norm_num [quarterTurn]))
  have hsecond : Scalar.fabs (turn c (2, 0)) = c * 4 :=
    abs_of_pos (mul_pos hc (by norm_num [quarterTurn]))
  have hpos : 0 < c * 3 := by positivity
  have hlt : c * 3 < c * 4 := by linarith
  simp [columnMax, forUpTo, forBelow, passes, hfirst, hsecond, lt_real, hpos, hlt]

/-- The reflection of the first column. -/
theorem keepColumn_turn :
    keepColumn 2 0 (turn c) (0, 3) = c * -5 ∧
      keptCoefficient 2 0 (keepColumn 2 0 (turn c)) = 2 / 5 ∧
      keptVector 2 0 (keepColumn 2 0 (turn c)) = turnVector ∧
      ∀ i j, i ≤ 2 → 1 ≤ j → j ≤ 2 → keepColumn 2 0 (turn c) (i, j) = turn c (i, j) := by
  obtain ⟨s, hs, hsign, hright, hbelow, hvec, hkeep⟩ := keepColumn_spec two_pos (turn c)
  rw [columnMax_turn hc] at hs hsign hright hbelow hvec
  have hfirst : turn c (1, 0) / (c * 4) = 3 / 4 := by
    rw [div_eq_iff (by positivity)]
    norm_num [turn, quarterTurn]
    ring
  have hsecond : turn c (2, 0) / (c * 4) = 1 := by
    rw [div_eq_iff (by positivity)]
    norm_num [turn, quarterTurn]
  have hs₀ : s = 5 / 4 := by
    have hIco : Ico (0 + 1) (2 + 1) = {1, 2} := rfl
    rw [hIco, sum_pair (by decide), hfirst, hsecond] at hs
    rw [Nat.zero_add, hfirst] at hsign
    nlinarith
  subst hs₀
  rw [Nat.zero_add, hfirst] at hbelow
  refine ⟨?_, ?_, ?_, ?_⟩
  · rw [hright]
    ring
  · rw [keptCoefficient, hbelow]
    norm_num
  · funext i
    by_cases hi : 0 < i ∧ i ≤ 2
    · rw [keptVector_of_lt hi.1 hi.2, hvec i hi.1 hi.2]
      obtain rfl | rfl : i = 1 ∨ i = 2 := by omega
      · rw [hfirst]
        norm_num [turnVector]
      · rw [hsecond]
        norm_num [turnVector]
    · rw [keptVector_eq_zero hi, turnVector, if_neg (by omega), if_neg (by omega)]
  · intro i j hi hj hj'
    exact hkeep _ (cell_ne (by omega)) (cell_ne (by omega)) (by simp only; omega)

/-- **The Hessenberg form of the turn.** -/
theorem hshldr_turn : TurnForm c (restoreSubdiagonal 2 (hshldr 2 (turn c))) := by
  have hmax : columnMax 2 0 (turn c) ≠ 0 := by
    rw [columnMax_turn hc]
    positivity
  obtain ⟨d, hd, hpass⟩ := hshldrAt_apply hmax rfl
  obtain ⟨hright, hcoef, hvec, hkeep⟩ := keepColumn_turn hc
  rw [hcoef, hvec] at hd hpass
  have hcolumns : ∀ i j, i ≤ 2 → 1 ≤ j → j ≤ 2 →
      d (i, j) = onRows 2 (2 / 5) turnVector (turn c) (i, j) := by
    intro i j hi hj hj'
    rw [hd, if_pos (by simp only; omega)]
    exact onRows_congr (hkeep i j hi hj hj') fun k hk _ => hkeep k j hk hj hj'
  have hentry : ∀ i j, i ≤ 2 → 1 ≤ j → j ≤ 2 → hshldrAt 2 0 (turn c) (i, j) =
      onCols 2 (2 / 5) turnVector (onRows 2 (2 / 5) turnVector (turn c)) (i, j) := by
    intro i j hi hj hj'
    rw [hpass, if_pos (by simp only; omega)]
    refine onCols_congr (hcolumns i j hi hj hj') fun k hk hne => hcolumns i k hi ?_ hk
    by_contra hk0
    obtain rfl : k = 0 := by omega
    simp [turnVector] at hne
  have hlast : hshldr 2 (turn c) =
      update (hshldrAt 2 0 (turn c)) (1, 3) (hshldrAt 2 0 (turn c) (2, 1)) := rfl
  have hstart : hshldrAt 2 0 (turn c) (0, 0) = 0 := by
    refine (hshldrAt_frame two_pos (turn c) (x := (0, 0)) (.inr (.inr ⟨rfl, le_rfl⟩))).trans ?_
    simp [turn, quarterTurn]
  have hsubdiagonal : hshldrAt 2 0 (turn c) (0, 3) = c * -5 := by
    rw [hpass, if_pos (by decide), onCols_of_eq_zero (by simp [turnVector]), hd,
      if_neg (by decide), hright]
  constructor <;> simp only [restoreSubdiagonal_apply, hlast]
  · simpa using hstart
  · simp [hentry, onCols, onRows, sum_range_succ, turn, quarterTurn, turnVector]
    ring
  · simpa using hsubdiagonal
  all_goals
    simp [hentry, onCols, onRows, sum_range_succ, turn, quarterTurn, turnVector]
    ring

/-- The iteration splits the last row off and leaves the block of two rows. -/
theorem initAu_turn (U : Mat ℝ) :
    ∃ a u, initAu 0 2 (turn c) U = .ok (a, u) ∧ TurnForm c a := by
  obtain ⟨a, ha⟩ : ∃ a, a = restoreSubdiagonal 2 (hshldr 2 (turn c)) := ⟨_, rfl⟩
  obtain ⟨u, hu⟩ : ∃ u, u = bckmlt 2 (hshldr 2 (turn c)) U := ⟨_, rfl⟩
  have hform : TurnForm c a := ha ▸ hshldr_turn hc
  have hnorm : hessenbergNorm 2 a ≠ 0 := by
    intro hzero
    have hentry := hessenbergNorm_eq_zero hzero (Nat.zero_le 2) one_le_two (Nat.zero_le 2)
    rw [hform.h01] at hentry
    linarith
  have hlast : smallSubdiagonal 0 a 2 = 2 := by
    simp [smallSubdiagonal, le_real, fabs_real, hform.h21]
  have hfirst : smallSubdiagonal 0 a 1 = 0 := by
    simp [smallSubdiagonal, le_real, fabs_real, hform.h10, hc.ne']
  have hschur : schur 2 0 a u = (true, a, u) := by
    rw [schur]
    simp only [isZero_real, zero_mul]
    rw [if_neg (by simpa using hnorm), iterate, dif_neg (by decide)]
    simp only [hlast]
    rw [if_pos (by decide), deflate_eq_self fun _ => hform.h21, iterate, dif_neg (by decide)]
    simp only [hfirst]
    rw [if_pos (by decide), deflate_eq_self fun h => absurd rfl h, iterate, dif_pos rfl]
  refine ⟨a, u, ?_, hform⟩
  rw [initAu]
  simp only [← ha, ← hu, hschur, if_true]

end Turn

/-- Hessenberg forms of the turn and of its double are a nonsingular pair. -/
theorem nonsingular_turn {a a₀ b : Mat ℝ} (ha : TurnForm 1 a₀) (hb : TurnForm 2 b)
    (hentry : ∀ i j, i ≤ 2 → j ≤ 2 → a (i, j) = a₀ (j, i)) : Nonsingular 2 2 a b := by
  obtain ⟨h00, h01, h10, h11, -, h22⟩ := ha
  obtain ⟨b00, b01, b10, b11, -, b22⟩ := hb
  have hrow : rowBlock 2 a 0 = 2 := if_pos (by simp [isZero_real, hentry, h10])
  have hrow' : rowBlock 2 a 2 = 1 := if_neg (by simp)
  have hcolumn : columnBlock 2 b 0 = 2 := if_pos (by simp [isZero_real, b10])
  have hcolumn' : columnBlock 2 b 2 = 1 := if_neg (by simp)
  intro k hk hstart l hl hstart'
  have hk : k = 0 ∨ k = 2 := by
    by_contra hne
    obtain rfl : k = 1 := by omega
    simp [RowStart, hentry, h10] at hstart
  have hl : l = 0 ∨ l = 2 := by
    by_contra hne
    obtain rfl : l = 1 := by omega
    simp [ColumnStart, b10] at hstart'
  rcases hk with rfl | rfl <;> rcases hl with rfl | rfl
  · rw [hrow, hcolumn, BlockSystem, if_pos rfl, if_pos rfl]
    simp [system22, Matrix.det_succ_row_zero, Fin.sum_univ_succ, Fin.succAbove, hentry, h00, h01,
      h10, h11, b00, b01, b10, b11]
    norm_num
  · rw [hrow, hcolumn', BlockSystem, if_pos rfl, if_neg (by decide), system21,
      Matrix.det_fin_two_of]
    simp [hentry, h00, h01, h10, h11, b22]
    norm_num
  · rw [hrow', hcolumn, BlockSystem, if_neg (by decide), if_pos rfl, system12,
      Matrix.det_fin_two_of]
    simp [hentry, h22, b00, b01, b10, b11]
    norm_num
  · rw [hrow', hcolumn', BlockSystem, if_neg (by decide), if_neg (by decide)]
    simp [hentry, h22, b22]
    norm_num

/-- The solver on two turns, whose Schur forms have a block of two rows each. -/
theorem bsSolve_solves_turn : ∃ a b u v s,
    initAbuv 0 2 2 (turn 1) (turn 2) (identity ℝ) (identity ℝ) = .ok (a, b, u, v) ∧
      a (0, 1) = -5 ∧ b (0, 1) = 10 ∧
      bsSolve exactLU 2 2 ⟨a, b, u, v, identity ℝ, identity ℝ⟩ = .ok s ∧
      s.c = identity ℝ ∧ s.u = u ∧ s.v = v ∧
      ∀ i ≤ 2, ∀ j ≤ 2, ∑ k ∈ range (2 + 1), turn 1 (k, i) * s.rslt (k, j) +
        ∑ k ∈ range (2 + 1), s.rslt (i, k) * turn 2 (k, j) = -identity ℝ (i, j) := by
  obtain ⟨a₀, u, hau, ha₀⟩ := initAu_turn one_pos (identity ℝ)
  obtain ⟨b, v, hbv, hb₀⟩ := initAu_turn two_pos (identity ℝ)
  obtain ⟨a, ha⟩ : ∃ a, a = transposeInPlace 2 a₀ := ⟨_, rfl⟩
  have hinit : initAbuv 0 2 2 (turn 1) (turn 2) (identity ℝ) (identity ℝ) = .ok (a, b, u, v) := by
    rw [initAbuv, hau, hbv, ha]
    rfl
  have hentry : ∀ i j, i ≤ 2 → j ≤ 2 → a (i, j) = a₀ (j, i) := fun i j hi hj => by
    rw [ha, transposeInPlace_apply, if_pos ⟨hi, hj⟩]
  have hsys : Nonsingular 2 2 a b := nonsingular_turn ha₀ hb₀ hentry
  obtain ⟨s, hs, hsolution⟩ := bsSolve_solves exactLU_exact le_rfl le_rfl hinit hsys (identity ℝ)
    (identity ℝ)
  refine ⟨a, b, u, v, s, hinit, ?_, ?_, hs, hsolution⟩
  · rw [hentry 0 1 (by decide) (by decide), ha₀.h10]
    norm_num
  · rw [hb₀.h01]
    norm_num

end Solver

end Chebyshev.BS
