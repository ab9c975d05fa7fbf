/-
**The solver with one matrix agrees with the solver with two.**

With as many intervals each way `BartelsStewart.cpp` takes a short cut: `init_au` prepares one
matrix, and the five-argument `bs_solve` transposes the whole array, history of the reflections and
scratch cells included, where `init_abuv` transposes the leading block alone and prepares a second
matrix.  The results agree because nothing but the leading blocks is read before it is written.

The module says so for every function on the way: what agrees on the leading cells is taken to what
agrees on them, over any arithmetic, and with the same tests the same error is thrown.

Main definitions:

* `Chebyshev.BS.leading` — the cells of the leading block;
* `Chebyshev.BS.Alike` — two calls throw the same error or return related results;
* `Chebyshev.BS.SameArrays` — the arrays of two calls of `bs_solve`.

Main results:

* `Chebyshev.BS.bckmlt_eqOn` — the orthogonal matrix does not depend on what was in its array;
* `Chebyshev.BS.schur_same` — nor does the QR iteration;
* `Chebyshev.BS.shrslv_alike`, `Chebyshev.BS.bsSolve_alike` — the solver reads the leading blocks;
* `Chebyshev.BS.square_agrees` — **the two paths agree**.
-/

import CppSamples.BartelsStewartSolve

set_option relaxedAutoImplicit false
set_option autoImplicit false

namespace Chebyshev.BS

open CountedLoop Function Set

universe w

variable {K : Type*}

/-- The cells of the leading block. -/
def leading (m n : ℕ) : Set (ℕ × ℕ) := {x | x.1 ≤ m ∧ x.2 ≤ n}

theorem mem_leading {m n i j : ℕ} (hi : i ≤ m) (hj : j ≤ n) : (i, j) ∈ leading m n := ⟨hi, hj⟩

/-! ### The orthogonal matrix -/

section Orthogonal

variable [Zero K] [One K] [Add K] [Sub K] [Mul K] [Div K] [Scalar K] {u v : Mat K} {n l : ℕ}

/-- The cells from row and column `l` on. -/
def corner (l n : ℕ) : Set (ℕ × ℕ) := {x | (l ≤ x.1 ∧ x.1 ≤ n) ∧ l ≤ x.2 ∧ x.2 ≤ n}

/-- One pass of `bckmlt` reads the cells that the passes before it wrote. -/
theorem bckmltAt_eqOn (a : Mat K) (hl : l < n) (h : EqOn u v (corner (l + 1) n)) :
    EqOn (bckmltAt n a l u) (bckmltAt n a l v) (corner l n) := by
  have hreflect : EqOn
      (if ZeroTest.isZero (a (n + 1, l)) then u
        else forUpTo (l + 1) n u fun j u => reflectColumn n l a j u)
      (if ZeroTest.isZero (a (n + 1, l)) then v
        else forUpTo (l + 1) n v fun j v => reflectColumn n l a j v) (corner (l + 1) n) := by
    split_ifs
    · exact h
    · refine forBelow_rel (EqOn · · (corner (l + 1) n)) h ?_
      intro j hlj hjn u v h
      have hcell : ∀ i, l + 1 ≤ i → i < n + 1 → u (i, j) = v (i, j) := fun i hli hin =>
        h ⟨⟨hli, by omega⟩, hlj, by omega⟩
      have hsum : forUpTo (l + 1) n 0 (fun i sum => sum + a (i, l) * u (i, j)) =
          forUpTo (l + 1) n 0 fun i sum => sum + a (i, l) * v (i, j) := by
        refine forBelow_rel (· = ·) rfl ?_
        intro i hli hin s t hst
        rw [hst, hcell i hli hin]
      rw [reflectColumn, reflectColumn, hsum]
      refine forBelow_rel (EqOn · · (corner (l + 1) n)) h ?_
      intro i hli hin u v h
      exact eqOn_update h _ (by rw [h ⟨⟨hli, by omega⟩, hlj, by omega⟩])
  -- the cross of row and column `l` is written whole
  rintro ⟨i, j⟩ ⟨⟨hli, hin⟩, hlj, hjn⟩
  simp only [bckmltAt, update_apply, clearCross_apply hl, Prod.mk.injEq]
  refine ite_congr rfl (fun _ => rfl) ?_
  intro hdiagonal
  refine ite_congr rfl (fun _ => rfl) ?_
  intro hcross
  exact hreflect ⟨⟨by omega, hin⟩, by omega, hjn⟩

/-- **The orthogonal matrix does not depend on what was in its array.** -/
theorem bckmlt_eqOn (hn : 2 ≤ n) (a u v : Mat K) :
    EqOn (bckmlt n a u) (bckmlt n a v) (leading n n) := by
  have hstart : EqOn (update (update (update (update u (n - 1, n - 1) 1) (n, n) 1) (n, n - 1) 0)
        (n - 1, n) 0)
      (update (update (update (update v (n - 1, n - 1) 1) (n, n) 1) (n, n - 1) 0) (n - 1, n) 0)
      (corner (n - 1) n) := by
    rintro ⟨i, j⟩ ⟨⟨hli, hin⟩, hlj, hjn⟩
    simp only [update_apply, Prod.mk.injEq]
    split_ifs
    all_goals first | rfl | omega
  have hpasses : EqOn (bckmlt n a u) (bckmlt n a v) (corner (n - 1 - (n - 2 + 1)) n) := by
    refine forBelow_rel_at (Nat.zero_le _) (fun t u v => EqOn u v (corner (n - 1 - t) n)) hstart ?_
    intro t _ ht u v h
    have hl : n - 1 - (t + 1) = n - 2 - t := by omega
    have hl' : n - 1 - t = n - 2 - t + 1 := by omega
    rw [hl'] at h
    rw [hl]
    exact bckmltAt_eqOn a (by omega) h
  exact fun x hx => hpasses ⟨⟨by omega, hx.1⟩, by omega, hx.2⟩

end Orthogonal

/-! ### The iteration -/

section Iteration

/-- The same matrix, and the same orthogonal matrix on the leading cells. -/
def SameSchur (nn : ℕ) (s t : Mat K × Mat K) : Prop := s.1 = t.1 ∧ EqOn s.2 t.2 (leading nn nn)

variable [Add K] [Sub K] [Mul K] {u v : Mat K} {nn n : ℕ}

/-- A reflection of columns of the leading block. -/
theorem Reflector.onRow_eqOn (g : Reflector K) {notlast : Bool} {k i : ℕ} (hk : k + 1 ≤ nn)
    (hlast : notlast = true → k + 2 ≤ nn) (hi : i ≤ nn) (h : EqOn u v (leading nn nn)) :
    EqOn (g.onRow notlast k i u) (g.onRow notlast k i v) (leading nn nn) := by
  have hp : (if notlast then g.x * u (i, k) + g.y * u (i, k + 1) + g.z * u (i, k + 2)
      else g.x * u (i, k) + g.y * u (i, k + 1)) =
        if notlast then g.x * v (i, k) + g.y * v (i, k + 1) + g.z * v (i, k + 2)
          else g.x * v (i, k) + g.y * v (i, k + 1) := by
    rw [h (mem_leading hi (show k ≤ nn by omega)), h (mem_leading hi hk)]
    exact ite_congr rfl (fun hl => by rw [h (mem_leading hi (hlast hl))]) fun _ => rfl
  simp only [Reflector.onRow, hp]
  refine eqOn_update_sub (eqOn_update_sub ?_ (mem_leading hi hk) _) (mem_leading hi (by omega)) _
  split_ifs with hl
  · exact eqOn_update_sub h (mem_leading hi (hlast hl)) _
  · exact h

/-- A reflection of the sweep. -/
theorem Reflector.apply_same (g : Reflector K) {k : ℕ} (hn : n ≤ nn) (hk : k + 1 ≤ n)
    {s t : Mat K × Mat K} (h : SameSchur nn s t) :
    SameSchur nn (g.apply nn n k s) (g.apply nn n k t) := by
  obtain ⟨hmatrix, hcells⟩ := h
  refine ⟨by rw [Reflector.apply, Reflector.apply, hmatrix], ?_⟩
  rw [Reflector.apply, Reflector.apply]
  simp only
  refine forBelow_rel (EqOn · · (leading nn nn)) hcells ?_
  intro i _ hi u v h
  refine g.onRow_eqOn (by omega) (fun hlast => ?_) (by omega) h
  have hne := of_decide_eq_true hlast
  omega

variable [Zero K] [Div K] [Neg K] [Scalar K]

/-- One pass of a sweep. -/
theorem sweepAt_same (l m : ℕ) (w : Vec3 K) {k : ℕ} (hn : n ≤ nn) (hk : k + 1 ≤ n)
    {s t : Mat K × Mat K} (h : SameSchur nn s t) :
    SameSchur nn (sweepAt nn n l m w k s) (sweepAt nn n l m w k t) := by
  obtain ⟨A, u⟩ := s
  obtain ⟨A', v⟩ := t
  obtain ⟨rfl, hcells⟩ := h
  simp only [sweepAt]
  split_ifs
  · exact w.reflector.apply_same hn hk ⟨rfl, hcells⟩
  · exact w.reflector.apply_same hn hk ⟨rfl, hcells⟩
  · exact ⟨rfl, hcells⟩
  · exact Reflector.apply_same _ hn hk ⟨rfl, hcells⟩

/-- A sweep. -/
theorem sweep_same (hn test : K) (l its : ℕ) (hnn : n ≤ nn) (hpos : 0 < n) {s t : Mat K × Mat K}
    (h : SameSchur nn s t) :
    SameSchur nn (sweep hn test nn n l its s) (sweep hn test nn n l its t) := by
  obtain ⟨A, u⟩ := s
  obtain ⟨A', v⟩ := t
  obtain ⟨rfl, hcells⟩ := h
  refine forBelow_rel (SameSchur nn) ⟨rfl, hcells⟩ ?_
  intro k _ hk s t h
  exact sweepAt_same _ _ _ hnn (by omega) h

/-- The iterations. -/
theorem iterate_same (hn test : K) (nn n its : ℕ) (s t : Mat K × Mat K) (hnn : n ≤ nn)
    (h : SameSchur nn s t) :
    (iterate hn test nn n its s).1 = (iterate hn test nn n its t).1 ∧
      SameSchur nn (iterate hn test nn n its s).2 (iterate hn test nn n its t).2 := by
  revert t hnn
  fun_induction iterate hn test nn n its s with
  | case1 its s =>
      intro t hnn h
      rw [iterate, dif_pos rfl]
      exact ⟨rfl, h⟩
  | case2 n its s hn₀ l A hl ih =>
      rintro ⟨A', v⟩ hnn ⟨rfl, hcells⟩
      have ht : iterate hn test nn n its (s.1, v) = iterate hn test nn (l - 1) 0 (A, v) := by
        rw [iterate, dif_neg hn₀, if_pos hl]
      have hln := smallSubdiagonal_le test s.1 n
      rw [ht]
      exact ih (A, v) (by omega) ⟨rfl, hcells⟩
  | case3 n its s hn₀ l A hl hits =>
      rintro ⟨A', v⟩ hnn ⟨rfl, hcells⟩
      rw [iterate, dif_neg hn₀, if_neg hl, dif_pos hits]
      exact ⟨rfl, rfl, hcells⟩
  | case4 n its s hn₀ l A hl hits ih =>
      rintro ⟨A', v⟩ hnn ⟨rfl, hcells⟩
      have ht : iterate hn test nn n its (s.1, v) =
          iterate hn test nn n (its + 1) (sweep hn test nn n l its (A, v)) := by
        rw [iterate, dif_neg hn₀, if_neg hl, dif_neg hits]
      rw [ht]
      exact ih _ hnn (sweep_same hn test l its hnn (Nat.pos_of_ne_zero hn₀) ⟨rfl, hcells⟩)

/-- **The QR iteration does not depend on what is beside the orthogonal matrix.** -/
theorem schur_same (nn : ℕ) (eps : K) (h : Mat K) (huv : EqOn u v (leading nn nn)) :
    (schur nn eps h u).1 = (schur nn eps h v).1 ∧
      SameSchur nn (schur nn eps h u).2 (schur nn eps h v).2 := by
  simp only [schur]
  split_ifs
  · exact ⟨rfl, rfl, huv⟩
  · exact iterate_same _ _ _ _ _ _ _ le_rfl ⟨rfl, huv⟩

end Iteration

/-! ### Calls that end alike -/

/-- Two calls that both throw `msg` or both return, with related results. -/
def Alike {α β : Type*} (msg : String) (R : α → β → Prop) : Except String α → Except String β → Prop
  | .error e, .error e' => e = msg ∧ e' = msg
  | .ok a, .ok b => R a b
  | _, _ => False

section Alike

variable {α β α' β' : Type w} {msg : String} {R : α → β → Prop} {R' : α' → β' → Prop}
  {x : Except String α} {y : Except String β} {f : α → Except String α'} {g : β → Except String β'}

/-- One call after the other. -/
theorem Alike.bind (h : Alike msg R x y) (hfg : ∀ a b, R a b → Alike msg R' (f a) (g b)) :
    Alike msg R' (x >>= f) (y >>= g) := by
  cases x with
  | error e =>
      cases y with
      | error e' => exact h
      | ok b => exact h.elim
  | ok a =>
      cases y with
      | error e' => exact h.elim
      | ok b => exact hfg a b h

/-- The two ends. -/
theorem Alike.cases (h : Alike msg R x y) :
    x = .error msg ∧ y = .error msg ∨ ∃ a b, x = .ok a ∧ y = .ok b ∧ R a b := by
  cases x with
  | error e =>
      cases y with
      | error e' =>
          obtain ⟨rfl, rfl⟩ := h
          exact .inl ⟨rfl, rfl⟩
      | ok b => exact h.elim
  | ok a =>
      cases y with
      | error e' => exact h.elim
      | ok b => exact .inr ⟨a, b, rfl, rfl, h⟩

end Alike

/-! ### The preparation -/

section Preparation

variable [Zero K] [One K] [Add K] [Sub K] [Mul K] [Div K] [Neg K] [Scalar K] {m : ℕ}

/-- `init_au` on the same matrix. -/
theorem initAu_alike (eps : K) (hm : 2 ≤ m) (a u v : Mat K) :
    Alike "** SCHUR FAILED!" (SameSchur m) (initAu eps m a u) (initAu eps m a v) := by
  obtain ⟨hok, hsame⟩ := schur_same m eps (restoreSubdiagonal m (hshldr m a))
    (bckmlt_eqOn hm (hshldr m a) u v)
  simp only [initAu, hok]
  split_ifs
  · exact hsame
  · exact ⟨rfl, rfl⟩

/-- The arrays that the two paths prepare: `init_au` those of the one matrix, `init_abuv` the first
of the two transposed in its leading block. -/
def PreparedAlike (m : ℕ) (s : Mat K × Mat K) (t : Mat K × Mat K × Mat K × Mat K) : Prop :=
  t.1 = transposeInPlace m s.1 ∧ t.2.1 = s.1 ∧ EqOn s.2 t.2.2.1 (leading m m) ∧
    EqOn s.2 t.2.2.2 (leading m m)

theorem initAbuv_alike (eps : K) (hm : 2 ≤ m) (a u u' v' : Mat K) :
    Alike "** SCHUR FAILED!" (PreparedAlike m) (initAu eps m a u) (initAbuv eps m m a a u' v') := by
  have hu := initAu_alike eps hm a u u'
  have hv := initAu_alike eps hm a u v'
  rw [initAbuv]
  rcases hu.cases with ⟨hx, hy⟩ | ⟨⟨b, w⟩, ⟨b', w'⟩, hx, hy, hb, hw⟩
  · rw [hx, hy]
    exact ⟨rfl, rfl⟩
  · obtain rfl : b = b' := hb
    rw [hx] at hv
    rcases hv.cases with ⟨hx', -⟩ | ⟨_, ⟨c, z⟩, hx', hz, hc, hcells⟩
    · cases hx'
    · cases hx'
      obtain rfl : b = c := hc
      rw [hx, hy, hz]
      exact ⟨rfl, rfl, hw, hcells⟩

end Preparation

/-! ### The transformed equation -/

section Equation

variable {m n k l dk dl : ℕ} {a a' b b' c c' : Mat K}

section Subtract

variable [Sub K] [Mul K]

theorem subtractColumns_eqOn (hb : EqOn b b' (leading n n)) (hdl : l + dl ≤ n + 1)
    (h : EqOn c c' (leading m n)) :
    EqOn (subtractColumns m l dl b c) (subtractColumns m l dl b' c') (leading m n) := by
  rw [subtractColumns, subtractColumns]
  split_ifs
  · exact h
  · refine forBelow_rel (EqOn · · (leading m n)) h ?_
    intro j _ hj c c' h
    refine forBelow_rel (EqOn · · (leading m n)) h ?_
    intro i _ hi c c' h
    refine forBelow_rel (EqOn · · (leading m n)) h ?_
    intro k _ hk c c' h
    have hi : i ≤ m := by omega
    have hj : j ≤ n := by omega
    refine eqOn_update h _ ?_
    rw [h (mem_leading hi hj), h (mem_leading hi (show k ≤ n by omega)),
      hb (mem_leading (show k ≤ n by omega) hj)]

theorem subtractRows_eqOn (ha : EqOn a a' (leading m m)) (hdk : k + dk ≤ m + 1)
    (hdl : l + dl ≤ n + 1) (h : EqOn c c' (leading m n)) :
    EqOn (subtractRows k dk l dl a c) (subtractRows k dk l dl a' c') (leading m n) := by
  rw [subtractRows, subtractRows]
  split_ifs
  · exact h
  · refine forBelow_rel (EqOn · · (leading m n)) h ?_
    intro i _ hi c c' h
    refine forBelow_rel (EqOn · · (leading m n)) h ?_
    intro j _ hj c c' h
    refine forBelow_rel (EqOn · · (leading m n)) h ?_
    intro p _ hp c c' h
    have hi : i ≤ m := by omega
    have hj : j ≤ n := by omega
    refine eqOn_update h _ ?_
    rw [h (mem_leading hi hj), h (mem_leading (show p ≤ m by omega) hj),
      ha (mem_leading hi (show p ≤ m by omega))]

end Subtract

variable [ZeroTest K]

theorem rowBlock_congr (ha : EqOn a a' (leading m m)) (hk : k ≤ m) :
    rowBlock m a k = rowBlock m a' k := by
  rw [rowBlock, rowBlock]
  refine if_congr (and_congr_right fun hne => ?_) rfl rfl
  rw [ha (mem_leading hk (show k + 1 ≤ m by omega))]

theorem columnBlock_congr (hb : EqOn b b' (leading n n)) (hl : l ≤ n) :
    columnBlock n b l = columnBlock n b' l := by
  rw [columnBlock, columnBlock]
  refine if_congr (and_congr_right fun hne => ?_) rfl rfl
  rw [hb (mem_leading (show l + 1 ≤ n by omega) hl)]

theorem rowBlock_bounds (a : Mat K) (hk : k ≤ m) :
    0 < rowBlock m a k ∧ k + rowBlock m a k ≤ m + 1 := by
  rw [rowBlock]
  split_ifs
  all_goals omega

theorem columnBlock_bounds (b : Mat K) (hl : l ≤ n) :
    0 < columnBlock n b l ∧ l + columnBlock n b l ≤ n + 1 := by
  rw [columnBlock]
  split_ifs
  all_goals omega

variable [Zero K] [Add K] [Div K] (lu : EigenLU K)

/-- The system of one block. -/
theorem solveBlock_alike (ha : EqOn a a' (leading m m)) (hb : EqOn b b' (leading n n))
    (hdk : 0 < dk ∧ k + dk ≤ m + 1) (hdl : 0 < dl ∧ l + dl ≤ n + 1) (h : EqOn c c' (leading m n)) :
    Alike "** SHRSLV:unable to solve" (EqOn · · (leading m n)) (solveBlock lu a b k dk l dl c)
      (solveBlock lu a' b' k dk l dl c') := by
  have hk : k ≤ m := by omega
  have hl : l ≤ n := by omega
  have ha₀ := ha (mem_leading hk hk)
  have hb₀ := hb (mem_leading hl hl)
  have hc₀ := h (mem_leading hk hl)
  by_cases hdk₂ : dk = 2
  · have hk' : k + 1 ≤ m := by omega
    have ha₁ := ha (mem_leading hk hk')
    have ha₂ := ha (mem_leading hk' hk)
    have ha₃ := ha (mem_leading hk' hk')
    have hc₁ := h (mem_leading hk' hl)
    by_cases hdl₂ : dl = 2
    · have hl' : l + 1 ≤ n := by omega
      have hb₁ := hb (mem_leading hl hl')
      have hb₂ := hb (mem_leading hl' hl)
      have hb₃ := hb (mem_leading hl' hl')
      have hc₂ := h (mem_leading hk hl')
      have hc₃ := h (mem_leading hk' hl')
      simp only [solveBlock, if_pos hdk₂, if_pos hdl₂, system22, ha₀, ha₁, ha₂, ha₃, hb₀, hb₁, hb₂,
        hb₃, hc₀, hc₁, hc₂, hc₃]
      exact eqOn_update (eqOn_update (eqOn_update (eqOn_update h _ rfl) _ rfl) _ rfl) _ rfl
    · simp only [solveBlock, if_pos hdk₂, if_neg hdl₂, system21, ha₀, ha₁, ha₂, ha₃, hb₀, hc₀, hc₁]
      exact eqOn_update (eqOn_update h _ rfl) _ rfl
  · by_cases hdl₂ : dl = 2
    · have hl' : l + 1 ≤ n := by omega
      have hb₁ := hb (mem_leading hl hl')
      have hb₂ := hb (mem_leading hl' hl)
      have hb₃ := hb (mem_leading hl' hl')
      have hc₂ := h (mem_leading hk hl')
      simp only [solveBlock, if_neg hdk₂, if_pos hdl₂, system12, ha₀, hb₀, hb₁, hb₂, hb₃, hc₀, hc₂]
      exact eqOn_update (eqOn_update h _ rfl) _ rfl
    · simp only [solveBlock, if_neg hdk₂, if_neg hdl₂, ha₀, hb₀, hc₀]
      split_ifs
      · exact ⟨rfl, rfl⟩
      · exact eqOn_update h _ rfl

variable [Sub K] [Mul K]

/-- The blocks of rows. -/
theorem solveRows_alike (ha : EqOn a a' (leading m m)) (hb : EqOn b b' (leading n n))
    (hdl : 0 < dl ∧ l + dl ≤ n + 1) (k : ℕ) (hk : k ≤ m) (c c' : Mat K)
    (h : EqOn c c' (leading m n)) :
    Alike "** SHRSLV:unable to solve" (EqOn · · (leading m n)) (solveRows lu m a b l dl k c)
      (solveRows lu m a' b' l dl k c') := by
  have hdk := rowBlock_bounds a hk
  rw [solveRows.eq_def lu m a b, solveRows.eq_def lu m a' b', ← rowBlock_congr ha hk]
  have hsub := subtractRows_eqOn ha hdk.2 hdl.2 h
  refine (solveBlock_alike lu ha hb hdk hdl hsub).bind ?_
  intro d d' hd
  split_ifs with hmore
  · exact solveRows_alike ha hb hdl _ hmore _ _ hd
  · exact hd
termination_by m + 1 - k

/-- The blocks of columns. -/
theorem solveColumns_alike (ha : EqOn a a' (leading m m)) (hb : EqOn b b' (leading n n))
    (l : ℕ) (hl : l ≤ n) (c c' : Mat K) (h : EqOn c c' (leading m n)) :
    Alike "** SHRSLV:unable to solve" (EqOn · · (leading m n)) (solveColumns lu m n a b l c)
      (solveColumns lu m n a' b' l c') := by
  have hdl := columnBlock_bounds b hl
  rw [solveColumns.eq_def lu m n a b, solveColumns.eq_def lu m n a' b', ← columnBlock_congr hb hl]
  have hsub := subtractColumns_eqOn hb hdl.2 h
  refine (solveRows_alike lu ha hb hdl 0 (Nat.zero_le m) _ _ hsub).bind ?_
  intro d d' hd
  split_ifs with hmore
  · exact solveColumns_alike ha hb _ hmore _ _ hd
  · exact hd
termination_by n + 1 - l

/-- **The transformed equation** is solved from the leading blocks. -/
theorem shrslv_alike (ha : EqOn a a' (leading m m)) (hb : EqOn b b' (leading n n))
    (h : EqOn c c' (leading m n)) :
    Alike "** SHRSLV:unable to solve" (EqOn · · (leading m n)) (shrslv lu m n a b c)
      (shrslv lu m n a' b' c') :=
  solveColumns_alike lu ha hb 0 (Nat.zero_le n) c c' h

end Equation

/-! ### The solver -/

/-- The arrays of two calls of `bs_solve` agree on the leading cells, and their results on `S`. -/
structure SameArrays (m n : ℕ) (S : Set (ℕ × ℕ)) (s t : Arrays K) : Prop where
  a : EqOn s.a t.a (leading m m)
  b : EqOn s.b t.b (leading n n)
  u : EqOn s.u t.u (leading m m)
  v : EqOn s.v t.v (leading n n)
  c : EqOn s.c t.c (leading m n)
  rslt : EqOn s.rslt t.rslt S

section Products

variable {m n : ℕ} {S : Set (ℕ × ℕ)} {s t : Arrays K}

theorem SameArrays.setA (h : SameArrays m n S s t) (x : ℕ × ℕ) {v w : K} (hvw : v = w) :
    SameArrays m n S { s with a := update s.a x v } { t with a := update t.a x w } :=
  ⟨eqOn_update h.a x hvw, h.b, h.u, h.v, h.c, h.rslt⟩

theorem SameArrays.setB (h : SameArrays m n S s t) (x : ℕ × ℕ) {v w : K} (hvw : v = w) :
    SameArrays m n S { s with b := update s.b x v } { t with b := update t.b x w } :=
  ⟨h.a, eqOn_update h.b x hvw, h.u, h.v, h.c, h.rslt⟩

theorem SameArrays.setRslt (h : SameArrays m n S s t) (x : ℕ × ℕ) {v w : K} (hvw : v = w) :
    SameArrays m n (insert x S) { s with rslt := update s.rslt x v }
      { t with rslt := update t.rslt x w } := by
  refine ⟨h.a, h.b, h.u, h.v, h.c, fun y hy => ?_⟩
  rcases hy with rfl | hy
  · simp only [update_self, hvw]
  · exact eqOn_update h.rslt x hvw hy

theorem SameArrays.mono (h : SameArrays m n S s t) {S' : Set (ℕ × ℕ)} (hS : S' ⊆ S) :
    SameArrays m n S' s t := ⟨h.a, h.b, h.u, h.v, h.c, h.rslt.mono hS⟩

/-- The result of one row or column, copied to the cells `pos`. -/
theorem SameArrays.copy (h : SameArrays m n S s t) {p : ℕ} (pos : ℕ → ℕ × ℕ)
    (get : ℕ → Arrays K → K) (hget : ∀ i s r, get i { s with rslt := r } = get i s)
    (hvals : ∀ i ≤ p, get i s = get i t) :
    SameArrays m n (S ∪ pos '' Iic p)
      (forUpTo 0 p s fun i s => { s with rslt := update s.rslt (pos i) (get i s) })
      (forUpTo 0 p t fun i t => { t with rslt := update t.rslt (pos i) (get i t) }) := by
  have hloop : SameArrays m n (S ∪ pos '' Iio (p + 1))
        (forUpTo 0 p s fun i s => { s with rslt := update s.rslt (pos i) (get i s) })
        (forUpTo 0 p t fun i t => { t with rslt := update t.rslt (pos i) (get i t) }) ∧
      ∀ i ≤ p, get i (forUpTo 0 p s fun i s => { s with rslt := update s.rslt (pos i) (get i s) }) =
        get i (forUpTo 0 p t fun i t => { t with rslt := update t.rslt (pos i) (get i t) }) := by
    refine forBelow_rel_at (Nat.zero_le _) (fun i s t => SameArrays m n (S ∪ pos '' Iio i) s t ∧
      ∀ i ≤ p, get i s = get i t) ⟨h.mono (by simp), hvals⟩ ?_
    rintro i - hi s t ⟨h, hvals⟩
    refine ⟨(h.setRslt (pos i) (hvals i (by omega))).mono ?_, fun i' hi' => ?_⟩
    · rintro x (hx | ⟨i', hi', rfl⟩)
      · exact .inr (.inl hx)
      · rcases Nat.lt_succ_iff_lt_or_eq.1 hi' with hlt | rfl
        · exact .inr (.inr ⟨i', hlt, rfl⟩)
        · exact .inl rfl
    · exact (hget i' s _).trans ((hvals i' hi').trans (hget i' t _).symm)
  refine hloop.1.mono ?_
  intro x hx
  rcases hx with hx | ⟨i, hi, rfl⟩
  · exact .inl hx
  · exact .inr ⟨i, Nat.lt_succ_of_le hi, rfl⟩

variable [Zero K] {p : ℕ}

/-- Sums that are accumulated in the cells that `get` reads and `set` writes. -/
theorem accumulate_rel {σ : Type*} (R : σ → σ → Prop) (get : ℕ → σ → K) (set : ℕ → K → σ → σ)
    {add : ℕ → ℕ → σ → K → K} (hset : ∀ i v s t, R s t → R (set i v s) (set i v t))
    (hget : ∀ i i' v s, get i' (set i v s) = if i' = i then v else get i' s)
    (hadd : ∀ i ≤ p, ∀ k ≤ p, ∀ s t, R s t → add i k s = add i k t) {s t : σ} (h : R s t) :
    R (forUpTo 0 p s fun i s => forUpTo 0 p (set i 0 s) fun k s => set i (add i k s (get i s)) s)
        (forUpTo 0 p t fun i t => forUpTo 0 p (set i 0 t) fun k t => set i (add i k t (get i t)) t) ∧
      ∀ i < p + 1, get i (forUpTo 0 p s fun i s =>
          forUpTo 0 p (set i 0 s) fun k s => set i (add i k s (get i s)) s) =
        get i (forUpTo 0 p t fun i t =>
          forUpTo 0 p (set i 0 t) fun k t => set i (add i k t (get i t)) t) := by
  refine forBelow_rel_at (Nat.zero_le _) (fun i s t => R s t ∧ ∀ i' < i, get i' s = get i' t)
    ⟨h, by simp⟩ ?_
  rintro i - hi s t ⟨h, hvals⟩
  -- the entries before stay as they are, and the one in work is the same
  have hstep : ∀ v s t, R s t → (∀ i' < i, get i' s = get i' t) →
      R (set i v s) (set i v t) ∧ ∀ i' < i + 1, get i' (set i v s) = get i' (set i v t) := by
    intro v s t h hvals
    refine ⟨hset i v s t h, fun i' hi' => ?_⟩
    rw [hget, hget]
    exact ite_congr rfl (fun _ => rfl) fun hne => hvals i' (by omega)
  refine forBelow_rel (fun s t => R s t ∧ ∀ i' < i + 1, get i' s = get i' t) (hstep 0 s t h hvals) ?_
  rintro k - hk s t ⟨h, hvals⟩
  rw [hadd i (by omega) k (by omega) s t h, hvals i (by omega)]
  exact hstep _ s t h fun i' hi' => hvals i' (by omega)

/-- A column of the result. -/
theorem throughColumn_same {add : ℕ → ℕ → Arrays K → K → K} (j : ℕ)
    (hadd : ∀ i ≤ m, ∀ k ≤ m, ∀ s t, SameArrays m n S s t → add i k s = add i k t)
    (h : SameArrays m n S s t) :
    SameArrays m n (S ∪ (·, j) '' Iic m) (throughColumn m j add s) (throughColumn m j add t) := by
  obtain ⟨hsame, hvals⟩ := accumulate_rel (SameArrays m n S) (fun i s => s.a (i, m + 1))
    (fun i v s => { s with a := update s.a (i, m + 1) v })
    (fun i v s t h => h.setA _ rfl) (fun i i' v s => by simp [update_apply]) hadd h
  exact hsame.copy (·, j) (fun i s => s.a (i, m + 1)) (fun _ _ _ => rfl) fun i hi =>
    hvals i (Nat.lt_succ_of_le hi)

/-- A row of the result. -/
theorem throughRow_same {add : ℕ → ℕ → Arrays K → K → K} (i : ℕ)
    (hadd : ∀ j ≤ n, ∀ k ≤ n, ∀ s t, SameArrays m n S s t → add j k s = add j k t)
    (h : SameArrays m n S s t) :
    SameArrays m n (S ∪ (i, ·) '' Iic n) (throughRow n i add s) (throughRow n i add t) := by
  obtain ⟨hsame, hvals⟩ := accumulate_rel (SameArrays m n S) (fun j s => s.b (n + 1, j))
    (fun j v s => { s with b := update s.b (n + 1, j) v })
    (fun j v s t h => h.setB _ rfl) (fun j j' v s => by simp [update_apply]) hadd h
  exact hsame.copy (i, ·) (fun j s => s.b (n + 1, j)) (fun _ _ _ => rfl) fun j hj =>
    hvals j (Nat.lt_succ_of_le hj)

end Products

section Solve

variable [Zero K] {m n : ℕ} {s t : Arrays K}

/-- All columns of the result, whatever was in it. -/
theorem columns_same {S : Set (ℕ × ℕ)} {f : ℕ → ℕ → ℕ → Arrays K → K → K}
    (hadd : ∀ j ≤ n, ∀ i ≤ m, ∀ k ≤ m, ∀ s t, SameArrays m n S s t → f j i k s = f j i k t)
    (h : SameArrays m n S s t) :
    SameArrays m n (S ∪ leading m n) (forUpTo 0 n s fun j s => throughColumn m j (f j) s)
      (forUpTo 0 n t fun j t => throughColumn m j (f j) t) := by
  have hloop : SameArrays m n (S ∪ {x | x.1 ≤ m ∧ x.2 < n + 1})
      (forUpTo 0 n s fun j s => throughColumn m j (f j) s)
      (forUpTo 0 n t fun j t => throughColumn m j (f j) t) := by
    refine forBelow_rel_at (Nat.zero_le _)
      (fun j s t => SameArrays m n (S ∪ {x | x.1 ≤ m ∧ x.2 < j}) s t) (h.mono (by simp)) ?_
    intro j _ hj s t h
    have hcolumn := throughColumn_same j (fun i hi k hk s t h =>
      hadd j (by omega) i hi k hk s t (h.mono subset_union_left)) h
    refine hcolumn.mono ?_
    rintro ⟨i, j'⟩ (hx | ⟨hi, hj'⟩)
    · exact .inl (.inl hx)
    · rcases Nat.lt_succ_iff_lt_or_eq.1 hj' with hlt | rfl
      · exact .inl (.inr ⟨hi, hlt⟩)
      · exact .inr ⟨i, hi, rfl⟩
  refine hloop.mono (union_subset_union_right S fun x hx => ?_)
  exact ⟨hx.1, Nat.lt_succ_of_le hx.2⟩

/-- All rows of the result. -/
theorem rows_same {add : ℕ → ℕ → ℕ → Arrays K → K → K}
    (hadd : ∀ i ≤ m, ∀ j ≤ n, ∀ k ≤ n, ∀ s t, SameArrays m n (leading m n) s t →
      add i j k s = add i j k t) (h : SameArrays m n (leading m n) s t) :
    SameArrays m n (leading m n) (forUpTo 0 m s fun i s => throughRow n i (add i) s)
      (forUpTo 0 m t fun i t => throughRow n i (add i) t) := by
  refine forBelow_rel (SameArrays m n (leading m n)) h ?_
  intro i _ hi s t h
  exact (throughRow_same i (hadd i (by omega)) h).mono subset_union_left

variable [Add K] [Mul K]

/-- The solution in the old coordinates. -/
theorem transformBack_same (h : SameArrays m n (leading m n) s t) :
    SameArrays m n (leading m n) (transformBack m n s) (transformBack m n t) := by
  have hcolumns := columns_same (f := fun j i k s sum => sum + s.u (i, k) * s.rslt (k, j))
    (fun j hj i hi k hk s t h => by
      rw [h.u (mem_leading hi hk), h.rslt (mem_leading hk hj)]) h
  refine rows_same (fun i hi j hj k hk s t h => ?_) (hcolumns.mono subset_union_right)
  rw [h.rslt (mem_leading hi hk), h.v (mem_leading hj hk)]

variable [Sub K]

/-- The right-hand side in the new coordinates. -/
theorem transformRhs_same (h : SameArrays m n ∅ s t) :
    SameArrays m n (leading m n) (transformRhs m n s) (transformRhs m n t) := by
  have hcolumns := columns_same (f := fun j i k s sum => sum - s.u (k, i) * s.c (k, j))
    (fun j hj i hi k hk s t h => by
      rw [h.u (mem_leading hk hi), h.c (mem_leading hk hj)]) h
  refine rows_same (fun i hi j hj k hk s t h => ?_) (hcolumns.mono subset_union_right)
  rw [h.rslt (mem_leading hi hk), h.v (mem_leading hk hj)]

variable [Div K] [ZeroTest K] (lu : EigenLU K)

/-- **The solver reads the leading blocks**, and the result only after it has written it. -/
theorem bsSolve_alike (h : SameArrays m n ∅ s t) :
    Alike "** SHRSLV:unable to solve" (SameArrays m n (leading m n)) (bsSolve lu m n s)
      (bsSolve lu m n t) := by
  have hrhs := transformRhs_same h
  refine (shrslv_alike lu hrhs.a hrhs.b hrhs.rslt).bind ?_
  intro r r' hr
  exact transformBack_same ⟨hrhs.a, hrhs.b, hrhs.u, hrhs.v, hrhs.c, hr⟩

end Solve

/-! ### The two paths -/

section Square

variable [Zero K] [One K] [Add K] [Sub K] [Mul K] [Div K] [Neg K] [Scalar K] {m : ℕ}

/-- The path with one matrix and the path with two copies of it, on `A` and the right-hand side `C`:
both throw in `schur`, or both throw in `shrslv`, or both return with the same result on rows and
columns `0, …, m`.  `U`, `U'`, `V'`, `R` and `R'` are what was in the arrays of the orthogonal
matrices and of the results. -/
def PathsAgree (lu : EigenLU K) (eps : K) (m : ℕ) (A C U U' V' R R' : Mat K) : Prop :=
  initAu eps m A U = .error "** SCHUR FAILED!" ∧
      initAbuv eps m m A A U' V' = .error "** SCHUR FAILED!" ∨
    ∃ a u a' b' u' v', initAu eps m A U = .ok (a, u) ∧
      initAbuv eps m m A A U' V' = .ok (a', b', u', v') ∧
      (bsSolveSquare lu m a u C R = .error "** SHRSLV:unable to solve" ∧
          bsSolve lu m m ⟨a', b', u', v', C, R'⟩ = .error "** SHRSLV:unable to solve" ∨
        ∃ a₁ r s, bsSolveSquare lu m a u C R = .ok (a₁, r) ∧
          bsSolve lu m m ⟨a', b', u', v', C, R'⟩ = .ok s ∧
          ∀ i ≤ m, ∀ j ≤ m, r (i, j) = s.rslt (i, j))

/-- **The two paths agree**, over any arithmetic and with any LU solver. -/
theorem square_agrees (lu : EigenLU K) (eps : K) (hm : 2 ≤ m) (A C U U' V' R R' : Mat K) :
    PathsAgree lu eps m A C U U' V' R R' := by
  rcases (initAbuv_alike eps hm A U U' V').cases with ⟨hx, hy⟩ |
    ⟨⟨a, u⟩, ⟨a', b', u', v'⟩, hx, hy, ha, hb, hu, hv⟩
  · exact .inl ⟨hx, hy⟩
  · obtain rfl : a' = transposeInPlace m a := ha
    obtain rfl : b' = a := hb
    refine .inr ⟨b', u, _, b', u', v', hx, hy, ?_⟩
    have hsame : SameArrays m m ∅ ⟨fun x => b' (x.2, x.1), b', u, u, C, R⟩
        ⟨transposeInPlace m b', b', u', v', C, R'⟩ := by
      refine ⟨fun x hx => ?_, fun _ _ => rfl, hu, hv, fun _ _ => rfl, fun _ h => h.elim⟩
      exact ((transposeInPlace_apply m b' x).trans (if_pos hx)).symm
    rcases (bsSolve_alike lu hsame).cases with ⟨hs, ht⟩ | ⟨s, t, hs, ht, hst⟩
    · refine .inl ⟨?_, ht⟩
      rw [bsSolveSquare, hs]
      rfl
    · refine .inr ⟨s.b, s.rslt, t, ?_, ht, fun i hi j hj => hst.rslt (mem_leading hi hj)⟩
      rw [bsSolveSquare, hs]
      rfl

end Square

/-- The two paths on the identity matrix. -/
theorem square_agrees_identity : PathsAgree exactLU 0 2 (identity ℝ) (identity ℝ) (fun _ => 1)
    (fun _ => 2) (fun _ => 3) (fun _ => 4) (fun _ => 5) :=
  square_agrees exactLU 0 le_rfl _ _ _ _ _ _ _

end Chebyshev.BS
