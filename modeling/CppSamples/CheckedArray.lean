/-
**Programs on arrays with every access checked.**

A routine that works on arrays and computes its indices with unsigned integers can go wrong in two
ways that its result does not show: an access outside an array, and an index or a counter that is
taken below zero.  Here an array knows its size, an access and an unsigned difference fail when they
must not happen, and the loops stop at the first failure.

A checked routine is compared with the routine without checks: under bounds on the sizes it returns
what that one returns.  The rules of this module do it access by access and loop by loop.

Nothing here mentions a particular program.

Main definitions:

* `CheckedArray.Checked`, `CheckedArray.Safe` — a run that may stop, and one that does not stop by a
  failed access or difference;
* `CheckedArray.sub`, `CheckedArray.div` — an unsigned difference and a quotient;
* `CheckedArray.Vec`, `CheckedArray.Grid` — arrays of one and two dimensions with their sizes;
* `CheckedArray.forBelowM` and the other loops.

Main results:

* `CheckedArray.forBelowM_eq_inv`, `CheckedArray.forBelowM_eq` — **a checked loop computes the loop
  without checks** when its passes do.
-/

import CppSamples.CountedLoop

set_option relaxedAutoImplicit false
set_option autoImplicit false

namespace CheckedArray

open CountedLoop Function

variable {α σ τ : Type}

/-- Why a run stops early. -/
inductive Stop
  /-- an access outside an array -/
  | outOfBounds
  /-- an unsigned difference below zero -/
  | belowZero
  /-- an exception of the program -/
  | thrown (msg : String)
  deriving DecidableEq, Repr

/-- A run that may stop early. -/
abbrev Checked := Except Stop

/-- No access and no difference has failed. -/
def Safe (x : Checked α) : Prop := x ≠ .error .outOfBounds ∧ x ≠ .error .belowZero

/-- A run of a program without checks, which may throw. -/
def unchecked : Except String α → Checked α
  | .ok a => .ok a
  | .error msg => .error (.thrown msg)

@[simp] theorem ok_bind (a : α) (f : α → Checked σ) : ((.ok a : Checked α) >>= f) = f a := rfl

@[simp] theorem pure_eq_ok (a : α) : (pure a : Checked α) = .ok a := rfl

/-- One step after the other. -/
theorem bind_eq {x : Checked α} {a : α} {f : α → Checked σ} {y : Checked σ} (hx : x = .ok a)
    (hf : f a = y) : (x >>= f) = y := by
  rw [hx]
  exact hf

/-- A run that ends has made its first step. -/
theorem of_bind_ok {ε : Type} {x : Except ε α} {f : α → Except ε σ} {b : σ}
    (h : (x >>= f) = .ok b) : ∃ a, x = .ok a ∧ f a = .ok b := by
  cases x with
  | error e => cases h
  | ok a => exact ⟨a, rfl, h⟩

/-- A step that is computed without checks, and may throw, before another such step. -/
theorem bind_unchecked {α' σ' : Type} {x : Checked σ} {y : Except String α} {f : σ → Checked σ'}
    {g : α → Except String α'} (sized : α → σ) (sized' : α' → σ') (hx : x = sized <$> unchecked y)
    (hf : ∀ a, f (sized a) = sized' <$> unchecked (g a)) :
    (x >>= f) = sized' <$> unchecked (y >>= g) := by
  rw [hx]
  cases y with
  | error msg => rfl
  | ok a => exact hf a

/-- What is computed without checks is safe. -/
theorem safe_map_unchecked (f : α → σ) (x : Except String α) : Safe (f <$> unchecked x) := by
  cases x with
  | error msg =>
      refine ⟨?_, ?_⟩
      all_goals
        intro h
        cases h
  | ok a =>
      refine ⟨?_, ?_⟩
      all_goals
        intro h
        cases h

/-! ### Indices -/

/-- An unsigned difference. -/
def sub (x y : ℕ) : Checked ℕ := if y ≤ x then .ok (x - y) else .error .belowZero

theorem sub_ok {x y : ℕ} (h : y ≤ x) : sub x y = .ok (x - y) := if_pos h

/-! ### Quotients -/

/-- A quotient; a zero divisor stops the run. -/
def div [Zero α] [Div α] [DecidableEq α] (x y : α) : Checked α :=
  if y = 0 then .error (.thrown "division by zero") else .ok (x / y)

theorem div_ok [Zero α] [Div α] [DecidableEq α] {y : α} (h : y ≠ 0) (x : α) :
    div x y = .ok (x / y) := if_neg h

/-! ### Arrays -/

/-- A vector. -/
structure Vec (α : Type) where
  size : ℕ
  cell : ℕ → α

namespace Vec

/-- `v[i]` -/
def get (v : Vec α) (i : ℕ) : Checked α :=
  if i < v.size then .ok (v.cell i) else .error .outOfBounds

/-- `v[i] = x` -/
def set (v : Vec α) (i : ℕ) (x : α) : Checked (Vec α) :=
  if i < v.size then .ok { v with cell := update v.cell i x } else .error .outOfBounds

variable {n i : ℕ} (a : ℕ → α) (x : α)

theorem get_ok (h : i < n) : (⟨n, a⟩ : Vec α).get i = .ok (a i) := if_pos h

theorem set_ok (h : i < n) : (⟨n, a⟩ : Vec α).set i x = .ok ⟨n, update a i x⟩ := if_pos h

end Vec

/-- An array of two dimensions. -/
structure Grid (α : Type) where
  rows : ℕ
  cols : ℕ
  cell : ℕ × ℕ → α

namespace Grid

/-- `a(i, j)` -/
def get (a : Grid α) (i j : ℕ) : Checked α :=
  if i < a.rows ∧ j < a.cols then .ok (a.cell (i, j)) else .error .outOfBounds

/-- `a(i, j) = x` -/
def set (a : Grid α) (i j : ℕ) (x : α) : Checked (Grid α) :=
  if i < a.rows ∧ j < a.cols then .ok { a with cell := update a.cell (i, j) x }
  else .error .outOfBounds

/-- `a.row(i)` -/
def row (a : Grid α) (i : ℕ) : Checked (Vec α) :=
  if i < a.rows then .ok ⟨a.cols, fun j => a.cell (i, j)⟩ else .error .outOfBounds

/-- `a.row(i) = v` -/
def setRow (a : Grid α) (i : ℕ) (v : Vec α) : Checked (Grid α) :=
  if i < a.rows ∧ v.size = a.cols then
    .ok { a with cell := fun x => if x.1 = i ∧ x.2 < a.cols then v.cell x.2 else a.cell x }
  else .error .outOfBounds

/-- `a.col(j)` -/
def col (a : Grid α) (j : ℕ) : Checked (Vec α) :=
  if j < a.cols then .ok ⟨a.rows, fun i => a.cell (i, j)⟩ else .error .outOfBounds

/-- `a.col(j) = v` -/
def setCol (a : Grid α) (j : ℕ) (v : Vec α) : Checked (Grid α) :=
  if j < a.cols ∧ v.size = a.rows then
    .ok { a with cell := fun x => if x.2 = j ∧ x.1 < a.rows then v.cell x.1 else a.cell x }
  else .error .outOfBounds

/-- The transposed array. -/
def transpose (a : Grid α) : Grid α := ⟨a.cols, a.rows, fun x => a.cell (x.2, x.1)⟩

variable {r c i j : ℕ} (a : ℕ × ℕ → α) (x : α)

theorem get_ok (hi : i < r) (hj : j < c) : (⟨r, c, a⟩ : Grid α).get i j = .ok (a (i, j)) :=
  if_pos ⟨hi, hj⟩

theorem set_ok (hi : i < r) (hj : j < c) :
    (⟨r, c, a⟩ : Grid α).set i j x = .ok ⟨r, c, update a (i, j) x⟩ := if_pos ⟨hi, hj⟩

theorem row_ok (hi : i < r) : (⟨r, c, a⟩ : Grid α).row i = .ok ⟨c, fun j => a (i, j)⟩ := if_pos hi

theorem setRow_ok (hi : i < r) (v : ℕ → α) : (⟨r, c, a⟩ : Grid α).setRow i ⟨c, v⟩ =
    .ok ⟨r, c, fun x => if x.1 = i ∧ x.2 < c then v x.2 else a x⟩ := if_pos ⟨hi, rfl⟩

theorem col_ok (hj : j < c) : (⟨r, c, a⟩ : Grid α).col j = .ok ⟨r, fun i => a (i, j)⟩ := if_pos hj

theorem setCol_ok (hj : j < c) (v : ℕ → α) : (⟨r, c, a⟩ : Grid α).setCol j ⟨r, v⟩ =
    .ok ⟨r, c, fun x => if x.2 = j ∧ x.1 < r then v x.1 else a x⟩ := if_pos ⟨hj, rfl⟩

theorem row_transpose (a : Grid α) (i : ℕ) : a.transpose.row i = a.col i := rfl

/-- A row of the transposed array is written as a column. -/
theorem setRow_transpose (a : Grid α) (i : ℕ) (v : Vec α) :
    a.transpose.setRow i v = transpose <$> a.setCol i v := by
  unfold setRow setCol
  by_cases h : i < a.cols ∧ v.size = a.rows
  · rw [if_pos h]
    exact if_pos h
  · rw [if_neg h]
    exact if_neg h

end Grid

/-! ### Loops -/

/-- The passes `lo, …, lo + n - 1` of the body `f`, up to the first one that stops. -/
def passesM (f : ℕ → σ → Checked σ) (lo : ℕ) : ℕ → σ → Checked σ
  | 0, s => .ok s
  | n + 1, s => passesM f lo n s >>= f (lo + n)

/-- `for (i = lo; i < hi; ++i)`. -/
def forBelowM (lo hi : ℕ) (s : σ) (f : ℕ → σ → Checked σ) : Checked σ := passesM f lo (hi - lo) s

/-- `for (i = lo; i <= hi; ++i)`. -/
def forUpToM (lo hi : ℕ) (s : σ) (f : ℕ → σ → Checked σ) : Checked σ := forBelowM lo (hi + 1) s f

/-- `for (i = lo; i < hi; i += step)`. -/
def forBelowByM (step lo hi : ℕ) (s : σ) (f : ℕ → σ → Checked σ) : Checked σ :=
  forBelowM 0 (steps step lo hi) s fun t => f (lo + step * t)

/-- `for (i = lo; i <= hi; i += step)`. -/
def forUpToByM (step lo hi : ℕ) (s : σ) (f : ℕ → σ → Checked σ) : Checked σ :=
  forBelowByM step lo (hi + 1) s f

/-- `for (i = hi; i >= lo; --i)`, over counters that may reach `-1`. -/
def forDownToM (hi lo : ℕ) (s : σ) (f : ℕ → σ → Checked σ) : Checked σ :=
  forBelowM 0 (hi + 1 - lo) s fun t => f (hi - t)

section Loops

variable {lo hi : ℕ} {t : τ} {f : ℕ → σ → Checked σ} {g : ℕ → τ → τ}

/-- **A checked loop**, whose states are those of a loop without checks with their sizes: it
computes what that loop computes, if every pass does from the states that the invariant allows. -/
theorem forBelowM_eq_inv (sized : τ → σ) (I : ℕ → τ → Prop) (h₀ : I lo t)
    (hstep : ∀ i, lo ≤ i → i < hi → ∀ t, I i t →
      f i (sized t) = .ok (sized (g i t)) ∧ I (i + 1) (g i t)) :
    forBelowM lo hi (sized t) f = .ok (sized (forBelow lo hi t g)) := by
  have hpasses : ∀ n, lo + n ≤ max lo hi →
      passesM f lo n (sized t) = .ok (sized (passes g lo n t)) ∧ I (lo + n) (passes g lo n t) := by
    intro n
    induction n with
    | zero => exact fun _ => ⟨rfl, h₀⟩
    | succ n ih =>
        intro hn
        obtain ⟨hrun, hinv⟩ := ih (by omega)
        rw [passesM, hrun]
        exact hstep (lo + n) (by omega) (by omega) _ hinv
  exact (hpasses (hi - lo) (by omega)).1

/-- **A checked loop** without an invariant. -/
theorem forBelowM_eq (sized : τ → σ)
    (hstep : ∀ i, lo ≤ i → i < hi → ∀ t, f i (sized t) = .ok (sized (g i t))) :
    forBelowM lo hi (sized t) f = .ok (sized (forBelow lo hi t g)) :=
  forBelowM_eq_inv sized (fun _ _ => True) trivial fun i hlo hhi t _ => ⟨hstep i hlo hhi t, trivial⟩

theorem forUpToM_eq (sized : τ → σ)
    (hstep : ∀ i, lo ≤ i → i ≤ hi → ∀ t, f i (sized t) = .ok (sized (g i t))) :
    forUpToM lo hi (sized t) f = .ok (sized (forUpTo lo hi t g)) :=
  forBelowM_eq sized fun i hlo hhi t => hstep i hlo (Nat.le_of_lt_succ hhi) t

theorem forBelowByM_eq_inv {step : ℕ} (sized : τ → σ) (hpos : 0 < step) (I : ℕ → τ → Prop)
    (h₀ : I 0 t)
    (hstep : ∀ k, lo + step * k < hi → ∀ t, I k t →
      f (lo + step * k) (sized t) = .ok (sized (g (lo + step * k) t)) ∧
        I (k + 1) (g (lo + step * k) t)) :
    forBelowByM step lo hi (sized t) f = .ok (sized (forBelowBy step lo hi t g)) :=
  forBelowM_eq_inv sized I h₀ fun k _ hk t ht => hstep k ((lt_steps hpos).1 hk) t ht

theorem forBelowByM_eq {step : ℕ} (sized : τ → σ) (hpos : 0 < step)
    (hstep : ∀ i, lo ≤ i → i < hi → step ∣ i - lo → ∀ t, f i (sized t) = .ok (sized (g i t))) :
    forBelowByM step lo hi (sized t) f = .ok (sized (forBelowBy step lo hi t g)) := by
  refine forBelowByM_eq_inv sized hpos (fun _ _ => True) trivial fun k hk t _ => ⟨?_, trivial⟩
  have hdvd : step ∣ lo + step * k - lo := by
    rw [Nat.add_sub_cancel_left]
    exact dvd_mul_right step k
  exact hstep _ (Nat.le_add_right _ _) hk hdvd t

theorem forUpToByM_eq {step : ℕ} (sized : τ → σ) (hpos : 0 < step)
    (hstep : ∀ i, lo ≤ i → i ≤ hi → step ∣ i - lo → ∀ t, f i (sized t) = .ok (sized (g i t))) :
    forUpToByM step lo hi (sized t) f = .ok (sized (forUpToBy step lo hi t g)) :=
  forBelowByM_eq sized hpos fun i hlo hhi => hstep i hlo (Nat.le_of_lt_succ hhi)

theorem forDownToM_eq (sized : τ → σ)
    (hstep : ∀ i, lo ≤ i → i ≤ hi → ∀ t, f i (sized t) = .ok (sized (g i t))) :
    forDownToM hi lo (sized t) f = .ok (sized (forDownTo hi lo t g)) :=
  forBelowM_eq sized fun k _ hk t => hstep (hi - k) (by omega) (by omega) t

/-- **Two loops in step**: where every pass of one is a pass of the other on related states, so are
the loops, also when they stop. -/
theorem forUpToM_map (related : τ → σ) {g : ℕ → τ → Checked τ}
    (hstep : ∀ i t, f i (related t) = related <$> g i t) :
    forUpToM lo hi (related t) f = related <$> forUpToM lo hi t g := by
  have hpasses : ∀ n, passesM f lo n (related t) = related <$> passesM g lo n t := by
    intro n
    induction n with
    | zero => rfl
    | succ n ih =>
        rw [passesM, passesM, ih]
        cases passesM g lo n t with
        | error e => rfl
        | ok t => exact hstep (lo + n) t
  exact hpasses _

end Loops

end CheckedArray
