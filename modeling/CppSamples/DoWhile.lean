/-
**Loops with the test at the end.**

A C++ `do { … } while (…);` need not end, so it is run here with a bound on the number of passes;
without a result the bound was too small.  A loop of which some pass fails the test has one result
for every bound that is large enough.

Nothing here mentions a particular program.

Main definitions:

* `DoWhile.doWhile` — the loop.

Main results:

* `DoWhile.doWhile_eq_some_iff` — the result is the state after the first pass that fails the test;
* `DoWhile.exists_doWhile` — **a loop ends when some pass fails the test**.
-/

import Mathlib.Logic.Function.Iterate
import Mathlib.Order.Nat

set_option relaxedAutoImplicit false
set_option autoImplicit false

namespace DoWhile

variable {σ : Type*} (body : σ → σ) (test : σ → Bool)

/-- `do { body } while (test);`, of which at most the given number of passes is made. -/
def doWhile : ℕ → σ → Option σ
  | 0, _ => none
  | n + 1, s => if test (body s) then doWhile n (body s) else some (body s)

variable {body test}

/-- **The result is the state after the first pass that fails the test.** -/
theorem doWhile_eq_some_iff {fuel : ℕ} {s r : σ} :
    doWhile body test fuel s = some r ↔
      ∃ n < fuel, body^[n + 1] s = r ∧ test r = false ∧ ∀ m < n, test (body^[m + 1] s) = true := by
  induction fuel generalizing s with
  | zero => simp [doWhile]
  | succ fuel ih =>
    unfold doWhile
    split
    · -- the test holds, so the first failing pass comes later
      rename_i hcont
      rw [ih]
      constructor
      · rintro ⟨n, hn, hr, hend, hbefore⟩
        refine ⟨n + 1, by omega, hr, hend, fun m hm => ?_⟩
        cases m with
        | zero => exact hcont
        | succ m => exact hbefore m (by omega)
      · rintro ⟨n, hn, hr, hend, hbefore⟩
        cases n with
        | zero =>
          rw [← hr, Function.iterate_one] at hend
          exact absurd hcont (by simp [hend])
        | succ n => exact ⟨n, by omega, hr, hend, fun m hm => hbefore (m + 1) (by omega)⟩
    · rename_i hstop
      constructor
      · rintro ⟨rfl⟩
        exact ⟨0, by omega, rfl, by simpa using hstop, fun m hm => absurd hm (Nat.not_lt_zero m)⟩
      · rintro ⟨n, -, hr, -, hbefore⟩
        cases n with
        | zero => exact congrArg some hr
        | succ n => exact absurd (hbefore 0 (by omega)) hstop

/-- **A loop ends when some pass fails the test.** -/
theorem exists_doWhile {s : σ} (h : ∃ n, test (body^[n + 1] s) = false) :
    ∃ n r, ∀ fuel > n, doWhile body test fuel s = some r := by
  -- the first pass that fails
  have hfirst := Nat.find_spec h
  refine ⟨Nat.find h, body^[Nat.find h + 1] s, fun fuel hfuel => ?_⟩
  refine doWhile_eq_some_iff.mpr ⟨Nat.find h, hfuel, rfl, hfirst, fun m hm => ?_⟩
  simpa using Nat.find_min h hm

end DoWhile
