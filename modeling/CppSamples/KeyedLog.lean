/-
**A store with keys, changed event by event.**

Every event has a key, changes what the store has under it, and may fail.  A log of events is
replayed in its order.  What the store has under one key afterwards depends on the events with this
key alone: the log can be taken apart by the keys.

Nothing here mentions a particular program.

Main definitions:

* `KeyedLog.replay` — the store after a log of events.

Main results:

* `KeyedLog.replay_eq_ok_iff` — **the log can be taken apart by the keys**.
-/

import Mathlib.Logic.Function.Basic
import Mathlib.Tactic.Common

set_option relaxedAutoImplicit false
set_option autoImplicit false

namespace KeyedLog

open Function

variable {K σ ε E : Type} [DecidableEq K]

/-! ### Computations that may fail -/

theorem bind_eq_ok {α β : Type} {x : Except E α} {f : α → Except E β} {b : β} :
    x.bind f = .ok b ↔ ∃ a, x = .ok a ∧ f a = .ok b := by
  cases x with
  | error e =>
      constructor
      · intro h
        cases h
      · rintro ⟨a, h, -⟩
        cases h
  | ok a =>
      constructor
      · intro h
        exact ⟨a, rfl, h⟩
      · rintro ⟨a', h, hf⟩
        cases h
        exact hf

theorem map_eq_ok {α β : Type} {x : Except E α} {f : α → β} {b : β} :
    x.map f = .ok b ↔ ∃ a, x = .ok a ∧ f a = b := by
  cases x with
  | error e =>
      constructor
      · intro h
        cases h
      · rintro ⟨a, h, -⟩
        cases h
  | ok a =>
      constructor
      · intro h
        exact ⟨a, rfl, Except.ok.inj h⟩
      · rintro ⟨a', h, hf⟩
        cases h
        exact congrArg Except.ok hf

/-! ### Logs -/

section

variable (key : ε → K) (act : ε → σ → Except E σ)

/-- One event. -/
def applyAt (m : K → σ) (e : ε) : Except E (K → σ) :=
  (act e (m (key e))).map fun s => update m (key e) s

/-- The store after a log of events. -/
def replay (log : List ε) (m : K → σ) : Except E (K → σ) := log.foldlM (applyAt key act) m

/-- What a log does under one key. -/
def replayAt (log : List ε) (k : K) (s : σ) : Except E σ :=
  (log.filter fun e => key e = k).foldlM (fun s e => act e s) s

end

variable {key : ε → K} {act : ε → σ → Except E σ} {log log' : List ε} {m m' : K → σ} {k : K} {s : σ}

@[simp] theorem replay_nil : replay key act [] m = .ok m := rfl

theorem replay_cons (e : ε) : replay key act (e :: log) m =
    (act e (m (key e))).bind fun s => replay key act log (update m (key e) s) := by
  rw [replay, List.foldlM_cons, applyAt]
  cases act e (m (key e)) <;> rfl

theorem replay_append : replay key act (log ++ log') m =
    (replay key act log m).bind (replay key act log') := by
  rw [replay, List.foldlM_append]
  rfl

@[simp] theorem replayAt_nil : replayAt key act [] k s = .ok s := rfl

theorem replayAt_cons_self (e : ε) : replayAt key act (e :: log) (key e) s =
    (act e s).bind (replayAt key act log (key e)) := by
  rw [replayAt, List.filter_cons_of_pos (by simp), List.foldlM_cons]
  rfl

theorem replayAt_cons_of_ne {e : ε} (h : key e ≠ k) :
    replayAt key act (e :: log) k s = replayAt key act log k s := by
  rw [replayAt, replayAt, List.filter_cons_of_neg (by simpa using h)]

theorem replayAt_append : replayAt key act (log ++ log') k s =
    (replayAt key act log k s).bind (replayAt key act log' k) := by
  rw [replayAt, List.filter_append, List.foldlM_append]
  rfl

/-- **The log can be taken apart by the keys.** -/
theorem replay_eq_ok_iff :
    replay key act log m = .ok m' ↔ ∀ k, replayAt key act log k (m k) = .ok (m' k) := by
  induction log generalizing m with
  | nil =>
      constructor
      · intro h k
        rw [Except.ok.inj h]
        rfl
      · intro h
        exact congrArg Except.ok (funext fun k => Except.ok.inj (h k))
  | cons e log ih =>
      rw [replay_cons]
      cases hact : act e (m (key e)) with
      | error x =>
          constructor
          · intro h
            cases h
          · intro h
            have hkey := h (key e)
            rw [replayAt_cons_self, hact] at hkey
            cases hkey
      | ok s =>
          refine ih.trans (forall_congr' fun k => ?_)
          by_cases hk : key e = k
          · subst hk
            rw [update_self, replayAt_cons_self, hact]
            rfl
          · rw [update_of_ne (Ne.symm hk), replayAt_cons_of_ne hk]

end KeyedLog
