/-
**The bounded buffer class of the thread samples.**

`producer_consumer.cpp` and `SimpleRobotInterface.h` both define a class `Buffer`: a deque behind a
mutex and a condition variable, whose `add` waits for room and whose `remove` waits for an item.
The two classes differ only in the end of the deque that `remove` takes its item from, which is the
parameter `pop` here.

Main definitions:

* `BoundedBuffer.monitor` — the class, as a monitor;
* `BoundedBuffer.added`, `BoundedBuffer.removed` — the items that went in and came out, in order.

Main results, whichever end is popped:

* `BoundedBuffer.length_le_size` — the buffer never holds more than `size_` items;
* `BoundedBuffer.removed_append_perm_added` — no item is lost or duplicated;
* `BoundedBuffer.blocked` — **no deadlock but the intended one**: when every thread still running
  sleeps, all are producers before a full buffer or all are consumers before an empty one.
-/

import CppSamples.Monitor
import Mathlib.Data.List.Perm.Basic
import Mathlib.Order.Nat

set_option relaxedAutoImplicit false
set_option autoImplicit false

namespace BoundedBuffer

open TransitionSystem Monitor
open scoped List

variable {τ T : Type*}

/-- The capacity of both classes. -/
def size_ : ℕ := 128

/-- The calls of a buffer. -/
inductive Call (T : Type*)
  | add (item : T)
  | remove

/-- The class `Buffer` over its deque: `add` returns nothing and `remove` the item it popped. -/
def monitor (pop : ∀ buffer_ : List T, buffer_ ≠ [] → List T × T) :
    Monitor (List T) (Call T) (Option T) where
  guard
    | .add _, buffer_ => buffer_.length < size_
    | .remove, buffer_ => buffer_ ≠ []
  decGuard
    | .add _, buffer_ => inferInstanceAs (Decidable (buffer_.length < size_))
    | .remove, buffer_ => inferInstanceAs (Decidable (buffer_ ≠ []))
  body
    | .add item, buffer_, _ => (buffer_ ++ [item], none)
    | .remove, buffer_, h => ((pop buffer_ h).1, some (pop buffer_ h).2)

/-- The states of any number of threads with one buffer. -/
abbrev State (τ T : Type*) := Monitor.State τ (List T) (Call T) (Option T)

/-- The items added so far, in order of adding. -/
def added : List (Call T × Option T) → List T
  | [] => []
  | (.add item, _) :: log => item :: added log
  | (.remove, _) :: log => added log

/-- The items removed so far, in order of removal. -/
def removed : List (Call T × Option T) → List T
  | [] => []
  | (.remove, some item) :: log => item :: removed log
  | _ :: log => removed log

theorem added_append (log log' : List (Call T × Option T)) :
    added (log ++ log') = added log ++ added log' := by
  induction log with
  | nil => rfl
  | cons e log ih =>
      rcases e with ⟨c, r⟩
      cases c with
      | add item => rw [List.cons_append, added, added, ih, List.cons_append]
      | remove => rw [List.cons_append, added, added, ih]

theorem removed_append (log log' : List (Call T × Option T)) :
    removed (log ++ log') = removed log ++ removed log' := by
  induction log with
  | nil => rfl
  | cons e log ih =>
      rcases e with ⟨c, r⟩
      cases c with
      | add item => simpa [removed] using ih
      | remove =>
          cases r with
          | none => simpa [removed] using ih
          | some item => simpa [removed] using ih

@[simp] theorem added_concat_add (log : List (Call T × Option T)) (item : T) (r : Option T) :
    added (log ++ [(.add item, r)]) = added log ++ [item] := by simp [added_append, added]

@[simp] theorem added_concat_remove (log : List (Call T × Option T)) (r : Option T) :
    added (log ++ [(.remove, r)]) = added log := by simp [added_append, added]

@[simp] theorem removed_concat_add (log : List (Call T × Option T)) (item : T) (r : Option T) :
    removed (log ++ [(.add item, r)]) = removed log := by simp [removed_append, removed]

@[simp] theorem removed_concat_remove (log : List (Call T × Option T)) (item : T) :
    removed (log ++ [(.remove, some item)]) = removed log ++ [item] := by
  simp [removed_append, removed]

variable [DecidableEq τ] {pop : ∀ buffer_ : List T, buffer_ ≠ [] → List T × T}

/-! ### What holds whichever end is popped -/

/-- The buffer never holds more than `size_` items. -/
theorem length_le_size (hpop : ∀ b h, (pop b h).2 :: (pop b h).1 ~ b) {s : State τ T}
    (h : Reachable (monitor pop).step (State.init []) s) : s.shared.length ≤ size_ := by
  refine shared_inv (fun buffer_ _ => buffer_.length ≤ size_) ?_ (Nat.zero_le _) h
  intro c buffer_ log hg hle
  cases c with
  | add item =>
      have hroom : buffer_.length < size_ := hg
      simpa [monitor] using Nat.succ_le_of_lt hroom
  | remove =>
      have hlen : (pop buffer_ hg).1.length + 1 = buffer_.length := (hpop buffer_ hg).length_eq
      have hshrink : (pop buffer_ hg).1.length ≤ buffer_.length := by omega
      exact hshrink.trans hle

/-- No item is lost or duplicated. -/
theorem removed_append_perm_added (hpop : ∀ b h, (pop b h).2 :: (pop b h).1 ~ b) {s : State τ T}
    (h : Reachable (monitor pop).step (State.init []) s) :
    removed s.log ++ s.shared ~ added s.log := by
  refine shared_inv (fun buffer_ log => removed log ++ buffer_ ~ added log) ?_ (List.Perm.refl _) h
  intro c buffer_ log hg hperm
  cases c with
  | add item =>
      simp only [monitor, removed_concat_add, added_concat_add, ← List.append_assoc]
      exact hperm.append_right [item]
  | remove =>
      simp only [monitor, removed_concat_remove, added_concat_remove, List.append_assoc]
      exact ((hpop buffer_ hg).append_left (removed log)).trans hperm

/-- The thread `t` sleeps in an `add`. -/
def BlockedAdding (s : State τ T) (t : τ) : Prop := ∃ item, s.phase t = .waiting (.add item)

/-- The thread `t` sleeps in a `remove`. -/
def BlockedRemoving (s : State τ T) (t : τ) : Prop := s.phase t = .waiting .remove

/-- The thread `t` has not ended. -/
def Running (s : State τ T) (t : τ) : Prop := s.phase t ≠ .exited

/-- **When every thread still running sleeps**, they are all producers and the buffer is full, or
all consumers and the buffer is empty. -/
theorem blocked (hpop : ∀ b h, (pop b h).2 :: (pop b h).1 ~ b) {s : State τ T}
    (h : Reachable (monitor pop).step (State.init []) s)
    (hblocked : ∀ t, Running s t → BlockedAdding s t ∨ BlockedRemoving s t) :
    (∀ t, Running s t → BlockedAdding s t ∧ s.shared.length = size_) ∨
      ∀ t, Running s t → BlockedRemoving s t ∧ s.shared = [] := by
  have hadd : ∀ t, BlockedAdding s t → s.shared.length = size_ := by
    rintro t ⟨item, ht⟩
    have hfull : ¬s.shared.length < size_ := not_guard_of_waiting h ht
    exact le_antisymm (length_le_size hpop h) (not_lt.1 hfull)
  have hremove : ∀ t, BlockedRemoving s t → s.shared = [] := fun t ht =>
    not_not.1 (not_guard_of_waiting h ht)
  by_cases hfull : s.shared.length = size_
  · -- nobody can sleep in a `remove`
    refine Or.inl fun t ht => ⟨?_, hfull⟩
    rcases hblocked t ht with hb | hb
    · exact hb
    · rw [hremove t hb] at hfull
      exact absurd hfull (Nat.ne_of_lt (by decide : 0 < 128))
  · refine Or.inr ?_
    intro t ht
    rcases hblocked t ht with hb | hb
    · exact absurd (hadd t hb) hfull
    · exact ⟨hb, hremove t hb⟩

end BoundedBuffer
