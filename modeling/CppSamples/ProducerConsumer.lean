/-
**The bounded FIFO of `producer_consumer.cpp`.**

The class `Buffer` of this sample pops the front of its deque, the end opposite to the one `add`
appends to, so it is a queue.

Main definitions:

* `ProducerConsumer.buffer` — the class.

Main results:

* `ProducerConsumer.removed_append_eq_added` — what came out, followed by what is still in, is what
  went in;
* `ProducerConsumer.bounded_fifo` — **the contract of the buffer** in every reachable state of any
  number of producers and consumers.
-/

import CppSamples.BoundedBuffer

set_option relaxedAutoImplicit false
set_option autoImplicit false

namespace ProducerConsumer

open TransitionSystem Monitor BoundedBuffer
open scoped List

variable {τ T : Type*} [DecidableEq τ]

/-- `buffer_.front()` and `buffer_.pop_front()`. -/
def popFront (buffer_ : List T) (h : buffer_ ≠ []) : List T × T := (buffer_.tail, buffer_.head h)

/-- The class `Buffer` of `producer_consumer.cpp`. -/
def buffer : Monitor (List T) (Call T) (Option T) := monitor popFront

theorem cons_popFront (buffer_ : List T) (h : buffer_ ≠ []) :
    (popFront buffer_ h).2 :: (popFront buffer_ h).1 = buffer_ := List.cons_head_tail h

theorem popFront_perm (buffer_ : List T) (h : buffer_ ≠ []) :
    (popFront buffer_ h).2 :: (popFront buffer_ h).1 ~ buffer_ := by rw [cons_popFront]

/-- What came out, followed by what is still in, is what went in, in the same order. -/
theorem removed_append_eq_added {s : BoundedBuffer.State τ T}
    (h : Reachable buffer.step (State.init []) s) : removed s.log ++ s.shared = added s.log := by
  refine shared_inv (fun buffer_ log => removed log ++ buffer_ = added log) ?_ rfl h
  intro c buffer_ log hg hlog
  cases c with
  | add item => simp [buffer, monitor, ← hlog]
  | remove => simpa [buffer, monitor, cons_popFront] using hlog

/-- **The bounded FIFO**: in every reachable state the buffer holds at most `128` items, the items
removed so far followed by those in the buffer are the items added so far in order, and when all
threads still running sleep, they are all producers before a full buffer or all consumers before
an empty one. -/
theorem bounded_fifo {s : BoundedBuffer.State τ T} (h : Reachable buffer.step (State.init []) s) :
    (0 ≤ s.shared.length ∧ s.shared.length ≤ 128) ∧ removed s.log ++ s.shared = added s.log ∧
      ((∀ t, Running s t → BlockedAdding s t ∨ BlockedRemoving s t) →
        (∀ t, Running s t → BlockedAdding s t ∧ s.shared.length = 128) ∨
          ∀ t, Running s t → BlockedRemoving s t ∧ s.shared = []) :=
  ⟨⟨Nat.zero_le _, length_le_size popFront_perm h⟩, removed_append_eq_added h,
    blocked popFront_perm h⟩

/-- Two threads: the first goes to sleep in `remove` and gets the item the second adds; in the end
the second sleeps in `remove` and the first is not in the monitor. -/
theorem bounded_fifo_handover : ∃ s : BoundedBuffer.State (Fin 2) ℕ,
    run buffer.step (State.init []) [.call 0 .remove, .enter 0, .call 1 (.add 7), .enter 1,
      .call 1 .remove, .enter 0, .enter 1] = some s ∧
    removed s.log ++ s.shared = added s.log := by
  obtain ⟨s, hs⟩ : ∃ s : BoundedBuffer.State (Fin 2) ℕ,
      run buffer.step (State.init []) [.call 0 .remove, .enter 0, .call 1 (.add 7), .enter 1,
        .call 1 .remove, .enter 0, .enter 1] = some s := ⟨_, rfl⟩
  exact ⟨s, hs, (bounded_fifo ⟨_, hs⟩).2.1⟩

end ProducerConsumer
