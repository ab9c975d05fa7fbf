/-
**The command queue of the robot simulator.**

`SimpleRobotInterface.h` defines the queue that `rtp_server.cpp` passes robot commands through, from
the connection that receives trajectories to the one that reports the robot's state.  Its `remove`
pops the *back* of the deque, the end `add` appends to, so the class is a bounded stack: with two
commands queued at once the later one is executed first.

Main definitions:

* `RtpSimulator.commandQueue` — the class;
* `RtpSimulator.InOrder` — what a queue promises;
* `RtpSimulator.AtMostOne` — `remove` runs with at most one item queued.

Main results:

* `RtpSimulator.commandQueue_keeps_items` — nothing is lost, in any run;
* `RtpSimulator.commandQueue_in_order_iff` — **the runs in which the class is a queue** are those in
  which every `remove` meets at most one item;
* `RtpSimulator.commandQueue_reorders` — two commands queued at once come out in the wrong order.
-/

import CppSamples.BoundedBuffer
import Mathlib.Data.List.Induction

set_option relaxedAutoImplicit false
set_option autoImplicit false

namespace RtpSimulator

open TransitionSystem Monitor BoundedBuffer
open scoped List

variable {τ T : Type*} [DecidableEq τ]

/-- `buffer_.back()` and `buffer_.pop_back()`. -/
def popBack (buffer_ : List T) (h : buffer_ ≠ []) : List T × T :=
  (buffer_.dropLast, buffer_.getLast h)

/-- The class `Buffer` of `SimpleRobotInterface.h`. -/
def commandQueue : Monitor (List T) (Call T) (Option T) := monitor popBack

/-- The promise of a queue: the items come out in the order they went in, none is lost or
duplicated, and at most `size_` are held. -/
def InOrder (s : BoundedBuffer.State τ T) : Prop :=
  removed s.log <+: added s.log ∧ removed s.log ++ s.shared ~ added s.log ∧
    s.shared.length ≤ size_

/-- The critical section of `remove` runs with at most one item in the buffer. -/
def AtMostOne : Call T → List T → Prop
  | .add _, _ => True
  | .remove, buffer_ => buffer_.length ≤ 1

theorem popBack_perm (buffer_ : List T) (h : buffer_ ≠ []) :
    (popBack buffer_ h).2 :: (popBack buffer_ h).1 ~ buffer_ := by
  have hsplit := List.dropLast_append_getLast h
  exact (List.perm_append_singleton _ _).symm.trans (List.Perm.of_eq hsplit)

/-- In every run, whatever comes out when, no item is lost or duplicated and the bound is kept. -/
theorem commandQueue_keeps_items {s : BoundedBuffer.State τ T}
    (h : Reachable (commandQueue (T := T)).step (State.init []) s) :
    removed s.log ++ s.shared ~ added s.log ∧ s.shared.length ≤ size_ :=
  ⟨removed_append_perm_added popBack_perm h, length_le_size popBack_perm h⟩

/-- While every `remove` meets at most one item, nothing is ever out of order. -/
theorem removed_append_eq_added {s : BoundedBuffer.State τ T} {as : List (Action τ (Call T))}
    (hone : Along commandQueue.step (Critical AtMostOne) (State.init []) as)
    (hrun : run commandQueue.step (State.init []) as = some s) :
    removed s.log ++ s.shared = added s.log := by
  refine shared_inv_along (fun buffer_ log => removed log ++ buffer_ = added log) ?_ rfl hone hrun
  intro c buffer_ log hg hlog hone
  cases c with
  | add item => simp [commandQueue, monitor, ← hlog]
  | remove =>
      obtain ⟨item, rfl⟩ : ∃ item, buffer_ = [item] :=
        List.length_eq_one_iff.1 (le_antisymm hone (List.length_pos_iff.2 hg))
      simp [commandQueue, monitor, popBack, ← hlog]

/-- A `remove` that meets two distinct items takes the wrong one. -/
theorem not_prefix_of_popBack {out buffer_ : List T} (h : buffer_ ≠ [])
    (hnodup : (out ++ buffer_).Nodup) (hlen : 1 < buffer_.length) :
    ¬out ++ [(popBack buffer_ h).2] <+: out ++ buffer_ := by
  intro hprefix
  have hback : [buffer_.getLast h] <+: buffer_ := (List.prefix_append_right_inj out).1 hprefix
  cases buffer_ with
  | nil => exact h rfl
  | cons x rest =>
      have hx : (x :: rest).getLast h = x := (List.cons_prefix_cons.1 hback).1
      have hne : rest ≠ [] := by
        rintro rfl
        simp at hlen
      rw [List.getLast_cons hne] at hx
      have hnot : x ∉ rest := (List.nodup_cons.1 (List.nodup_append.1 hnodup).2.1).1
      exact hnot (hx ▸ List.getLast_mem hne)

/-- A step that leaves a state in order without breaking the order, when the items are distinct,
runs its `remove` on at most one item. -/
theorem critical_atMostOne {s s' : BoundedBuffer.State τ T} {a : Action τ (Call T)}
    (heq : removed s.log ++ s.shared = added s.log) (hnodup : (added s.log).Nodup)
    (hstep : commandQueue.step s a = some s') (horder : InOrder s') :
    Critical AtMostOne s a := by
  cases a with
  | enter t =>
      intro c hc
      have hs' := step_enter hstep hc
      cases c with
      | add item => trivial
      | remove =>
          by_contra hlen
          have hlen' : 1 < s.shared.length := not_le.1 hlen
          have hg : s.shared ≠ [] := by
            intro hnil
            simp [hnil] at hlen'
          have hlog : s'.log = s.log ++ [(.remove, some (popBack s.shared hg).2)] := by
            rw [hs', critical, dif_pos (show commandQueue.guard .remove s.shared from hg)]
            rfl
          have hprefix := horder.1
          rw [hlog, removed_concat_remove, added_concat_remove, ← heq] at hprefix
          exact not_prefix_of_popBack hg (heq ▸ hnodup) hlen' hprefix
  | _ => trivial

/-- A run of distinct items that stays in order meets the condition. -/
theorem along_of_inOrder {s : BoundedBuffer.State τ T} {as : List (Action τ (Call T))}
    (hrun : run commandQueue.step (State.init []) as = some s) (hnodup : (added s.log).Nodup)
    (horder : ∀ bs t, bs <+: as → run commandQueue.step (State.init []) bs = some t → InOrder t) :
    Along commandQueue.step (Critical AtMostOne) (State.init []) as := by
  induction as using List.reverseRecOn generalizing s with
  | nil => trivial
  | append_singleton as a ih =>
      obtain ⟨t, ht, hstep⟩ := run_concat_eq_some.1 hrun
      have hnodup' : (added t.log).Nodup := by
        obtain ⟨log, hlog⟩ := log_prefix_of_step hstep
        rw [← hlog, added_append] at hnodup
        exact (List.nodup_append.1 hnodup).1
      have hone := ih ht hnodup' fun bs u hbs => horder bs u (hbs.trans (List.prefix_append as [a]))
      refine hone.concat ?_
      intro u hu
      obtain rfl : t = u := Option.some.inj (ht.symm.trans hu)
      exact critical_atMostOne (removed_append_eq_added hone ht) hnodup' hstep
        (horder _ s List.prefix_rfl hrun)

/-- **The class is a queue exactly while every `remove` meets at most one item**: that keeps every
state in order, and for distinct items nothing less does. -/
theorem commandQueue_in_order_iff {s : BoundedBuffer.State τ T} {as : List (Action τ (Call T))}
    (hrun : run commandQueue.step (State.init []) as = some s) :
    (Along commandQueue.step (Critical AtMostOne) (State.init []) as → InOrder s) ∧
      ((added s.log).Nodup →
        (∀ bs t, bs <+: as → run commandQueue.step (State.init []) bs = some t → InOrder t) →
        Along commandQueue.step (Critical AtMostOne) (State.init []) as) := by
  constructor
  · intro hone
    have heq := removed_append_eq_added hone hrun
    exact ⟨⟨_, heq⟩, commandQueue_keeps_items ⟨as, hrun⟩⟩
  · intro hnodup horder
    exact along_of_inOrder hrun hnodup horder

/-- One thread queues a command and takes it. -/
theorem commandQueue_in_order_iff_lockstep : ∃ s : BoundedBuffer.State (Fin 2) ℕ,
    run commandQueue.step (State.init []) [.call 0 (.add 7), .enter 0, .call 1 .remove, .enter 1]
      = some s ∧ InOrder s := by
  obtain ⟨s, hs⟩ : ∃ s : BoundedBuffer.State (Fin 2) ℕ,
      run commandQueue.step (State.init []) [.call 0 (.add 7), .enter 0, .call 1 .remove, .enter 1]
        = some s := ⟨_, rfl⟩
  refine ⟨s, hs, (commandQueue_in_order_iff hs).1 ⟨trivial, ?_⟩⟩
  rintro _ ⟨⟩
  refine ⟨fun c hc => ?_, ?_⟩
  · cases c with
    | add item => trivial
    | remove => exact Nat.zero_le 1
  · rintro _ ⟨⟩
    refine ⟨trivial, ?_⟩
    rintro _ ⟨⟩
    refine ⟨fun c hc => ?_, fun _ _ => trivial⟩
    cases c with
    | add item => trivial
    | remove => exact le_refl 1

/-- Two commands queued at once come out in the wrong order. -/
theorem commandQueue_reorders : ¬∀ (as : List (Action (Fin 2) (Call ℕ)))
    (s : BoundedBuffer.State (Fin 2) ℕ),
    run commandQueue.step (State.init []) as = some s → InOrder s := by
  intro h
  have horder := (h [.call 0 (.add 1), .enter 0, .call 0 (.add 2), .enter 0, .call 1 .remove,
    .enter 1] _ rfl).1
  exact absurd horder (by decide)

end RtpSimulator
