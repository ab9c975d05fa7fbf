/-
**State streams that stall in the robot simulator.**

A thread of the state port asks whether the queue is empty and, when it is not, calls `remove`.  The
test and the call are two steps, so another thread may take the last command in between, and then
`remove` waits on the condition variable while the client gets no status.  The number of threads
between the two, against the number of commands in the queue, decides whether that can happen.

Main definitions:

* `RtpSimulator.Streams` — no thread of a state port falls asleep in `remove`;
* `RtpSimulator.removers`, `RtpSimulator.Fresh` — the threads on their way to `remove`, and a test
  that counts them.

Main results:

* `RtpSimulator.streams_of_fresh` — fresh tests keep the state streams going;
* `RtpSimulator.exists_stall` — too many threads on their way to `remove` make one of them stall;
* `RtpSimulator.streams_iff` — **the schedules under which no state stream stalls** are those whose
  tests are fresh;
* `RtpSimulator.state_stream_stalls` — two state clients and one command.
-/

import CppSamples.RtpReporting
import Mathlib.Data.Finset.Card

set_option relaxedAutoImplicit false
set_option autoImplicit false

namespace RtpSimulator

open TransitionSystem Monitor BoundedBuffer Function

variable {ρ : Type} {types : MsgType} {s s' : Server ρ} {a : Event ρ}

/-- When a thread runs the critical section of `remove`, there is a command in the queue. -/
def Streams (s : Server ρ) (a : Event ρ) : Prop :=
  ∀ t, a = .enter t → s.queue.phase t = .entering .remove → s.queue.shared ≠ []

/-- The thread has seen a command in the queue and has not removed one yet. -/
def Stage.removing : Stage → Bool
  | .remove => true
  | _ => false

/-- The threads that are on their way to `remove`, or in it. -/
def removers (s : Server ρ) : Finset ℕ :=
  (Finset.range s.accepted).filter fun u =>
    (s.connections u).any fun c => c.stage.removing

/-- A thread that sees a command in the queue sees more than are about to be removed. -/
def Fresh (s : Server ρ) (a : Event ρ) : Prop :=
  ∀ t c, a = .test t → s.connections t = some c → c.stage = .test → s.queue.shared ≠ [] →
    (removers s).card < s.queue.shared.length

/-! ### The threads on their way to `remove` -/

theorem Stage.removing_iff {stage : Stage} : stage.removing = true ↔ stage = .remove := by
  cases stage with
  | remove => exact ⟨fun _ => rfl, fun _ => rfl⟩
  | _ => simp [Stage.removing]

theorem Stage.removing_of_call {stage : Stage} (h : stage.call = none) :
    stage.removing = false := by
  cases stage with
  | remove => exact absurd h (by simp [Stage.call])
  | _ => rfl

theorem mem_removers (hsync : Synced s) {u : ℕ} :
    u ∈ removers s ↔ ∃ c, s.connections u = some c ∧ c.stage = .remove := by
  rw [removers, Finset.mem_filter, Finset.mem_range, Option.any_eq_true]
  constructor
  · rintro ⟨-, c, hc, hremove⟩
    exact ⟨c, hc, Stage.removing_iff.1 hremove⟩
  · rintro ⟨c, hc, hstage⟩
    exact ⟨hsync.lt_accepted hc, c, hc, Stage.removing_iff.2 hstage⟩

theorem mem_removers_of_phase (hsync : Synced s) {t : ℕ}
    (hphase : (s.queue.phase t).call = some .remove) : t ∈ removers s := by
  rw [hsync.calls, Option.bind_eq_some_iff] at hphase
  obtain ⟨c, hc, hcall⟩ := hphase
  exact (mem_removers hsync).2 ⟨c, hc, Stage.eq_remove hcall⟩

/-- A thread moves on. -/
theorem removers_move (hsync : Synced s) {t : ℕ} {c c' : Connection ρ}
    {queue : BoundedBuffer.State ℕ Job} {reports : List Report} (hc : s.connections t = some c) :
    removers { s.move t c' with queue, reports } =
      if c'.stage.removing then insert t (removers s) else (removers s).erase t := by
  have hlt := hsync.lt_accepted hc
  have hmem : ∀ u, u ∈ removers { s.move t c' with queue, reports } ↔
      u = t ∧ c'.stage.removing ∨ u ≠ t ∧ u ∈ removers s := by
    intro u
    simp only [removers, Finset.mem_filter, Finset.mem_range, Server.move_accepted]
    by_cases hu : u = t
    · subst hu
      simp [Server.move, hlt]
    · simp [Server.move, hu]
  ext u
  rw [hmem]
  split_ifs with hremove
  · rw [Finset.mem_insert]
    by_cases hu : u = t
    all_goals simp [hu, hremove]
  · rw [Finset.mem_erase]
    simp [hremove]

/-- A thread that is not on its way to `remove`, before and after. -/
theorem removers_move_of_not (hsync : Synced s) {t : ℕ} {c c' : Connection ρ}
    {q : BoundedBuffer.State ℕ Job} {r : List Report} (hc : s.connections t = some c)
    (hstage : c.stage ≠ .remove) (hstage' : c'.stage.removing = false) :
    removers { s.move t c' with queue := q, reports := r } = removers s := by
  rw [removers_move hsync hc, hstage', if_neg Bool.false_ne_true, Finset.erase_eq_of_notMem]
  rw [mem_removers hsync]
  rintro ⟨d, hd, hremove⟩
  obtain rfl : d = c := Option.some.inj (hd.symm.trans hc)
  exact hstage hremove

theorem removers_accept (c : Connection ρ) (hstage : c.stage.removing = false) :
    removers { s.move s.accepted c with accepted := s.accepted + 1 } = removers s := by
  ext u
  simp only [removers, Finset.mem_filter, Finset.mem_range]
  by_cases hu : u = s.accepted
  · subst hu
    simp [Server.move, hstage]
  · rw [show ({ s.move s.accepted c with accepted := s.accepted + 1 } : Server ρ).connections u =
      s.connections u from Server.move_of_ne hu]
    refine and_congr_left ?_
    intro _
    omega

/-! ### Fresh tests -/

/-- There is a command for every thread on its way to `remove`. -/
def Stocked (s : Server ρ) : Prop := (removers s).card ≤ s.queue.shared.length

theorem Stocked.of_eq (h : Stocked s) (hremovers : removers s' = removers s)
    (hlen : s.queue.shared.length ≤ s'.queue.shared.length) : Stocked s' := by
  unfold Stocked at h ⊢
  rw [hremovers]
  exact h.trans hlen

/-- **Fresh tests leave a command for every thread on its way to `remove`.** -/
theorem Stocked.moves (h : Stocked s) (hsync : Synced s) (hfresh : Fresh s a)
    (hmoves : Moves types s a s') : Stocked s' := by
  cases hmoves with
  | accept robot service_type raw =>
      refine h.of_eq (removers_accept _ ?_) le_rfl
      cases service_type <;> rfl
  | go stage id hc hcall hcall' hservice hjob =>
      refine h.of_eq (removers_move_of_not (q := s.queue) (r := s.reports) hsync hc ?_
        (Stage.removing_of_call hcall')) le_rfl
      intro hremove
      rw [hremove] at hcall
      simp [Stage.call] at hcall
  | receive id hc hstage hread hphase =>
      exact h.of_eq (removers_move_of_not hsync hc (by simp [hstage]) rfl) le_rfl
  | @remove t c hc hstage hne hphase =>
      unfold Stocked
      rw [removers_move hsync hc]
      exact (Finset.card_insert_le _ _).trans (hfresh t c rfl hc hstage hne)
  | @added t c cmd hc hphase hroom =>
      have hstage := Stage.eq_add ((hsync.call_eq hc).symm.trans (by rw [hphase]; rfl))
      refine h.of_eq (removers_move_of_not hsync hc (by simp [hstage]) rfl) ?_
      rw [List.length_append]
      exact Nat.le_add_right _ _
  | @removed t c hc hphase hne =>
      have hmem : t ∈ removers s := mem_removers_of_phase hsync (by rw [hphase]; rfl)
      unfold Stocked at h ⊢
      rw [removers_move hsync hc, Stage.removing_of_call (Stage.call_afterRemove _),
        if_neg Bool.false_ne_true, Finset.card_erase_of_mem hmem, popBack, List.length_dropLast]
      exact Nat.sub_le_sub_right h 1
  | asleep hc hphase hguard => exact h
  | woken hphase => exact h
  | report hc hstage =>
      exact h.of_eq (removers_move_of_not (q := s.queue) hsync hc (by simp [hstage]) rfl) le_rfl

/-- Where every thread on its way to `remove` has a command, none stalls. -/
theorem Stocked.streams (h : Stocked s) (hsync : Synced s) : Streams s a := by
  rintro t - hphase hnil
  have hmem : t ∈ removers s := mem_removers_of_phase hsync (by rw [hphase]; rfl)
  have hpos := Finset.card_pos.2 ⟨t, hmem⟩
  rw [Stocked, hnil] at h
  exact absurd hpos (Nat.not_lt.2 h)

/-- **Fresh tests keep the state streams going.** -/
theorem streams_of_fresh {as : List (Event ρ)}
    (hfresh : Along (step types) Fresh Server.init as) :
    Along (step types) Streams Server.init as := by
  refine Along.imp_inv (fun s => Inv s ∧ Stocked s) ?_ ⟨Inv.init, Nat.le_refl 0⟩ hfresh
  rintro s a ⟨hinv, hstocked⟩ hfresh
  refine ⟨hstocked.streams hinv.synced, fun t hstep => ⟨hinv.step hstep, ?_⟩⟩
  exact hstocked.moves hinv.synced hfresh (moves_of_step hstep)

/-! ### Stalling -/

/-- No thread of a state port is asleep, and no thread has ended in the queue. -/
def Awake (s : Server ρ) : Prop :=
  ∀ t, s.queue.phase t ≠ .waiting .remove ∧ s.queue.phase t ≠ .exited

theorem Awake.init : Awake (Server.init : Server ρ) := fun _ => ⟨by simp [Server.init, State.init],
  by simp [Server.init, State.init]⟩

theorem Awake.moves (h : Awake s) (hstreams : Streams s a) (hmoves : Moves types s a s') :
    Awake s' := by
  have hset : ∀ t (p : Phase (Call Job)) (phase : ℕ → Phase (Call Job)),
      (∀ u, phase u ≠ .waiting .remove ∧ phase u ≠ .exited) → p ≠ .waiting .remove ∧ p ≠ .exited →
        ∀ u, update phase t p u ≠ .waiting .remove ∧ update phase t p u ≠ .exited := by
    intro t p phase hphase hp u
    by_cases hu : u = t
    · rw [hu, update_self]
      exact hp
    · rw [update_of_ne hu]
      exact hphase u
  have hnotify : ∀ u, (s.queue.phase u).notify ≠ .waiting .remove ∧
      (s.queue.phase u).notify ≠ .exited := by
    intro u
    have hu := (h u).2
    cases hphase : s.queue.phase u with
    | exited => exact absurd hphase hu
    | _ => simp [Phase.notify]
  cases hmoves with
  | accept | go | report => exact h
  | receive id hc hstage hread hphase => exact hset _ _ _ h (by simp)
  | remove hc hstage hne hphase => exact hset _ _ _ h (by simp)
  | added hc hphase hroom => exact hset _ _ _ hnotify (by simp)
  | removed hc hphase hne => exact hset _ _ _ hnotify (by simp)
  | @asleep t c call hc hphase hguard =>
      refine hset _ _ _ h ⟨?_, by simp⟩
      rintro ⟨rfl⟩
      exact hguard (hstreams t rfl hphase)
  | woken hphase => exact hset _ _ _ h (by simp)

theorem Awake.entering (h : Awake s) (hsync : Synced s) {t : ℕ} (ht : t ∈ removers s) :
    ∃ c, s.connections t = some c ∧ s.queue.phase t = .entering .remove := by
  obtain ⟨c, hc, hstage⟩ := (mem_removers hsync).1 ht
  have hcall := hsync.call_eq hc
  rw [hstage] at hcall
  refine ⟨c, hc, ?_⟩
  cases hphase : s.queue.phase t with
  | entering call =>
      rw [hphase] at hcall
      exact congrArg Phase.entering (Option.some.inj hcall)
  | waiting call =>
      rw [hphase] at hcall
      obtain rfl : call = .remove := Option.some.inj hcall
      exact absurd hphase (h t).1
  | _ => simp [hphase, Phase.call, Stage.call] at hcall

/-- A thread at its test is outside the queue. -/
theorem Awake.idle (h : Awake s) (hsync : Synced s) {t : ℕ} {c : Connection ρ}
    (hc : s.connections t = some c) (hstage : c.stage = .test) : s.queue.phase t = .idle := by
  have hcall := hsync.call_eq hc
  rw [hstage] at hcall
  cases hphase : s.queue.phase t with
  | idle => rfl
  | exited => exact absurd hphase (h t).2
  | _ => simp [hphase, Phase.call, Stage.call] at hcall

variable (types) in
/-- A thread that finds a command in `remove` takes it. -/
theorem step_enter_eq {t : ℕ} {c : Connection ρ} (hc : s.connections t = some c)
    (hphase : s.queue.phase t = .entering .remove) (hne : s.queue.shared ≠ []) :
    step types s (.enter t) =
      some { s.move t { c with stage := .afterRemove (popBack s.queue.shared hne).2 } with
        queue := {
          shared := (popBack s.queue.shared hne).1
          phase := update (fun u => (s.queue.phase u).notify) t .idle
          log := s.queue.log ++ [(.remove, some (popBack s.queue.shared hne).2)] } } := by
  have hcritical : commandQueue.critical s.queue t .remove = {
      shared := (popBack s.queue.shared hne).1
      phase := update (fun u => (s.queue.phase u).notify) t .idle
      log := s.queue.log ++ [(.remove, some (popBack s.queue.shared hne).2)] } := dif_pos hne
  simp only [step, hc, Monitor.step, hphase, hcritical, Option.bind_eq_bind, Option.bind_some,
    update_self, List.getLast?_append, List.getLast?_singleton, Option.some_or]

variable (types) in
/-- **Too many threads on their way to `remove` make one of them stall.** -/
theorem exists_stall (hinv : Inv s) (hawake : Awake s)
    (hmore : s.queue.shared.length < (removers s).card) :
    ∃ ts : List ℕ, ¬Along (step types) Streams s (ts.map .enter) := by
  induction hn : s.queue.shared.length generalizing s with
  | zero =>
      obtain ⟨t, ht⟩ := Finset.card_pos.1 (Nat.zero_lt_of_lt hmore)
      obtain ⟨-, -, hphase⟩ := hawake.entering hinv.synced ht
      exact ⟨[t], fun h => h.1 t rfl hphase (List.length_eq_zero_iff.1 hn)⟩
  | succ n ih =>
      obtain ⟨t, ht⟩ := Finset.card_pos.1 (Nat.zero_lt_of_lt hmore)
      obtain ⟨c, hc, hphase⟩ := hawake.entering hinv.synced ht
      have hne : s.queue.shared ≠ [] := List.ne_nil_of_length_eq_add_one hn
      have hstep := step_enter_eq types hc hphase hne
      have hlen : (popBack s.queue.shared hne).1.length = n := by
        rw [popBack, List.length_dropLast, hn, Nat.add_sub_cancel]
      have hawake' := hawake.moves (fun _ _ _ => hne) (moves_of_step hstep)
      obtain ⟨ts, hts⟩ := ih (hinv.step hstep) hawake' (by
        rw [removers_move hinv.synced hc, Stage.removing_of_call (Stage.call_afterRemove _),
          if_neg Bool.false_ne_true, Finset.card_erase_of_mem ht, hlen]
        exact Nat.lt_sub_of_add_lt (hn ▸ hmore)) hlen
      exact ⟨t :: ts, fun h => hts (h.2 _ hstep)⟩

variable (types) in
/-- A thread that sees a command in the queue. -/
theorem step_test_eq {t : ℕ} {c : Connection ρ} (hc : s.connections t = some c)
    (hstage : c.stage = .test) (hne : s.queue.shared ≠ []) (hphase : s.queue.phase t = .idle) :
    step types s (.test t) = some { s.move t { c with stage := .remove } with
      queue := { s.queue with phase := update s.queue.phase t (.entering .remove) } } := by
  have hempty : ¬s.queue.shared.isEmpty := fun h => hne (List.isEmpty_iff.1 h)
  simp only [step, hc, hstage, if_neg hempty, Monitor.step, hphase, Option.bind_eq_bind,
    Option.bind_some]

variable (types) in
/-- **A test that is not fresh makes a thread stall.** -/
theorem fresh_of_streams (hinv : Inv s) (hawake : Awake s)
    (h : ∀ s' (ts : List ℕ), step types s a = some s' → Along (step types) Streams s' (ts.map .enter)) :
    Fresh s a := by
  rintro t c rfl hc hstage hne
  by_contra hnot
  have hstep := step_test_eq types hc hstage hne (hawake.idle hinv.synced hc hstage)
  have hawake' := hawake.moves (fun _ ha => by simp at ha) (moves_of_step hstep)
  obtain ⟨ts, hts⟩ := exists_stall types (hinv.step hstep) hawake' (by
    rw [removers_move hinv.synced hc, if_pos (Stage.removing_iff.2 rfl),
      Finset.card_insert_of_notMem]
    · exact Nat.lt_succ_of_le (not_lt.1 hnot)
    · rw [mem_removers hinv.synced]
      rintro ⟨d, hd, hremove⟩
      obtain rfl : d = c := Option.some.inj (hd.symm.trans hc)
      simp [hstage] at hremove)
  exact hts (h _ ts hstep)

/-! ### The schedules under which no state stream stalls -/

/-- **No state stream stalls, however the threads in the queue go on, exactly while the tests are
fresh.** -/
theorem streams_iff (types : MsgType) (as : List (Event ρ)) :
    (∀ (bs : List (Event ρ)) (ts : List ℕ), bs <+: as →
        Along (step types) Streams Server.init (bs ++ ts.map .enter)) ↔
      Along (step types) Fresh Server.init as := by
  constructor
  · intro h
    induction as using List.reverseRecOn with
    | nil => trivial
    | append_singleton as a ih =>
        have hfresh := ih fun bs ts hbs => h bs ts (hbs.trans (List.prefix_append as [a]))
        refine hfresh.concat ?_
        intro s hs
        have hawake : Inv s ∧ Awake s := by
          have hstreams := (along_append.1 (h as [] (List.prefix_append as [a]))).1
          refine run_inv (fun s => Inv s ∧ Awake s) ?_ ⟨Inv.init, Awake.init⟩ hstreams hs
          rintro s b s' ⟨hinv, hawake⟩ hstreams hstep
          exact ⟨hinv.step hstep, hawake.moves hstreams (moves_of_step hstep)⟩
        refine fresh_of_streams types hawake.1 hawake.2 ?_
        intro s' ts hstep
        exact (along_append.1 (h (as ++ [a]) ts List.prefix_rfl)).2 s'
          (run_concat_eq_some.2 ⟨s, hs, hstep⟩)
  · rintro hfresh bs ts ⟨cs, rfl⟩
    refine streams_of_fresh (along_append.2 ⟨hfresh.of_append, fun s _ => ?_⟩)
    refine along_of_forall (fun a ha s => ?_) s
    obtain ⟨t, -, rfl⟩ := List.mem_map.1 ha
    intro _ _ h
    simp at h

/-- **Two state clients see the one command in the queue**, and the second one waits for another. -/
theorem state_stream_stalls :
    ¬∀ (types : MsgType) (as : List (Event Unit)), Along (step types) Streams Server.init as := by
  intro h
  let types : MsgType := ⟨1, 2, by decide⟩
  let race : List (Event Unit) :=
    [.enter 0, .accept () .ROBOT_STATE 0, .accept () .ROBOT_STATE 0] ++
      List.replicate 20 (.write 1) ++ List.replicate 20 (.write 2) ++ [.test 1, .test 2, .enter 1]
  have hstall : ∃ s, run (step types) (received ()) race = some s ∧
      s.queue.phase 2 = .entering .remove ∧ s.queue.shared = [] := ⟨_, rfl, rfl, rfl⟩
  obtain ⟨s, hrun, hphase, hnil⟩ := hstall
  have hstreams := h types ([.accept () .TRAJECTORY_STREAMING 0, .receive 0 (pointReceive types 7)] ++
    race ++ [.enter 2])
  refine ((along_append.1 hstreams).2 s ?_).1 2 rfl hphase hnil
  rw [run_append, run_received, Option.bind_some, hrun]

end RtpSimulator
