/-
**What holds of every server of the robot simulator.**

Whatever the order of the threads and wherever a socket fails: the threads and the queue agree on
who is inside a call, the commands of a connection are numbered in the order they were received,
and a command that was removed from the queue is processed by at most one thread and reported at
most once, with its own task id.

Main definitions:

* `RtpSimulator.Synced`, `RtpSimulator.Numbered`, `RtpSimulator.Processed` — the three invariants;
* `RtpSimulator.Processing` — a thread is processing a command.

Main results:

* `RtpSimulator.queue_reachable_of_moves` — the queue of a server is an object of the class
  `Buffer`;
* `RtpSimulator.Inv.of_reachable` — **the invariants hold of every server**.
-/

import CppSamples.RtpServer

set_option relaxedAutoImplicit false
set_option autoImplicit false

namespace RtpSimulator

open TransitionSystem Monitor BoundedBuffer Function
open scoped List

variable {ρ : Type} {types : MsgType} {s s' : Server ρ} {a : Event ρ}

/-! ### The threads and the queue -/

namespace Server

variable {t u : ℕ} {c d : Connection ρ}

@[simp] theorem move_accepted : (s.move t c).accepted = s.accepted := rfl

@[simp] theorem move_self : (s.move t c).connections t = some c := update_self _ _ _

@[simp] theorem move_of_ne (h : u ≠ t) : (s.move t c).connections u = s.connections u :=
  update_of_ne h _ _

/-- The connections after one of them has moved. -/
theorem move_eq_some (h : (s.move t c).connections u = some d) :
    u = t ∧ d = c ∨ u ≠ t ∧ s.connections u = some d := by
  by_cases hu : u = t
  · rw [hu, move_self] at h
    exact .inl ⟨hu, (Option.some.inj h).symm⟩
  · rw [move_of_ne hu] at h
    exact .inr ⟨hu, h⟩

end Server

theorem Stage.eq_add {stage : Stage} {cmd : Job} (h : stage.call = some (.add cmd)) :
    stage = .add cmd := by
  cases stage with
  | add cmd' => simpa [Stage.call] using h
  | _ => simp [Stage.call] at h

theorem Stage.eq_remove {stage : Stage} (h : stage.call = some .remove) : stage = .remove := by
  cases stage with
  | remove => rfl
  | _ => simp [Stage.call] at h

@[simp] theorem Stage.call_afterRemove (cmd : Job) : (Stage.afterRemove cmd).call = none := by
  rw [Stage.afterRemove]
  split_ifs
  all_goals rfl

@[simp] theorem Stage.service_afterRemove (cmd : Job) :
    (Stage.afterRemove cmd).service = some .ROBOT_STATE := by
  rw [Stage.afterRemove]
  split_ifs
  all_goals rfl

/-- The threads and the queue agree on who is inside a call. -/
structure Synced (s : Server ρ) : Prop where
  queue : Reachable commandQueue.step (State.init []) s.queue
  fresh : ∀ t, s.accepted ≤ t → s.connections t = none
  calls : ∀ t, (s.queue.phase t).call = (s.connections t).bind fun c => c.stage.call
  services : ∀ t c, s.connections t = some c →
    c.stage.service = none ∨ c.stage.service = some c.service_type_

theorem Synced.call_eq (h : Synced s) {t : ℕ} {c : Connection ρ} (hc : s.connections t = some c) :
    (s.queue.phase t).call = c.stage.call := by
  rw [h.calls, hc, Option.bind_some]

theorem Synced.lt_accepted (h : Synced s) {t : ℕ} {c : Connection ρ}
    (hc : s.connections t = some c) : t < s.accepted := by
  by_contra hlt
  rw [h.fresh t (not_lt.1 hlt)] at hc
  exact absurd hc (by simp)

theorem Synced.init : Synced (Server.init : Server ρ) :=
  ⟨Reachable.refl _, fun _ _ => rfl, fun _ => rfl, fun _ _ h => absurd h (by simp [Server.init])⟩

/-- A thread moves on, and the queue with it. -/
theorem Synced.move (h : Synced s) {t : ℕ} {c c' : Connection ρ}
    {queue : BoundedBuffer.State ℕ Job} {reports : List Report} (hc : s.connections t = some c)
    (hqueue : Reachable commandQueue.step (State.init []) queue)
    (hcall : (queue.phase t).call = c'.stage.call)
    (hother : ∀ u, u ≠ t → (queue.phase u).call = (s.queue.phase u).call)
    (hservice : c'.stage.service = none ∨ c'.stage.service = some c'.service_type_) :
    Synced { s.move t c' with queue, reports } := by
  refine ⟨hqueue, fun u hu => ?_, fun u => ?_, fun u d hd => ?_⟩
  · have hne : u ≠ t := by
      rintro rfl
      exact absurd (h.lt_accepted hc) (not_lt.2 hu)
    exact (Server.move_of_ne hne).trans (h.fresh u hu)
  · change (queue.phase u).call = ((s.move t c').connections u).bind fun c => c.stage.call
    by_cases hu : u = t
    · rw [hu, hcall, Server.move_self, Option.bind_some]
    · rw [hother u hu, h.calls, Server.move_of_ne hu]
  · rcases Server.move_eq_some hd with ⟨rfl, rfl⟩ | ⟨-, hd⟩
    · exact hservice
    · exact h.services u d hd

/-- A call falls asleep or wakes up, and the thread stays inside it. -/
theorem Synced.rephase (h : Synced s) {t : ℕ} {phase : Phase (Call Job)}
    (hqueue : Reachable commandQueue.step (State.init [])
      { s.queue with phase := update s.queue.phase t phase })
    (hcall : phase.call = (s.queue.phase t).call) :
    Synced { s with queue := { s.queue with phase := update s.queue.phase t phase } } := by
  refine ⟨hqueue, h.fresh, fun u => ?_, h.services⟩
  rw [← h.calls u]
  by_cases hu : u = t
  · simp only [hu, update_self, hcall]
  · simp only [update_of_ne hu]

/-- The queue of a server is an object of the class `Buffer`. -/
theorem queue_reachable_of_moves (h : Moves types s a s')
    (hqueue : Reachable commandQueue.step (State.init []) s.queue) :
    Reachable commandQueue.step (State.init []) s'.queue := by
  cases h with
  | accept | go | report => exact hqueue
  | @receive t c r command id hc hstage hread hphase =>
      refine hqueue.tail (a := .call t (.add ⟨t, c.packets, command⟩)) ?_
      rw [Monitor.step, hphase]
  | @remove t c hc hstage hne hphase =>
      refine hqueue.tail (a := .call t .remove) ?_
      rw [Monitor.step, hphase]
  | @added t c cmd hc hphase hroom =>
      refine hqueue.tail (a := .enter t) ?_
      rw [Monitor.step, hphase]
      exact congrArg some (dif_pos (show commandQueue.guard (.add cmd) s.queue.shared from hroom))
  | @removed t c hc hphase hne =>
      refine hqueue.tail (a := .enter t) ?_
      rw [Monitor.step, hphase]
      exact congrArg some (dif_pos (show commandQueue.guard .remove s.queue.shared from hne))
  | @asleep t c call hc hphase hguard =>
      refine hqueue.tail (a := .enter t) ?_
      rw [Monitor.step, hphase]
      exact congrArg some (dif_neg hguard)
  | @woken t call hphase =>
      refine hqueue.tail (a := .wake t) ?_
      rw [Monitor.step, hphase]

/-- **The threads and the queue stay in step.** -/
theorem Synced.moves (h : Synced s) (hmoves : Moves types s a s') : Synced s' := by
  have hqueue := queue_reachable_of_moves hmoves h.queue
  cases hmoves with
  | accept robot service_type raw =>
      have hnone := h.fresh s.accepted le_rfl
      refine ⟨hqueue, fun u hu => ?_, fun u => ?_, fun u d hd => ?_⟩
      · exact (Server.move_of_ne (Nat.ne_of_gt hu)).trans (h.fresh u (Nat.le_of_succ_le hu))
      · change (s.queue.phase u).call =
          ((s.move _ _).connections u).bind fun c => c.stage.call
        by_cases hu : u = s.accepted
        · rw [hu, Server.move_self, h.calls, hnone]
          cases service_type <;> rfl
        · rw [Server.move_of_ne hu, h.calls]
      · rcases Server.move_eq_some hd with ⟨-, rfl⟩ | ⟨-, hd⟩
        · cases service_type
          all_goals exact .inr rfl
        · exact h.services u d hd
  | go stage id hc hcall hcall' hservice hjob =>
      refine h.move hc hqueue ?_ (fun _ _ => rfl) ?_
      · exact (h.call_eq hc).trans (hcall.trans hcall'.symm)
      · rcases hservice with hnone | hsame
        · exact .inl hnone
        · rw [hsame]
          exact h.services _ _ hc
  | receive id hc hstage hread hphase =>
      refine h.move hc hqueue (by simp [Phase.call, Stage.call]) ?_ ?_
      · intro u hu
        simp only [update_of_ne hu]
      · simpa [hstage, Stage.service] using h.services _ _ hc
  | remove hc hstage hne hphase =>
      refine h.move hc hqueue (by simp [Phase.call, Stage.call]) ?_ ?_
      · intro u hu
        simp only [update_of_ne hu]
      · simpa [hstage, Stage.service] using h.services _ _ hc
  | @added t c cmd hc hphase hroom =>
      have hstage := Stage.eq_add ((h.call_eq hc).symm.trans (by rw [hphase]; rfl))
      refine h.move hc hqueue (by simp [Phase.call, Stage.call]) ?_ ?_
      · intro u hu
        simp only [update_of_ne hu, Phase.call_notify]
      · simpa [hstage, Stage.service] using h.services _ _ hc
  | @removed t c hc hphase hne =>
      have hstage := Stage.eq_remove ((h.call_eq hc).symm.trans (by rw [hphase]; rfl))
      have hservice := h.services _ _ hc
      rw [hstage] at hservice
      refine h.move hc hqueue (by simp [Phase.call]) ?_ ?_
      · intro u hu
        simp only [update_of_ne hu, Phase.call_notify]
      · rw [Stage.service_afterRemove]
        exact hservice
  | asleep hc hphase hguard => exact h.rephase hqueue (by rw [hphase]; rfl)
  | woken hphase => exact h.rephase hqueue (by rw [hphase]; rfl)
  | report hc hstage =>
      refine h.move hc hqueue ?_ (fun _ _ => rfl) ?_
      · exact (h.call_eq hc).trans (by rw [hstage]; rfl)
      · simpa [hstage, Stage.service] using h.services _ _ hc

/-! ### The numbers of the commands -/

/-- The command of a `JOINT_TRAJ_PT`. -/
def Job.IsTrajPt (cmd : Job) : Prop := cmd.command.command_type = 1

/-- The commands have the numbers that they were given when they were received. -/
structure Numbered (s : Server ρ) : Prop where
  pending : ∀ t c cmd, s.connections t = some c → c.stage = .add cmd →
    cmd.connection = t ∧ cmd.packet + 1 = c.packets ∧
      (cmd.command.command_type = 0 ∨ cmd.IsTrajPt)
  added : ∀ cmd ∈ added s.queue.log, (cmd.command.command_type = 0 ∨ cmd.IsTrajPt) ∧
    ∃ c, s.connections cmd.connection = some c ∧ c.service_type_ = .TRAJECTORY_STREAMING ∧
      cmd.packet < c.packets ∧ ∀ cmd', c.stage = .add cmd' → cmd.packet < cmd'.packet
  nodup : (BoundedBuffer.added s.queue.log).Nodup

/-- A command has one of two types. -/
theorem readPacket_command_type {r : Receive} {task_id : Word} {command : RobotCommand}
    (h : (readPacket types r task_id).1 = some command) :
    command.command_type = 0 ∨ command.command_type = 1 := by
  simp only [readPacket, readBody] at h
  split_ifs at h
  · obtain rfl := Option.some.inj h
    exact .inl rfl
  · obtain rfl := Option.some.inj h
    exact .inr rfl

theorem Numbered.init : Numbered (Server.init : Server ρ) :=
  ⟨fun _ _ _ h => absurd h (by simp [Server.init]), fun _ h => absurd h (List.not_mem_nil),
    List.nodup_nil⟩

/-- A thread moves on, perhaps with a new command: the commands that were added keep their numbers. -/
theorem Numbered.keep (h : Numbered s) {t : ℕ} {c : Connection ρ} (c' : Connection ρ)
    (hc : s.connections t = some c) (hservice : c'.service_type_ = c.service_type_)
    (hpackets : c.packets ≤ c'.packets)
    (hstage : ∀ cmd', c'.stage = .add cmd' → c.packets ≤ cmd'.packet) {cmd : Job}
    (hcmd : cmd ∈ BoundedBuffer.added s.queue.log) :
    (cmd.command.command_type = 0 ∨ cmd.IsTrajPt) ∧
      ∃ d, (s.move t c').connections cmd.connection = some d ∧
        d.service_type_ = .TRAJECTORY_STREAMING ∧ cmd.packet < d.packets ∧
          ∀ cmd', d.stage = .add cmd' → cmd.packet < cmd'.packet := by
  obtain ⟨htype, d, hd, hstream, hpacket, hbefore⟩ := h.added cmd hcmd
  refine ⟨htype, ?_⟩
  by_cases ht : cmd.connection = t
  · obtain rfl : d = c := Option.some.inj (hd.symm.trans (ht ▸ hc))
    rw [ht]
    refine ⟨c', Server.move_self, hservice.trans hstream, hpacket.trans_le hpackets, ?_⟩
    exact fun cmd' hadd => hpacket.trans_le (hstage cmd' hadd)
  · exact ⟨d, (Server.move_of_ne ht).trans hd, hstream, hpacket, hbefore⟩

/-- A thread moves on without a new command. -/
theorem Numbered.move (h : Numbered s) {t : ℕ} {c : Connection ρ} {stage : Stage}
    {current_task_id_ : Word} {q : BoundedBuffer.State ℕ Job} {r : List Report}
    (hc : s.connections t = some c) (hstage : ∀ cmd, stage ≠ .add cmd)
    (hlog : BoundedBuffer.added q.log = BoundedBuffer.added s.queue.log) :
    Numbered { s.move t { c with stage, current_task_id_ } with queue := q, reports := r } := by
  refine ⟨fun u d cmd hd hadd => ?_, fun cmd hcmd => ?_, by simpa only [hlog] using h.nodup⟩
  · rcases Server.move_eq_some hd with ⟨-, rfl⟩ | ⟨-, hd⟩
    · exact absurd hadd (hstage cmd)
    · exact h.pending u d cmd hd hadd
  · rw [hlog] at hcmd
    exact h.keep { c with stage, current_task_id_ } hc rfl le_rfl
      (fun cmd' hadd => absurd hadd (hstage cmd')) hcmd

theorem Stage.ne_add_of_call {stage : Stage} (h : stage.call = none) (cmd : Job) :
    stage ≠ .add cmd := by
  rintro rfl
  exact absurd h (by simp [Stage.call])

/-- **The numbers are kept.** -/
theorem Numbered.moves (h : Numbered s) (hsync : Synced s) (hmoves : Moves types s a s') :
    Numbered s' := by
  cases hmoves with
  | accept robot service_type raw =>
      refine ⟨fun u d cmd hd hadd => ?_, fun cmd hcmd => ?_, h.nodup⟩
      · rcases Server.move_eq_some hd with ⟨-, rfl⟩ | ⟨-, hd⟩
        · cases service_type
          all_goals exact absurd hadd (by simp [ServiceType.start])
        · exact h.pending u d cmd hd hadd
      · obtain ⟨htype, d, hd, hrest⟩ := h.added cmd hcmd
        have hne : cmd.connection ≠ s.accepted := Nat.ne_of_lt (hsync.lt_accepted hd)
        exact ⟨htype, d, (Server.move_of_ne hne).trans hd, hrest⟩
  | go stage id hc hcall hcall' hservice hjob =>
      exact h.move (q := s.queue) hc (Stage.ne_add_of_call hcall') rfl
  | @receive t c r command id hc hstage hread hphase =>
      refine ⟨fun u d cmd hd hadd => ?_, fun cmd hcmd => ?_, h.nodup⟩
      · rcases Server.move_eq_some hd with ⟨rfl, rfl⟩ | ⟨-, hd⟩
        · obtain rfl := Stage.add.inj hadd
          exact ⟨rfl, rfl, readPacket_command_type hread⟩
        · exact h.pending u d cmd hd hadd
      · refine h.keep { c with
          current_task_id_ := id, stage := .add ⟨t, c.packets, command⟩, packets := c.packets + 1 }
            hc rfl (Nat.le_succ c.packets) (fun cmd' hadd => ?_) hcmd
        obtain rfl := Stage.add.inj hadd
        exact le_rfl
  | remove hc hstage hne hphase => exact h.move hc (by simp) rfl
  | @added t c cmd hc hphase hroom =>
      have hstage := Stage.eq_add ((hsync.call_eq hc).symm.trans (by rw [hphase]; rfl))
      obtain ⟨hconn, hpackets, htype⟩ := h.pending t c cmd hc hstage
      have hservice : c.service_type_ = .TRAJECTORY_STREAMING := by
        simpa [hstage, Stage.service, eq_comm] using hsync.services t c hc
      -- the numbers of the commands of the connection that were added before are smaller
      have hnew : cmd ∉ BoundedBuffer.added s.queue.log := by
        intro hmem
        obtain ⟨-, d, hd, -, -, hbefore⟩ := h.added cmd hmem
        obtain rfl : d = c := Option.some.inj (hd.symm.trans (hconn ▸ hc))
        exact absurd (hbefore cmd hstage) (lt_irrefl _)
      refine ⟨fun u d cmd' hd hadd => ?_, fun cmd' hcmd => ?_, ?_⟩
      · rcases Server.move_eq_some hd with ⟨-, rfl⟩ | ⟨-, hd⟩
        · exact absurd hadd (by simp)
        · exact h.pending u d cmd' hd hadd
      · rw [added_concat_add, List.mem_append, List.mem_singleton] at hcmd
        rcases hcmd with hcmd | rfl
        · exact h.keep { c with stage := .replyHeader } hc rfl le_rfl
            (fun _ hadd => absurd hadd (by simp)) hcmd
        · refine ⟨htype, ?_⟩
          rw [hconn]
          refine ⟨_, Server.move_self, hservice, ?_, fun _ hadd => absurd hadd (by simp)⟩
          exact Nat.lt_of_succ_le hpackets.le
      · rw [added_concat_add, ← List.concat_eq_append]
        exact List.Nodup.concat hnew h.nodup
  | removed hc hphase hne =>
      exact h.move hc (Stage.ne_add_of_call (Stage.call_afterRemove _)) (added_concat_remove _ _)
  | asleep hc hphase hguard => exact ⟨h.pending, h.added, h.nodup⟩
  | woken hphase => exact ⟨h.pending, h.added, h.nodup⟩
  | report hc hstage => exact h.move (q := s.queue) hc (by simp) rfl

/-! ### The commands that are processed -/

/-- The thread of a connection that was not deleted is processing the command. -/
def Processing (s : Server ρ) (t : ℕ) (cmd : Job) : Prop :=
  ∃ c, s.connections t = some c ∧ c.stage.job = some cmd

/-- The commands that were removed are processed by one thread and reported once. -/
structure Processed (s : Server ρ) : Prop where
  processing : ∀ t cmd, Processing s t cmd → cmd ∈ removed s.queue.log ∧ cmd.IsTrajPt
  unique : ∀ t u cmd, Processing s t cmd → Processing s u cmd → t = u
  reported : ∀ e ∈ s.reports, e.cmd ∈ removed s.queue.log ∧ e.cmd.IsTrajPt ∧
    e.result = ⟨e.cmd.command.task_id, 0, 0⟩ ∧ ∀ t, ¬Processing s t e.cmd
  nodup : (s.reports.map Report.cmd).Nodup
  service : ∀ e ∈ s.reports, ∃ c, s.connections e.connection = some c ∧
    c.service_type_ = .ROBOT_STATE

theorem Processed.init : Processed (Server.init : Server ρ) :=
  ⟨fun _ _ ⟨_, h, _⟩ => absurd h (by simp [Server.init]),
    fun _ _ _ ⟨_, h, _⟩ => absurd h (by simp [Server.init]),
    fun _ h => absurd h (List.not_mem_nil), List.nodup_nil, fun _ h => absurd h (List.not_mem_nil)⟩

section Moving

variable {t u : ℕ} {c c' : Connection ρ} {cmd : Job} {q : BoundedBuffer.State ℕ Job}
  {r : List Report}

theorem processing_move_self :
    Processing { s.move t c with queue := q, reports := r } t cmd ↔ c.stage.job = some cmd := by
  refine ⟨fun ⟨d, hd, hjob⟩ => ?_, fun hjob => ⟨c, Server.move_self, hjob⟩⟩
  obtain rfl : c = d := Option.some.inj (Server.move_self.symm.trans hd)
  exact hjob

theorem processing_move_of_ne (hu : u ≠ t) :
    Processing { s.move t c with queue := q, reports := r } u cmd ↔ Processing s u cmd := by
  refine exists_congr fun d => and_congr_left ?_
  intro _
  exact Eq.congr_left (Server.move_of_ne hu)

/-- A thread that keeps its command or drops it gets no other. -/
theorem Processing.of_move (hc : s.connections t = some c)
    (hjob : ∀ cmd, c'.stage.job = some cmd → c.stage.job = some cmd)
    (h : Processing { s.move t c' with queue := q, reports := r } u cmd) : Processing s u cmd := by
  by_cases hu : u = t
  · subst hu
    exact ⟨c, hc, hjob cmd (processing_move_self.1 h)⟩
  · exact (processing_move_of_ne hu).1 h

end Moving

/-- No thread gets a command to process. -/
theorem Processed.mono (h : Processed s) (hreports : s'.reports = s.reports)
    (hback : ∀ u cmd, Processing s' u cmd → Processing s u cmd)
    (hlog : ∀ cmd ∈ removed s.queue.log, cmd ∈ removed s'.queue.log)
    (hservice : ∀ u c, s.connections u = some c →
      ∃ c', s'.connections u = some c' ∧ c'.service_type_ = c.service_type_) :
    Processed s' := by
  refine ⟨fun u cmd hu => ?_, fun u v cmd hu hv => ?_, fun e he => ?_, ?_, fun e he => ?_⟩
  · obtain ⟨hmem, htype⟩ := h.processing u cmd (hback u cmd hu)
    exact ⟨hlog cmd hmem, htype⟩
  · exact h.unique u v cmd (hback u cmd hu) (hback v cmd hv)
  · obtain ⟨hmem, htype, hresult, hnot⟩ := h.reported e (hreports ▸ he)
    exact ⟨hlog e.cmd hmem, htype, hresult, fun u hu => hnot u (hback u e.cmd hu)⟩
  · rw [hreports]
    exact h.nodup
  · obtain ⟨d, hd, hstate⟩ := h.service e (hreports ▸ he)
    obtain ⟨d', hd', hsame⟩ := hservice e.connection d hd
    exact ⟨d', hd', hsame.trans hstate⟩

theorem Server.service_move {t u : ℕ} {c d : Connection ρ} (c' : Connection ρ)
    (hc : s.connections t = some c) (hservice : c'.service_type_ = c.service_type_)
    (hd : s.connections u = some d) :
    ∃ d', (s.move t c').connections u = some d' ∧ d'.service_type_ = d.service_type_ := by
  by_cases hu : u = t
  · obtain rfl : d = c := Option.some.inj (hd.symm.trans (hu ▸ hc))
    rw [hu]
    exact ⟨c', Server.move_self, hservice⟩
  · exact ⟨d, (Server.move_of_ne hu).trans hd, rfl⟩

/-- A thread moves on without a new command to process. -/
theorem Processed.move (h : Processed s) {t : ℕ} {c c' : Connection ρ}
    {q : BoundedBuffer.State ℕ Job} (hc : s.connections t = some c)
    (hservice : c'.service_type_ = c.service_type_)
    (hjob : ∀ cmd, c'.stage.job = some cmd → c.stage.job = some cmd)
    (hlog : ∀ cmd ∈ removed s.queue.log, cmd ∈ removed q.log) :
    Processed { s.move t c' with queue := q } :=
  h.mono rfl (fun _ _ hu => Processing.of_move (r := s.reports) hc hjob hu) hlog
    fun _ _ hd => Server.service_move c' hc hservice hd

theorem Stage.job_afterRemove {cmd cmd' : Job} (h : (Stage.afterRemove cmd).job = some cmd') :
    cmd' = cmd ∧ cmd.command.command_type ≠ 0 := by
  rw [Stage.afterRemove] at h
  split_ifs at h with htype
  · exact ⟨(Option.some.inj h).symm, htype⟩
  · simp [Stage.job] at h

theorem Stage.job_afterRemove_self {cmd : Job} (h : cmd.IsTrajPt) :
    (Stage.afterRemove cmd).job = some cmd := by
  have htype : cmd.command.command_type ≠ 0 := by
    rw [show cmd.command.command_type = 1 from h]
    decide
  rw [Stage.afterRemove, if_pos htype]
  rfl

/-- The commands are removed once. -/
theorem Synced.removed_nodup (hsync : Synced s) (hnum : Numbered s) :
    (removed s.queue.log ++ s.queue.shared).Nodup :=
  (commandQueue_keeps_items hsync.queue).1.nodup_iff.2 hnum.nodup

/-- A thread takes a command that was not removed before. -/
theorem Processed.take (h : Processed s) {t : ℕ} {c : Connection ρ} {cmd : Job}
    {q : BoundedBuffer.State ℕ Job} (hc : s.connections t = some c)
    (hnot : cmd ∉ removed s.queue.log) (htype : cmd.command.command_type = 0 ∨ cmd.IsTrajPt)
    (hlog : removed q.log = removed s.queue.log ++ [cmd]) :
    Processed { s.move t { c with stage := .afterRemove cmd } with queue := q } := by
  have hback : ∀ u cmd', Processing { s.move t { c with stage := .afterRemove cmd } with
      queue := q } u cmd' → (u = t ∧ cmd' = cmd ∧ cmd.IsTrajPt) ∨ Processing s u cmd' := by
    intro u cmd' hu
    by_cases hut : u = t
    · subst hut
      obtain ⟨rfl, hne⟩ := Stage.job_afterRemove (processing_move_self (r := s.reports).1 hu)
      exact .inl ⟨rfl, rfl, htype.resolve_left hne⟩
    · exact .inr ((processing_move_of_ne (r := s.reports) hut).1 hu)
  have hfresh : ∀ u, ¬Processing s u cmd := fun u hu => hnot (h.processing u cmd hu).1
  refine ⟨fun u cmd' hu => ?_, fun u v cmd' hu hv => ?_, fun e he => ?_, h.nodup,
    fun e he => ?_⟩
  · rw [hlog, List.mem_append, List.mem_singleton]
    rcases hback u cmd' hu with ⟨-, rfl, htype⟩ | hold
    · exact ⟨.inr rfl, htype⟩
    · exact ⟨.inl (h.processing u cmd' hold).1, (h.processing u cmd' hold).2⟩
  · rcases hback u cmd' hu with ⟨rfl, rfl, -⟩ | hu'
    · rcases hback v cmd' hv with ⟨rfl, -⟩ | hv'
      · rfl
      · exact absurd hv' (hfresh v)
    · rcases hback v cmd' hv with ⟨-, rfl, -⟩ | hv'
      · exact absurd hu' (hfresh u)
      · exact h.unique u v cmd' hu' hv'
  · obtain ⟨hmem, htype, hresult, hfree⟩ := h.reported e he
    rw [hlog, List.mem_append]
    refine ⟨.inl hmem, htype, hresult, fun u hu => ?_⟩
    rcases hback u e.cmd hu with ⟨-, heq, -⟩ | hold
    · exact hnot (heq ▸ hmem)
    · exact hfree u hold
  · obtain ⟨d, hd, hstate⟩ := h.service e he
    obtain ⟨d', hd', hsame⟩ := Server.service_move { c with stage := .afterRemove cmd } hc rfl hd
    exact ⟨d', hd', hsame.trans hstate⟩

/-- A thread has reported its command. -/
theorem Processed.report (h : Processed s) (hsync : Synced s) {t : ℕ} {c : Connection ρ} {cmd : Job}
    (hc : s.connections t = some c) (hstage : c.stage = .result cmd) :
    Processed { s.move t { c with stage := .statusHeader 0 } with
      reports := s.reports ++ [⟨t, cmd, ⟨cmd.command.task_id, 0, 0⟩⟩] } := by
  have ht : Processing s t cmd := ⟨c, hc, by rw [hstage]; rfl⟩
  obtain ⟨hmem, htype⟩ := h.processing t cmd ht
  have hstate : c.service_type_ = .ROBOT_STATE := by
    simpa [hstage, Stage.service, eq_comm] using hsync.services t c hc
  have hback : ∀ u cmd', Processing { s.move t { c with stage := .statusHeader 0 } with
      reports := s.reports ++ [⟨t, cmd, ⟨cmd.command.task_id, 0, 0⟩⟩] } u cmd' →
        u ≠ t ∧ Processing s u cmd' := by
    intro u cmd' hu
    by_cases hut : u = t
    · subst hut
      exact absurd (processing_move_self (q := s.queue).1 hu) (by simp [Stage.job])
    · exact ⟨hut, (processing_move_of_ne (q := s.queue) hut).1 hu⟩
  refine ⟨fun u cmd' hu => ?_, fun u v cmd' hu hv => ?_, fun e he => ?_, ?_, fun e he => ?_⟩
  · exact h.processing u cmd' (hback u cmd' hu).2
  · exact h.unique u v cmd' (hback u cmd' hu).2 (hback v cmd' hv).2
  · rw [List.mem_append, List.mem_singleton] at he
    rcases he with he | rfl
    · obtain ⟨hmem', htype', hresult, hfree⟩ := h.reported e he
      exact ⟨hmem', htype', hresult, fun u hu => hfree u (hback u e.cmd hu).2⟩
    · refine ⟨hmem, htype, rfl, fun u hu => ?_⟩
      obtain ⟨hut, hu⟩ := hback u cmd hu
      exact hut (h.unique u t cmd hu ht)
  · rw [List.map_append, List.map_singleton, ← List.concat_eq_append]
    refine List.Nodup.concat (fun hreported => ?_) h.nodup
    obtain ⟨e, he, rfl⟩ := List.mem_map.1 hreported
    exact (h.reported e he).2.2.2 t ht
  · rw [List.mem_append, List.mem_singleton] at he
    rcases he with he | rfl
    · obtain ⟨d, hd, hstate'⟩ := h.service e he
      obtain ⟨d', hd', hsame⟩ := Server.service_move { c with stage := .statusHeader 0 } hc rfl hd
      exact ⟨d', hd', hsame.trans hstate'⟩
    · exact ⟨_, Server.move_self, hstate⟩

/-- **The commands are processed and reported once.** -/
theorem Processed.moves (h : Processed s) (hsync : Synced s) (hnum : Numbered s)
    (hmoves : Moves types s a s') : Processed s' := by
  cases hmoves with
  | accept robot service_type raw =>
      refine h.mono rfl (fun u cmd ⟨d, hd, hjob⟩ => ?_) (fun _ hmem => hmem) fun u d hd => ?_
      · rcases Server.move_eq_some hd with ⟨-, rfl⟩ | ⟨-, hd⟩
        · cases service_type
          all_goals exact absurd hjob (by simp [ServiceType.start, Stage.job])
        · exact ⟨d, hd, hjob⟩
      · have hne : u ≠ s.accepted := Nat.ne_of_lt (hsync.lt_accepted hd)
        exact ⟨d, (Server.move_of_ne hne).trans hd, rfl⟩
  | go stage id hc hcall hcall' hservice hjob =>
      refine h.move (q := s.queue) hc rfl (fun cmd hcmd => ?_) fun _ hmem => hmem
      rcases hjob with hsame | ⟨-, hnone⟩
      · exact hsame.symm.trans hcmd
      · exact absurd (hnone.symm.trans hcmd) (by simp)
  | receive id hc hstage hread hphase =>
      exact h.move hc rfl (fun _ hcmd => absurd hcmd (by simp [Stage.job])) fun _ hmem => hmem
  | remove hc hstage hne hphase =>
      exact h.move hc rfl (fun _ hcmd => absurd hcmd (by simp [Stage.job])) fun _ hmem => hmem
  | added hc hphase hroom =>
      refine h.move hc rfl (fun _ hcmd => absurd hcmd (by simp [Stage.job])) ?_
      intro _ hmem
      rwa [removed_concat_add]
  | @removed t c hc hphase hne =>
      have hshared := List.getLast_mem hne
      have hnot : (popBack s.queue.shared hne).2 ∉ removed s.queue.log := fun hmem =>
        (List.nodup_append.1 (hsync.removed_nodup hnum)).2.2 _ hmem _ hshared rfl
      have hadded : (popBack s.queue.shared hne).2 ∈ BoundedBuffer.added s.queue.log :=
        (commandQueue_keeps_items hsync.queue).1.mem_iff.1 (List.mem_append_right _ hshared)
      exact h.take hc hnot (hnum.added _ hadded).1 (removed_concat_remove _ _)
  | asleep hc hphase hguard => exact ⟨h.processing, h.unique, h.reported, h.nodup, h.service⟩
  | woken hphase => exact ⟨h.processing, h.unique, h.reported, h.nodup, h.service⟩
  | report hc hstage => exact h.report hsync hc hstage

/-! ### Every server -/

/-- **What holds of every server.** -/
structure Inv (s : Server ρ) : Prop where
  synced : Synced s
  numbered : Numbered s
  processed : Processed s

theorem Inv.init : Inv (Server.init : Server ρ) :=
  ⟨Synced.init, Numbered.init, Processed.init⟩

theorem Inv.step (h : Inv s) (hstep : step types s a = some s') : Inv s' := by
  have hmoves := moves_of_step hstep
  exact ⟨h.synced.moves hmoves, h.numbered.moves h.synced hmoves,
    h.processed.moves h.synced h.numbered hmoves⟩

theorem Inv.of_reachable (h : Reachable (RtpSimulator.step types) Server.init s) : Inv s :=
  Reachable.inv Inv (fun _ _ _ hs hstep => hs.step hstep) Inv.init h

end RtpSimulator
