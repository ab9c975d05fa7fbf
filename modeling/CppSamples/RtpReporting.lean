/-
**Commands that are lost in the robot simulator.**

A thread of the state port takes a command from the queue, keeps it in a local variable and writes
the header and the body of its result.  When one of these two writes throws, the exception is
caught, the service is deleted, and the command is gone.  Everything else is as it should be: a
command is always in the queue, with one thread, or in one result.

Main definitions:

* `RtpSimulator.ExactlyOnce` — every command of a `JOINT_TRAJ_PT` is in one place;
* `RtpSimulator.Careful` — no write fails on a thread that processes a command;
* `RtpSimulator.handover` — the steps until a command is taken by a thread of a state port.

Main results:

* `RtpSimulator.exactlyOnce_iff_covered` — only the commands that were removed can be lost;
* `RtpSimulator.exactlyOnce_iff` — **the runs in which no command is lost** are those in which no
  write fails on a thread that processes a command;
* `RtpSimulator.command_lost` — a run that loses a command.
-/

import CppSamples.RtpFraming
import CppSamples.RtpServerInvariant

set_option relaxedAutoImplicit false
set_option autoImplicit false

namespace RtpSimulator

open TransitionSystem Monitor BoundedBuffer Function
open scoped List

variable {ρ : Type} {types : MsgType} {s s' : Server ρ} {a : Event ρ}

/-- Every command of a `JOINT_TRAJ_PT` that was added to the queue is either still in the queue, or
being processed by one thread, or in one result, which carries its task id. -/
def ExactlyOnce (s : Server ρ) : Prop :=
  ∀ cmd ∈ added s.queue.log, cmd.IsTrajPt →
    (s.queue.shared.count cmd = 1 ∧ (∀ t, ¬Processing s t cmd) ∧
        (s.reports.map Report.cmd).count cmd = 0) ∨
      (s.queue.shared.count cmd = 0 ∧ (∃! t, Processing s t cmd) ∧
        (s.reports.map Report.cmd).count cmd = 0) ∨
      (s.queue.shared.count cmd = 0 ∧ (∀ t, ¬Processing s t cmd) ∧
        (s.reports.map Report.cmd).count cmd = 1 ∧
        ∀ e ∈ s.reports, e.cmd = cmd → e.result.task_id = cmd.command.task_id)

/-- The commands that were removed from the queue are processed or reported. -/
def Covered (s : Server ρ) : Prop :=
  ∀ cmd ∈ removed s.queue.log, cmd.IsTrajPt →
    (∃ t, Processing s t cmd) ∨ cmd ∈ s.reports.map Report.cmd

/-- No write fails on a thread that processes a command. -/
def Careful (s : Server ρ) (a : Event ρ) : Prop := ∀ t cmd, a = .fail t → ¬Processing s t cmd

/-- **Only the commands that were removed can be lost.** -/
theorem exactlyOnce_iff_covered (h : Inv s) : ExactlyOnce s ↔ Covered s := by
  obtain ⟨hperm, -⟩ := commandQueue_keeps_items h.synced.queue
  have hnodup := h.synced.removed_nodup h.numbered
  obtain ⟨-, hshared, hdisjoint⟩ := List.nodup_append.1 hnodup
  have hreports : ∀ cmd, cmd ∈ s.reports.map Report.cmd →
      cmd ∈ removed s.queue.log ∧ ∀ t, ¬Processing s t cmd := by
    intro cmd hcmd
    obtain ⟨e, he, rfl⟩ := List.mem_map.1 hcmd
    obtain ⟨hmem, -, -, hfree⟩ := h.processed.reported e he
    exact ⟨hmem, hfree⟩
  constructor
  · intro hone cmd hcmd htype
    have hadded := hperm.mem_iff.1 (List.mem_append_left _ hcmd)
    rcases hone cmd hadded htype with ⟨hcount, -⟩ | ⟨-, ⟨t, ht, -⟩, -⟩ | ⟨-, -, hcount, -⟩
    · have hmem := List.count_pos_iff.1 (hcount ▸ Nat.one_pos)
      exact absurd rfl (hdisjoint cmd hcmd cmd hmem)
    · exact .inl ⟨t, ht⟩
    · exact .inr (List.count_pos_iff.1 (hcount ▸ Nat.one_pos))
  · intro hcovered cmd hadded htype
    rcases List.mem_append.1 (hperm.mem_iff.2 hadded) with hcmd | hcmd
    · have hnot : cmd ∉ s.queue.shared := fun hmem => hdisjoint cmd hcmd cmd hmem rfl
      rcases hcovered cmd hcmd htype with ⟨t, ht⟩ | hmem
      · refine .inr (.inl ⟨List.count_eq_zero.2 hnot, ⟨t, ht, fun u hu => ?_⟩, ?_⟩)
        · exact h.processed.unique u t cmd hu ht
        · exact List.count_eq_zero.2 fun hmem => (hreports cmd hmem).2 t ht
      · refine .inr (.inr ⟨List.count_eq_zero.2 hnot, (hreports cmd hmem).2, ?_, ?_⟩)
        · exact List.count_eq_one_of_mem h.processed.nodup hmem
        · rintro e he rfl
          rw [(h.processed.reported e he).2.2.1]
    · have hnot : cmd ∉ removed s.queue.log := fun hmem => hdisjoint cmd hmem cmd hcmd rfl
      refine .inl ⟨List.count_eq_one_of_mem hshared hcmd, fun t ht => ?_, ?_⟩
      · exact hnot (h.processed.processing t cmd ht).1
      · exact List.count_eq_zero.2 fun hmem => hnot (hreports cmd hmem).1

theorem Covered.init : Covered (Server.init : Server ρ) :=
  fun _ hcmd => absurd hcmd (List.not_mem_nil)

/-- A thread that was processing no command moves on. -/
theorem Covered.move (h : Covered s) {t : ℕ} {c c' : Connection ρ}
    {q : BoundedBuffer.State ℕ Job} (hc : s.connections t = some c)
    (hjob : ∀ cmd, c.stage.job = some cmd → c'.stage.job = some cmd)
    (hlog : ∀ cmd ∈ removed q.log, cmd.IsTrajPt →
      cmd ∈ removed s.queue.log ∨ c'.stage.job = some cmd) :
    Covered { s.move t c' with queue := q } := by
  have hself : ∀ cmd, c'.stage.job = some cmd →
      Processing { s.move t c' with queue := q } t cmd :=
    fun cmd hcmd => (processing_move_self (r := s.reports)).2 hcmd
  intro cmd hcmd htype
  rcases hlog cmd hcmd htype with hold | hnew
  · rcases h cmd hold htype with ⟨u, hu⟩ | hmem
    · refine .inl ⟨u, ?_⟩
      by_cases hut : u = t
      · obtain ⟨d, hd, hdjob⟩ := hu
        obtain rfl : d = c := Option.some.inj (hd.symm.trans (hut ▸ hc))
        exact hut ▸ hself cmd (hjob cmd hdjob)
      · exact (processing_move_of_ne (r := s.reports) hut).2 hu
    · exact .inr hmem
  · exact .inl ⟨t, hself cmd hnew⟩

/-- **A careful step loses no command.** -/
theorem Covered.moves (h : Covered s) (hsync : Synced s) (hcareful : Careful s a)
    (hmoves : Moves types s a s') : Covered s' := by
  cases hmoves with
  | accept robot service_type raw =>
      intro cmd hcmd htype
      rcases h cmd hcmd htype with ⟨u, d, hd, hjob⟩ | hmem
      · have hne : u ≠ s.accepted := Nat.ne_of_lt (hsync.lt_accepted hd)
        exact .inl ⟨u, d, (Server.move_of_ne hne).trans hd, hjob⟩
      · exact .inr hmem
  | @go _ t c stage id hc hcall hcall' hservice hjob =>
      refine h.move (q := s.queue) hc (fun cmd hcmd => ?_) fun _ hmem _ => .inl hmem
      rcases hjob with hsame | ⟨ha, -⟩
      · exact hsame.trans hcmd
      · exact absurd ⟨c, hc, hcmd⟩ (hcareful t cmd ha)
  | receive id hc hstage hread hphase =>
      refine h.move hc (fun cmd hcmd => ?_) fun _ hmem _ => .inl hmem
      exact absurd hcmd (by simp [hstage, Stage.job])
  | remove hc hstage hne hphase =>
      refine h.move hc (fun cmd hcmd => ?_) fun _ hmem _ => .inl hmem
      exact absurd hcmd (by simp [hstage, Stage.job])
  | @added t c cmd hc hphase hroom =>
      have hstage := Stage.eq_add ((hsync.call_eq hc).symm.trans (by rw [hphase]; rfl))
      refine h.move hc (fun cmd hcmd => ?_) fun cmd hmem _ => .inl ?_
      · exact absurd hcmd (by simp [hstage, Stage.job])
      · rwa [removed_concat_add] at hmem
  | @removed t c hc hphase hne =>
      have hstage := Stage.eq_remove ((hsync.call_eq hc).symm.trans (by rw [hphase]; rfl))
      refine h.move hc (fun cmd hcmd => ?_) fun cmd hmem htype => ?_
      · exact absurd hcmd (by simp [hstage, Stage.job])
      · rw [removed_concat_remove, List.mem_append, List.mem_singleton] at hmem
        rcases hmem with hmem | rfl
        · exact .inl hmem
        · exact .inr (Stage.job_afterRemove_self htype)
  | asleep hc hphase hguard => exact h
  | woken hphase => exact h
  | @report t c cmd hc hstage =>
      intro cmd' hcmd htype
      rw [List.map_append, List.mem_append]
      rcases h cmd' hcmd htype with ⟨u, d, hd, hjob⟩ | hmem
      · by_cases hut : u = t
        · obtain rfl : d = c := Option.some.inj (hd.symm.trans (hut ▸ hc))
          rw [hstage] at hjob
          obtain rfl := Option.some.inj hjob
          exact .inr (.inr (List.mem_singleton_self _))
        · exact .inl ⟨u, d, (Server.move_of_ne hut).trans hd, hjob⟩
      · exact .inr (.inl hmem)

/-- **A failed write loses the command of its thread.** -/
theorem not_covered_of_fail (h : Inv s) {t : ℕ} {cmd : Job} (ht : Processing s t cmd)
    (hstep : step types s (.fail t) = some s') : ¬Covered s' := by
  intro hcovered
  obtain ⟨hmem, htype⟩ := h.processed.processing t cmd ht
  simp only [step, Option.bind_eq_bind, Option.bind_eq_some_iff] at hstep
  obtain ⟨c, hc, hstep⟩ := hstep
  obtain rfl := Option.some.inj (Option.ite_none_right_eq_some.1 hstep).2
  rcases hcovered cmd hmem htype with ⟨u, hu⟩ | hreported
  · by_cases hut : u = t
    · subst hut
      obtain ⟨d, hd, hjob⟩ := hu
      obtain rfl := Option.some.inj (Server.move_self.symm.trans hd)
      exact absurd hjob (by simp [Stage.job])
    · have hold := (processing_move_of_ne (q := s.queue) (r := s.reports) hut).1 hu
      exact hut (h.processed.unique u t cmd hold ht)
  · obtain ⟨e, he, rfl⟩ := List.mem_map.1 hreported
    exact (h.processed.reported e he).2.2.2 t ht

/-- A careful run keeps every command. -/
theorem exactlyOnce_of_careful {as : List (Event ρ)}
    (hcareful : Along (step types) Careful Server.init as)
    (hrun : run (step types) Server.init as = some s) : ExactlyOnce s := by
  have hinv : Inv s ∧ Covered s := by
    refine run_inv (fun s => Inv s ∧ Covered s) ?_ ⟨Inv.init, Covered.init⟩ hcareful hrun
    rintro s a s' ⟨hinv, hcovered⟩ hcareful hstep
    exact ⟨hinv.step hstep, hcovered.moves hinv.synced hcareful (moves_of_step hstep)⟩
  exact (exactlyOnce_iff_covered hinv.1).2 hinv.2

/-- A run that keeps every command is careful. -/
theorem careful_of_exactlyOnce {as : List (Event ρ)}
    (hrun : run (step types) Server.init as = some s)
    (hone : ∀ bs t, bs <+: as → run (step types) Server.init bs = some t → ExactlyOnce t) :
    Along (step types) Careful Server.init as := by
  induction as using List.reverseRecOn generalizing s with
  | nil => trivial
  | append_singleton as a ih =>
      obtain ⟨t, ht, hstep⟩ := run_concat_eq_some.1 hrun
      have hcareful := ih ht fun bs u hbs => hone bs u (hbs.trans (List.prefix_append as [a]))
      refine hcareful.concat ?_
      intro u hu
      obtain rfl : t = u := Option.some.inj (ht.symm.trans hu)
      rintro t' cmd rfl hprocessing
      have hinv := Inv.of_reachable ⟨as, ht⟩
      refine not_covered_of_fail hinv hprocessing hstep ?_
      exact (exactlyOnce_iff_covered (hinv.step hstep)).1 (hone _ s List.prefix_rfl hrun)

/-! ### A command on its way -/

/-- A `JOINT_TRAJ_PT` that arrives in one receive. -/
def pointReceive (types : MsgType) (sequence_id : Word) : Receive :=
  ⟨(Packet.jointTrajPt 0 0 sequence_id ⟨List.replicate 48 0, rfl⟩).encode types, fun _ => 0,
    fun _ => 0⟩

theorem readPacket_pointReceive (types : MsgType) (sequence_id task_id : Word) :
    readPacket types (pointReceive types sequence_id) task_id =
      (some ⟨task_id, sequence_id, 1⟩, task_id) := by
  have hcarries := carries_encode types
    (.jointTrajPt 0 0 sequence_id ⟨List.replicate 48 0, rfl⟩)
  have htype : (pointReceive types sequence_id).msgType = types.JOINT_TRAJ_PT :=
    msgType_of_holds hcarries.1
  obtain ⟨id, hread, hid⟩ := readPacket_jointTrajPt htype task_id
  rw [hread, (hid sequence_id).2 hcarries.2]

/-- The server after a `JOINT_TRAJ_PT` of the robot `r` has arrived on its first connection. -/
def received (r : ρ) : Server ρ :=
  { (Server.init.move 0 ⟨r, .TRAJECTORY_STREAMING, 0, .receive, 0⟩).move 0
      ⟨r, .TRAJECTORY_STREAMING, 0, .add ⟨0, 0, ⟨0, 7, 1⟩⟩, 1⟩ with
    queue := { (State.init [] : BoundedBuffer.State ℕ Job) with
      phase := update (fun _ => .idle) 0 (.entering (.add ⟨0, 0, ⟨0, 7, 1⟩⟩)) }
    accepted := 1 }

/-- A receive that brings a command. -/
theorem step_receive_eq {t : ℕ} {r : Receive} {c : Connection ρ} {command : RobotCommand} {id : Word}
    (hc : s.connections t = some c) (hstage : c.stage = .receive)
    (hlen : 1 ≤ r.bytes.length ∧ r.bytes.length ≤ 512)
    (hread : readPacket types r c.current_task_id_ = (some command, id))
    (hphase : s.queue.phase t = .idle) :
    step types s (.receive t r) = some { s.move t { c with
        current_task_id_ := id, stage := .add ⟨t, c.packets, command⟩, packets := c.packets + 1 } with
      queue := { s.queue with
        phase := update s.queue.phase t (.entering (.add ⟨t, c.packets, command⟩)) } } := by
  simp only [step, hc, hstage, hlen, hread, Monitor.step, hphase, Option.bind_eq_bind,
    Option.bind_some, and_self, if_true]

theorem run_received (types : MsgType) (r : ρ) :
    run (step types) Server.init
      [.accept r .TRAJECTORY_STREAMING 0, .receive 0 (pointReceive types 7)] =
        some (received r) := by
  have hlen : (pointReceive types 7).bytes.length = 68 := rfl
  rw [run_cons, step, Option.bind_some, run_cons,
    step_receive_eq (c := ⟨r, .TRAJECTORY_STREAMING, 0, .receive, 0⟩) rfl rfl (by omega)
      (readPacket_pointReceive types 7 0) rfl]
  rfl

/-- The steps until the command of a connection of `r₁` is taken from the queue by one of `r₂`. -/
def handover (types : MsgType) (r₁ r₂ : ρ) : List (Event ρ) :=
  [.accept r₁ .TRAJECTORY_STREAMING 0, .receive 0 (pointReceive types 7)] ++
    ([.enter 0, .accept r₂ .ROBOT_STATE 0] ++ List.replicate 20 (.write 1) ++ [.test 1, .enter 1])

/-- **Any robot may take the command of any other.** -/
theorem exists_run_handover (types : MsgType) (r₁ r₂ : ρ) :
    ∃ s c₀ c₁, run (step types) Server.init (handover types r₁ r₂) = some s ∧
      s.connections 0 = some c₀ ∧ c₀.robot = r₁ ∧ s.connections 1 = some c₁ ∧ c₁.robot = r₂ ∧
      c₁.stage = .resultHeader ⟨0, 0, ⟨0, 7, 1⟩⟩ := by
  rw [handover, run_append, run_received, Option.bind_some]
  exact ⟨_, _, _, rfl, rfl, rfl, rfl, rfl, rfl⟩

/-! ### The runs that lose no command -/

/-- **No command is lost exactly while no write fails on a thread that processes one.** -/
theorem exactlyOnce_iff {as : List (Event ρ)}
    (hrun : run (step types) Server.init as = some s) :
    (∀ bs t, bs <+: as → run (step types) Server.init bs = some t → ExactlyOnce t) ↔
      Along (step types) Careful Server.init as := by
  constructor
  · exact careful_of_exactlyOnce hrun
  · rintro hcareful bs t ⟨cs, rfl⟩ ht
    exact exactlyOnce_of_careful hcareful.of_append ht

/-- A run that hands a command over. -/
theorem exactlyOnce_iff_handover :
    (∃ s : Server Unit, run (step ⟨1, 2, by decide⟩) Server.init
      (handover ⟨1, 2, by decide⟩ () ()) = some s) ∧
    ((∀ bs t, bs <+: handover ⟨1, 2, by decide⟩ () () →
        run (step ⟨1, 2, by decide⟩) Server.init bs = some t → ExactlyOnce t) ↔
      Along (step ⟨1, 2, by decide⟩) Careful Server.init (handover ⟨1, 2, by decide⟩ () ())) := by
  obtain ⟨s, -, -, hs, -⟩ := exists_run_handover ⟨1, 2, by decide⟩ () ()
  exact ⟨⟨s, hs⟩, exactlyOnce_iff hs⟩

/-- **A state connection that fails takes its command with it.** -/
theorem command_lost :
    ¬∀ (types : MsgType) (as : List (Event Unit)) (s : Server Unit),
      run (step types) Server.init as = some s → ExactlyOnce s := by
  intro h
  let types : MsgType := ⟨1, 2, by decide⟩
  obtain ⟨s, -, c, hs, -, -, hc, -, hstage⟩ := exists_run_handover types () ()
  have hfail : step types s (.fail 1) = some (s.move 1 { c with stage := .finished }) := by
    simp only [step, hc, hstage, Option.bind_eq_bind, Option.bind_some]
    rfl
  have hrun := run_concat_eq_some.2 ⟨s, hs, hfail⟩
  have hinv := Inv.of_reachable ⟨_, hs⟩
  have hprocessing : Processing s 1 ⟨0, 0, ⟨0, 7, 1⟩⟩ := ⟨c, hc, by rw [hstage]; rfl⟩
  refine not_covered_of_fail hinv hprocessing hfail ?_
  exact (exactlyOnce_iff_covered (hinv.step hfail)).1 (h types _ _ hrun)

end RtpSimulator
