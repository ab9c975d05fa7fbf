/-
**Commands that reach the wrong robot in the robot simulator.**

Every robot of the configuration has a joints port and a state port of its own, but all of them
share one global `commandQueue`.  A thread of a state port takes whatever command is at the back of
the queue, so the result of a command may be reported on the state port of another robot.

Main definitions:

* `RtpSimulator.Routed` — every result is reported by the robot that was given the command;
* `RtpSimulator.Own` — a thread takes a command of its own robot from the queue.

Main results:

* `RtpSimulator.routed_of_own` — while every thread takes its own commands, nothing goes astray;
* `RtpSimulator.routed_iff` — **the configurations in which nothing can go astray** are those with
  at most one robot;
* `RtpSimulator.result_astray` — two robots.
-/

import CppSamples.RtpReporting

set_option relaxedAutoImplicit false
set_option autoImplicit false

namespace RtpSimulator

open TransitionSystem Monitor BoundedBuffer Function
open scoped List

variable {ρ : Type} {types : MsgType} {s s' : Server ρ} {a : Event ρ}

/-- The robot and the service of the port that a connection was accepted on. -/
def port (s : Server ρ) (t : ℕ) : Option (ρ × ServiceType) :=
  (s.connections t).map fun c => (c.robot, c.service_type_)

/-- A result on the state port of a robot answers a `JOINT_TRAJ_PT` that was received on the joints
port of the same robot. -/
def Routed (s : Server ρ) : Prop :=
  ∀ e ∈ s.reports, (e.cmd ∈ added s.queue.log ∧ e.cmd.IsTrajPt ∧
    e.result.task_id = e.cmd.command.task_id) ∧
    ∃ r, port s e.connection = some (r, .ROBOT_STATE) ∧
      port s e.cmd.connection = some (r, .TRAJECTORY_STREAMING)

/-- A thread that takes a command from the queue takes one of its own robot. -/
def Own (s : Server ρ) (a : Event ρ) : Prop :=
  ∀ t (h : s.queue.shared ≠ []), a = .enter t → s.queue.phase t = .entering .remove →
    (port s (popBack s.queue.shared h).2.connection).map Prod.fst = (port s t).map Prod.fst

/-! ### The ports of the connections -/

theorem port_eq_some {t : ℕ} {r : ρ} {service_type : ServiceType} :
    port s t = some (r, service_type) ↔
      ∃ c, s.connections t = some c ∧ c.robot = r ∧ c.service_type_ = service_type := by
  rw [port, Option.map_eq_some_iff]
  exact exists_congr fun c => and_congr_right fun _ => Prod.mk_inj

theorem port_move {t : ℕ} {c : Connection ρ} (hc : s.connections t = some c) (stage : Stage)
    (current_task_id_ : Word) (packets : ℕ) (u : ℕ) :
    port (s.move t { c with stage, current_task_id_, packets }) u = port s u := by
  by_cases hu : u = t
  · rw [port, port, hu, Server.move_self, hc, Option.map_some, Option.map_some]
  · rw [port, port, Server.move_of_ne hu]

/-- A connection stays with its port. -/
theorem port_of_moves (hsync : Synced s) (hmoves : Moves types s a s') {u : ℕ}
    {p : ρ × ServiceType} (h : port s u = some p) : port s' u = some p := by
  cases hmoves with
  | accept robot service_type raw =>
      obtain ⟨c, hc, -⟩ := Option.map_eq_some_iff.1 h
      have hne : u ≠ s.accepted := Nat.ne_of_lt (hsync.lt_accepted hc)
      exact (congrArg _ (Server.move_of_ne hne)).trans h
  | go _ _ hc => exact (port_move hc _ _ _ u).trans h
  | receive _ hc => exact (port_move hc _ _ _ u).trans h
  | remove hc => exact (port_move hc _ _ _ u).trans h
  | added hc => exact (port_move hc _ _ _ u).trans h
  | removed hc => exact (port_move hc _ _ _ u).trans h
  | asleep | woken => exact h
  | report hc => exact (port_move hc _ _ _ u).trans h

/-! ### Commands of one's own -/

/-- The robot of the state port of `t` is the one that was given the command. -/
def SameRobot (s : Server ρ) (t : ℕ) (cmd : Job) : Prop :=
  ∃ r, port s t = some (r, .ROBOT_STATE) ∧
    port s cmd.connection = some (r, .TRAJECTORY_STREAMING)

/-- The commands that are processed or reported are with the robot they were given to. -/
structure AtHome (s : Server ρ) : Prop where
  processing : ∀ t cmd, Processing s t cmd → SameRobot s t cmd
  reports : ∀ e ∈ s.reports, SameRobot s e.connection e.cmd

/-- A thread gets the commands it processes from the queue. -/
theorem processing_of_moves (hmoves : Moves types s a s') {u : ℕ} {cmd : Job}
    (h : Processing s' u cmd) :
    Processing s u cmd ∨ ∃ hne : s.queue.shared ≠ [], a = .enter u ∧
      s.queue.phase u = .entering .remove ∧ cmd = (popBack s.queue.shared hne).2 := by
  cases hmoves with
  | accept robot service_type raw =>
      obtain ⟨d, hd, hjob⟩ := h
      rcases Server.move_eq_some hd with ⟨-, rfl⟩ | ⟨-, hd⟩
      · cases service_type
        all_goals exact absurd hjob (by simp [ServiceType.start, Stage.job])
      · exact .inl ⟨d, hd, hjob⟩
  | go stage id hc hcall hcall' hservice hjob =>
      refine .inl (Processing.of_move (q := s.queue) (r := s.reports) hc ?_ h)
      intro cmd' hcmd
      rcases hjob with hsame | ⟨-, hnone⟩
      · exact hsame.symm.trans hcmd
      · exact absurd (hnone.symm.trans hcmd) (by simp)
  | receive id hc hstage hread hphase =>
      exact .inl (Processing.of_move hc (fun _ hcmd => absurd hcmd (by simp [Stage.job])) h)
  | remove hc hstage hne hphase =>
      exact .inl (Processing.of_move hc (fun _ hcmd => absurd hcmd (by simp [Stage.job])) h)
  | added hc hphase hroom =>
      exact .inl (Processing.of_move hc (fun _ hcmd => absurd hcmd (by simp [Stage.job])) h)
  | @removed t c hc hphase hne =>
      by_cases hu : u = t
      · subst hu
        have hjob := processing_move_self.1 h
        exact .inr ⟨hne, rfl, hphase, (Stage.job_afterRemove hjob).1⟩
      · exact .inl ((processing_move_of_ne hu).1 h)
  | asleep | woken => exact .inl h
  | report hc hstage =>
      refine .inl (Processing.of_move (q := s.queue) hc (fun _ hcmd => ?_) h)
      exact absurd hcmd (by simp [Stage.job])

/-- A thread reports the command it processes. -/
theorem reports_of_moves (hmoves : Moves types s a s') {e : Report} (h : e ∈ s'.reports) :
    e ∈ s.reports ∨ Processing s e.connection e.cmd := by
  cases hmoves with
  | @report t c cmd hc hstage =>
      rcases List.mem_append.1 h with h | h
      · exact .inl h
      · rw [List.mem_singleton.1 h]
        exact .inr ⟨c, hc, by rw [hstage]; rfl⟩
  | _ => exact .inl h

/-- A thread that takes a command belongs to a state port, the command to a joints port. -/
theorem ports_of_removing (hinv : Inv s) {t : ℕ} (hphase : s.queue.phase t = .entering .remove)
    (hne : s.queue.shared ≠ []) :
    ∃ r r', port s t = some (r, .ROBOT_STATE) ∧
      port s (popBack s.queue.shared hne).2.connection = some (r', .TRAJECTORY_STREAMING) := by
  have hcall := hinv.synced.calls t
  rw [hphase, eq_comm] at hcall
  obtain ⟨c, hc, hstage⟩ := Option.bind_eq_some_iff.1 hcall
  have hstate : c.service_type_ = .ROBOT_STATE := by
    have hservice := hinv.synced.services t c hc
    rw [Stage.eq_remove hstage] at hservice
    simpa [Stage.service, eq_comm] using hservice
  have hadded : (popBack s.queue.shared hne).2 ∈ added s.queue.log :=
    (commandQueue_keeps_items hinv.synced.queue).1.mem_iff.1
      (List.mem_append_right _ (List.getLast_mem hne))
  obtain ⟨-, d, hd, htraj, -⟩ := hinv.numbered.added _ hadded
  exact ⟨c.robot, d.robot, port_eq_some.2 ⟨c, hc, rfl, hstate⟩, port_eq_some.2 ⟨d, hd, rfl, htraj⟩⟩

/-- A command of one's own robot. -/
theorem sameRobot_of_own (hinv : Inv s) (hown : Own s a) {t : ℕ} (ha : a = .enter t)
    (hphase : s.queue.phase t = .entering .remove) (hne : s.queue.shared ≠ []) :
    SameRobot s t (popBack s.queue.shared hne).2 := by
  obtain ⟨r, r', hstate, htraj⟩ := ports_of_removing hinv hphase hne
  have hrobot := hown t hne ha hphase
  rw [hstate, htraj] at hrobot
  obtain rfl : r' = r := Option.some.inj hrobot
  exact ⟨r', hstate, htraj⟩

/-- With at most one robot, every command is one's own. -/
theorem own_of_subsingleton [Subsingleton ρ] (hinv : Inv s) : Own s a := by
  intro t hne ha hphase
  obtain ⟨r, r', hstate, htraj⟩ := ports_of_removing hinv hphase hne
  rw [hstate, htraj]
  exact congrArg some (Subsingleton.elim r' r)

/-- **While every thread takes its own commands, they stay at home.** -/
theorem AtHome.moves (h : AtHome s) (hinv : Inv s) (hown : Own s a) (hmoves : Moves types s a s') :
    AtHome s' := by
  have hmono : ∀ {t cmd}, SameRobot s t cmd → SameRobot s' t cmd := fun ⟨r, hstate, htraj⟩ =>
    ⟨r, port_of_moves hinv.synced hmoves hstate, port_of_moves hinv.synced hmoves htraj⟩
  refine ⟨fun t cmd ht => ?_, fun e he => ?_⟩
  · rcases processing_of_moves hmoves ht with hold | ⟨hne, ha, hphase, rfl⟩
    · exact hmono (h.processing t cmd hold)
    · exact hmono (sameRobot_of_own hinv hown ha hphase hne)
  · rcases reports_of_moves hmoves he with hold | hprocessing
    · exact hmono (h.reports e hold)
    · exact hmono (h.processing _ _ hprocessing)

theorem AtHome.init : AtHome (Server.init : Server ρ) :=
  ⟨fun _ _ ⟨_, h, _⟩ => absurd h (by simp [Server.init]), fun _ h => absurd h List.not_mem_nil⟩

theorem AtHome.routed (h : AtHome s) (hinv : Inv s) : Routed s := by
  intro e he
  obtain ⟨hmem, htype, hresult, -⟩ := hinv.processed.reported e he
  have hadded := (commandQueue_keeps_items hinv.synced.queue).1.mem_iff.1
    (List.mem_append_left _ hmem)
  exact ⟨⟨hadded, htype, by rw [hresult]⟩, h.reports e he⟩

variable (types) in
/-- **While every thread takes its own commands, every result reaches the right robot.** -/
theorem routed_of_own {as : List (Event ρ)} (hown : Along (step types) Own Server.init as)
    (hrun : run (step types) Server.init as = some s) : Routed s := by
  have h : Inv s ∧ AtHome s := by
    refine run_inv (fun s => Inv s ∧ AtHome s) ?_ ⟨Inv.init, AtHome.init⟩ hown hrun
    rintro s a s' ⟨hinv, hhome⟩ hown hstep
    exact ⟨hinv.step hstep, hhome.moves hinv hown (moves_of_step hstep)⟩
  exact h.2.routed h.1

/-! ### The configurations in which nothing goes astray -/

/-- The steps until a command given to `r₁` is reported by `r₂`. -/
theorem exists_report (types : MsgType) (r₁ r₂ : ρ) :
    ∃ s, Reachable (step types) Server.init s ∧ port s 0 = some (r₁, .TRAJECTORY_STREAMING) ∧
      port s 1 = some (r₂, .ROBOT_STATE) ∧ s.reports = [⟨1, ⟨0, 0, ⟨0, 7, 1⟩⟩, ⟨0, 0, 0⟩⟩] := by
  have hrun : ∃ s, run (step types) (received r₁)
      ([.enter 0, .accept r₂ .ROBOT_STATE 0] ++ List.replicate 20 (.write 1) ++
        [.test 1, .enter 1, .write 1, .write 1]) = some s ∧
      port s 0 = some (r₁, .TRAJECTORY_STREAMING) ∧ port s 1 = some (r₂, .ROBOT_STATE) ∧
      s.reports = [⟨1, ⟨0, 0, ⟨0, 7, 1⟩⟩, ⟨0, 0, 0⟩⟩] := ⟨_, rfl, rfl, rfl, rfl⟩
  obtain ⟨s, hrun, hports⟩ := hrun
  exact ⟨s, Reachable.run ⟨_, run_received types r₁⟩ hrun, hports⟩

/-- **Nothing can go astray exactly when there is at most one robot.** -/
theorem routed_iff (types : MsgType) :
    (∀ s : Server ρ, Reachable (step types) Server.init s → Routed s) ↔ Subsingleton ρ := by
  constructor
  · intro h
    refine ⟨fun r₁ r₂ => ?_⟩
    obtain ⟨s, hs, htraj, hstate, hreports⟩ := exists_report types r₁ r₂
    obtain ⟨-, r, hr₂, hr₁⟩ := h s hs _ (hreports ▸ List.mem_singleton_self _)
    cases htraj.symm.trans hr₁
    cases hstate.symm.trans hr₂
    rfl
  · rintro hone s ⟨as, hrun⟩
    refine routed_of_own types ?_ hrun
    refine Along.imp_inv Inv (fun s a hinv _ => ?_) Inv.init (along_true _ as)
    exact ⟨own_of_subsingleton hinv, fun _ hstep => hinv.step hstep⟩

/-- **The command of one of two robots is reported by the other.** -/
theorem result_astray :
    ¬∀ (types : MsgType) (s : Server Bool), Reachable (step types) Server.init s → Routed s := by
  intro h
  obtain ⟨s, hs, htraj, hstate, hreports⟩ := exists_report ⟨1, 2, by decide⟩ false true
  obtain ⟨-, r, hr₂, hr₁⟩ := h _ s hs _ (hreports ▸ List.mem_singleton_self _)
  rw [hstate] at hr₂
  rw [htraj] at hr₁
  cases hr₁
  cases hr₂

end RtpSimulator
