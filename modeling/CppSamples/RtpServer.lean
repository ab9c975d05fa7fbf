/-
**The server of the robot simulator.**

`rtp_server.cpp` opens two ports for every robot of its configuration: connections to the joints
port stream trajectories, connections to the state port report the state of the robot.  Every
connection is handled by a thread of its own, `HandleClient`, until a receive or a write on its
socket throws; the commands go from the ones to the others through one global `commandQueue`.  This
module has the server as the steps of these threads in any order, over the monitor of the queue.

A socket may fail at every receive and at every write.  The test of `empty()` takes no lock and is a
step of its own.  What a connection has received and the results it has written are recorded.

Main definitions:

* `RtpSimulator.Stage` — where a thread is in `HandleClient`;
* `RtpSimulator.Server`, `RtpSimulator.step` — the server;
* `RtpSimulator.Moves` — what a step can do.

Main results:

* `RtpSimulator.moves_of_step` — a step does one of these.
-/

import CppSamples.RtpCommandQueue
import CppSamples.RtpPackets

set_option relaxedAutoImplicit false
set_option autoImplicit false

namespace RtpSimulator

open TransitionSystem Monitor BoundedBuffer Function
open scoped List

/-! ### The threads -/

/-- A command, with the connection that received it and its number among the commands of that
connection. -/
structure Job where
  connection : ℕ
  packet : ℕ
  command : RobotCommand
  deriving DecidableEq

/-- `TaskResult` -/
structure TaskResult where
  task_id : Word
  sequence_id : Word
  error_code : Word

/-- `RobotService::ServiceType` -/
inductive ServiceType
  | TRAJECTORY_STREAMING
  | ROBOT_STATE
  deriving DecidableEq

/-- What a thread is about to do in `HandleClient`. -/
inductive Stage
  /-- `sock->receive(bufs)` -/
  | receive
  /-- `commandQueue.add(cmd)` -/
  | add (cmd : Job)
  /-- writing the header of a `JOINT_RESPONCE` -/
  | replyHeader
  /-- writing the `JOINT_RESPONCE` -/
  | reply
  /-- writing the header of status `i` -/
  | statusHeader (i : ℕ)
  /-- writing status `i` -/
  | status (i : ℕ)
  /-- `!commandQueue.empty()` -/
  | test
  /-- `commandQueue.remove()` -/
  | remove
  /-- writing the header of the `TASK_RESULT` of `cmd` -/
  | resultHeader (cmd : Job)
  /-- writing the `TASK_RESULT` of `cmd` -/
  | result (cmd : Job)
  /-- nothing: an exception was caught and the service deleted -/
  | finished

/-- `status_freq` -/
def statusFreq : ℕ := 10

/-- The first stage of a service. -/
def ServiceType.start : ServiceType → Stage
  | .TRAJECTORY_STREAMING => .receive
  | .ROBOT_STATE => .statusHeader 0

namespace Stage

/-- The stage after the pending write, when there is one. -/
def next : Stage → Option Stage
  | .replyHeader => some .reply
  | .reply => some .receive
  | .statusHeader i => some (.status i)
  | .status i => some (if i + 1 < statusFreq then .statusHeader (i + 1) else .test)
  | .resultHeader cmd => some (.result cmd)
  | .result _ => some (.statusHeader 0)
  | _ => none

/-- The pending operation is on the socket and may throw. -/
def fallible : Stage → Bool
  | .receive => true
  | stage => stage.next.isSome

/-- The stage after `remove()` has returned `cmd`. -/
def afterRemove (cmd : Job) : Stage :=
  if cmd.command.command_type ≠ 0 then .resultHeader cmd else .statusHeader 0

/-- The call of the queue that the thread is in. -/
def call : Stage → Option (Call Job)
  | .add cmd => some (.add cmd)
  | .remove => some .remove
  | _ => none

/-- The command that the thread is processing. -/
def job : Stage → Option Job
  | .resultHeader cmd => some cmd
  | .result cmd => some cmd
  | _ => none

/-- The service that the stage is of. -/
def service : Stage → Option ServiceType
  | .finished => none
  | .receive | .add _ | .replyHeader | .reply => some .TRAJECTORY_STREAMING
  | _ => some .ROBOT_STATE

end Stage

/-- A connection: the robot and the service of its port, the members of its `RobotService`, and the
number of commands it has received. -/
structure Connection (ρ : Type) where
  robot : ρ
  service_type_ : ServiceType
  current_task_id_ : Word
  stage : Stage
  packets : ℕ

/-- A `TASK_RESULT` that was written: on which connection, and for which command. -/
structure Report where
  connection : ℕ
  cmd : Job
  result : TaskResult

/-! ### The server -/

/-- The queue with the threads inside it, the connections, and the results written so far. -/
structure Server (ρ : Type) where
  queue : BoundedBuffer.State ℕ Job
  connections : ℕ → Option (Connection ρ)
  accepted : ℕ
  reports : List Report

/-- The steps of the server; `raw` is what `current_task_id_` holds before its first store. -/
inductive Event (ρ : Type)
  /-- a connection is accepted on one of the ports of a robot -/
  | accept (robot : ρ) (service_type : ServiceType) (raw : Word)
  /-- a receive returns -/
  | receive (t : ℕ) (r : Receive)
  /-- a write returns -/
  | write (t : ℕ)
  /-- a receive or a write throws -/
  | fail (t : ℕ)
  /-- the test of `empty()` -/
  | test (t : ℕ)
  /-- a critical section of the queue -/
  | enter (t : ℕ)
  /-- a spurious wakeup -/
  | wake (t : ℕ)

namespace Server

variable {ρ : Type}

/-- No connection was accepted yet. -/
def init : Server ρ := ⟨State.init [], fun _ => none, 0, []⟩

/-- The connection `t` is now `c`. -/
def move (s : Server ρ) (t : ℕ) (c : Connection ρ) : Server ρ :=
  { s with connections := update s.connections t (some c) }

end Server

variable {ρ : Type}

/-- **One step of the server.** -/
def step (types : MsgType) (s : Server ρ) : Event ρ → Option (Server ρ)
  | .accept robot service_type raw =>
    some { s.move s.accepted ⟨robot, service_type, raw, service_type.start, 0⟩ with
      accepted := s.accepted + 1 }
  | .receive t r => do
    let c ← s.connections t
    match c.stage with
    | .receive =>
      if 1 ≤ r.bytes.length ∧ r.bytes.length ≤ 512 then
        match readPacket types r c.current_task_id_ with
        | (some command, current_task_id_) =>
          let cmd : Job := ⟨t, c.packets, command⟩
          let queue ← commandQueue.step s.queue (.call t (.add cmd))
          some { s.move t { c with current_task_id_, stage := .add cmd, packets := c.packets + 1 } with
            queue }
        | (none, current_task_id_) =>
          some (s.move t { c with current_task_id_, stage := .replyHeader })
      else none
    | _ => none
  | .write t => do
    let c ← s.connections t
    let stage ← c.stage.next
    match c.stage with
    | .result cmd =>
      some { s.move t { c with stage } with
        reports := s.reports ++ [⟨t, cmd, ⟨cmd.command.task_id, 0, 0⟩⟩] }
    | _ => some (s.move t { c with stage })
  | .fail t => do
    let c ← s.connections t
    if c.stage.fallible then some (s.move t { c with stage := .finished }) else none
  | .test t => do
    let c ← s.connections t
    match c.stage with
    | .test =>
      if s.queue.shared.isEmpty then some (s.move t { c with stage := .statusHeader 0 })
      else
        let queue ← commandQueue.step s.queue (.call t .remove)
        some { s.move t { c with stage := .remove } with queue }
    | _ => none
  | .enter t => do
    let c ← s.connections t
    let queue ← commandQueue.step s.queue (.enter t)
    match queue.phase t, queue.log.getLast? with
    -- the call has returned, with a command or without
    | .idle, some (_, some cmd) =>
      some { s.move t { c with stage := .afterRemove cmd } with queue }
    | .idle, _ => some { s.move t { c with stage := .replyHeader } with queue }
    | _, _ => some { s with queue }
  | .wake t => do
    let queue ← commandQueue.step s.queue (.wake t)
    some { s with queue }

/-! ### What a step can do -/

/-- The outcomes of a step. -/
inductive Moves (types : MsgType) (s : Server ρ) : Event ρ → Server ρ → Prop
  /-- a connection is accepted -/
  | accept (robot : ρ) (service_type : ServiceType) (raw : Word) :
    Moves types s (.accept robot service_type raw)
      { s.move s.accepted ⟨robot, service_type, raw, service_type.start, 0⟩ with
        accepted := s.accepted + 1 }
  /-- a thread moves on without the queue; only an exception takes its command from it -/
  | go {a : Event ρ} {t : ℕ} {c : Connection ρ} (stage : Stage) (current_task_id_ : Word)
    (hc : s.connections t = some c) (hcall : c.stage.call = none) (hcall' : stage.call = none)
    (hservice : stage.service = none ∨ stage.service = c.stage.service)
    (hjob : stage.job = c.stage.job ∨ a = .fail t ∧ stage.job = none) :
    Moves types s a (s.move t { c with stage, current_task_id_ })
  /-- a thread has received a command and calls `add` -/
  | receive {t : ℕ} {c : Connection ρ} {r : Receive} {command : RobotCommand}
    (current_task_id_ : Word) (hc : s.connections t = some c) (hstage : c.stage = .receive)
    (hread : (readPacket types r c.current_task_id_).1 = some command)
    (hphase : s.queue.phase t = .idle) :
    Moves types s (.receive t r)
      { s.move t { c with
          current_task_id_, stage := .add ⟨t, c.packets, command⟩, packets := c.packets + 1 } with
        queue := { s.queue with
          phase := update s.queue.phase t (.entering (.add ⟨t, c.packets, command⟩)) } }
  /-- a thread has seen a command in the queue and calls `remove` -/
  | remove {t : ℕ} {c : Connection ρ} (hc : s.connections t = some c) (hstage : c.stage = .test)
    (hne : s.queue.shared ≠ []) (hphase : s.queue.phase t = .idle) :
    Moves types s (.test t)
      { s.move t { c with stage := .remove } with
        queue := { s.queue with phase := update s.queue.phase t (.entering .remove) } }
  /-- an `add` returns -/
  | added {t : ℕ} {c : Connection ρ} {cmd : Job} (hc : s.connections t = some c)
    (hphase : s.queue.phase t = .entering (.add cmd)) (hroom : s.queue.shared.length < size_) :
    Moves types s (.enter t)
      { s.move t { c with stage := .replyHeader } with
        queue := {
          shared := s.queue.shared ++ [cmd]
          phase := update (fun u => (s.queue.phase u).notify) t .idle
          log := s.queue.log ++ [(.add cmd, none)] } }
  /-- a `remove` returns -/
  | removed {t : ℕ} {c : Connection ρ} (hc : s.connections t = some c)
    (hphase : s.queue.phase t = .entering .remove) (hne : s.queue.shared ≠ []) :
    Moves types s (.enter t)
      { s.move t { c with stage := .afterRemove (popBack s.queue.shared hne).2 } with
        queue := {
          shared := (popBack s.queue.shared hne).1
          phase := update (fun u => (s.queue.phase u).notify) t .idle
          log := s.queue.log ++ [(.remove, some (popBack s.queue.shared hne).2)] } }
  /-- a call falls asleep -/
  | asleep {t : ℕ} {c : Connection ρ} {call : Call Job} (hc : s.connections t = some c)
    (hphase : s.queue.phase t = .entering call) (hguard : ¬commandQueue.guard call s.queue.shared) :
    Moves types s (.enter t)
      { s with queue := { s.queue with phase := update s.queue.phase t (.waiting call) } }
  /-- a call wakes up -/
  | woken {t : ℕ} {call : Call Job} (hphase : s.queue.phase t = .waiting call) :
    Moves types s (.wake t)
      { s with queue := { s.queue with phase := update s.queue.phase t (.entering call) } }
  /-- a `TASK_RESULT` was written -/
  | report {t : ℕ} {c : Connection ρ} {cmd : Job} (hc : s.connections t = some c)
    (hstage : c.stage = .result cmd) :
    Moves types s (.write t)
      { s.move t { c with stage := .statusHeader 0 } with
        reports := s.reports ++ [⟨t, cmd, ⟨cmd.command.task_id, 0, 0⟩⟩] }

variable {types : MsgType} {s s' : Server ρ} {a : Event ρ}

/-- A write keeps the command that is processed, except for the last one. -/
theorem Stage.next_spec {stage stage' : Stage} (h : stage.next = some stage') :
    (∃ cmd, stage = .result cmd ∧ stage' = .statusHeader 0) ∨
      (∀ cmd, stage ≠ .result cmd) ∧ stage.call = none ∧ stage'.call = none ∧
        stage'.service = stage.service ∧ stage'.job = stage.job := by
  cases stage with
  | result cmd => exact .inl ⟨cmd, rfl, (Option.some.inj h).symm⟩
  | status i =>
      obtain rfl := Option.some.inj h
      refine .inr ⟨by simp, rfl, ?_, ?_, ?_⟩
      all_goals
        split_ifs
        all_goals rfl
  | replyHeader | reply | statusHeader i | resultHeader cmd =>
      obtain rfl := Option.some.inj h
      exact .inr ⟨by simp, rfl, rfl, rfl, rfl⟩
  | _ => simp [Stage.next] at h

/-- A thread that waits for its socket is outside the queue. -/
theorem Stage.call_of_fallible {stage : Stage} (h : stage.fallible = true) : stage.call = none := by
  cases stage with
  | add cmd => exact absurd h (by simp [Stage.fallible, Stage.next])
  | remove => exact absurd h (by simp [Stage.fallible, Stage.next])
  | _ => rfl

theorem moves_receive {t : ℕ} {r : Receive} (h : step types s (.receive t r) = some s') :
    Moves types s (.receive t r) s' := by
  simp only [step, Option.bind_eq_bind, Option.bind_eq_some_iff] at h
  obtain ⟨c, hc, h⟩ := h
  cases hstage : c.stage with
  | receive =>
      simp only [hstage, Option.ite_none_right_eq_some] at h
      obtain ⟨-, h⟩ := h
      rcases hread : readPacket types r c.current_task_id_ with ⟨_ | command, id⟩
      · rw [hread] at h
        obtain rfl := Option.some.inj h
        exact .go .replyHeader id hc (by rw [hstage]; rfl) rfl (.inr (by rw [hstage]; rfl))
          (.inl (by rw [hstage]; rfl))
      · rw [hread] at h
        obtain ⟨q, hq, h⟩ := Option.bind_eq_some_iff.1 h
        obtain ⟨hphase, rfl⟩ := step_call_eq_some hq
        obtain rfl := Option.some.inj h
        exact .receive id hc hstage (by rw [hread]) hphase
  | _ => simp [hstage] at h

theorem moves_write {t : ℕ} (h : step types s (.write t) = some s') :
    Moves types s (.write t) s' := by
  simp only [step, Option.bind_eq_bind, Option.bind_eq_some_iff] at h
  obtain ⟨c, hc, stage, hnext, h⟩ := h
  rcases Stage.next_spec hnext with ⟨cmd, hstage, rfl⟩ | ⟨hne, hcall, hcall', hservice, hjob⟩
  · rw [hstage] at h
    obtain rfl := Option.some.inj h
    exact .report hc hstage
  · have hmove : s' = s.move t { c with stage } := by
      split at h
      · exact absurd ‹_› (hne _)
      · exact (Option.some.inj h).symm
    rw [hmove]
    exact .go stage c.current_task_id_ hc hcall hcall' (.inr hservice) (.inl hjob)

theorem moves_fail {t : ℕ} (h : step types s (.fail t) = some s') :
    Moves types s (.fail t) s' := by
  simp only [step, Option.bind_eq_bind, Option.bind_eq_some_iff] at h
  obtain ⟨c, hc, h⟩ := h
  obtain ⟨hfallible, h⟩ := Option.ite_none_right_eq_some.1 h
  obtain rfl := Option.some.inj h
  exact .go .finished c.current_task_id_ hc (Stage.call_of_fallible hfallible) rfl (.inl rfl)
    (.inr ⟨rfl, rfl⟩)

theorem moves_test {t : ℕ} (h : step types s (.test t) = some s') :
    Moves types s (.test t) s' := by
  simp only [step, Option.bind_eq_bind, Option.bind_eq_some_iff] at h
  obtain ⟨c, hc, h⟩ := h
  cases hstage : c.stage with
  | test =>
      simp only [hstage] at h
      split_ifs at h with hempty
      · obtain rfl := Option.some.inj h
        exact .go (.statusHeader 0) c.current_task_id_ hc (by rw [hstage]; rfl) rfl
          (.inr (by rw [hstage]; rfl)) (.inl (by rw [hstage]; rfl))
      · obtain ⟨q, hq, h⟩ := Option.bind_eq_some_iff.1 h
        obtain ⟨hphase, rfl⟩ := step_call_eq_some hq
        obtain rfl := Option.some.inj h
        exact .remove hc hstage (fun hnil => hempty (by rw [hnil]; rfl)) hphase
  | _ => simp [hstage] at h

theorem moves_enter {t : ℕ} (h : step types s (.enter t) = some s') :
    Moves types s (.enter t) s' := by
  simp only [step, Option.bind_eq_bind, Option.bind_eq_some_iff] at h
  obtain ⟨c, hc, q, hq, h⟩ := h
  obtain ⟨call, hphase, rfl⟩ := step_enter_eq_some hq
  by_cases hguard : commandQueue.guard call s.queue.shared
  · rw [critical, dif_pos hguard] at h
    cases call with
    | add cmd =>
        simp only [update_self, List.getLast?_append, List.getLast?_singleton] at h
        obtain rfl := Option.some.inj h
        exact .added hc hphase hguard
    | remove =>
        simp only [update_self, List.getLast?_append, List.getLast?_singleton] at h
        obtain rfl := Option.some.inj h
        exact .removed hc hphase hguard
  · rw [critical, dif_neg hguard] at h
    simp only [update_self] at h
    obtain rfl := Option.some.inj h
    exact .asleep hc hphase hguard

theorem moves_wake {t : ℕ} (h : step types s (.wake t) = some s') :
    Moves types s (.wake t) s' := by
  simp only [step, Option.bind_eq_bind, Option.bind_eq_some_iff] at h
  obtain ⟨q, hq, h⟩ := h
  obtain ⟨call, hphase, rfl⟩ := step_wake_eq_some hq
  obtain rfl := Option.some.inj h
  exact .woken hphase

/-- **A step does one of these.** -/
theorem moves_of_step (h : step types s a = some s') : Moves types s a s' := by
  cases a with
  | accept robot service_type raw =>
      obtain rfl := Option.some.inj h
      exact .accept robot service_type raw
  | receive t r => exact moves_receive h
  | write t => exact moves_write h
  | fail t => exact moves_fail h
  | test t => exact moves_test h
  | enter t => exact moves_enter h
  | wake t => exact moves_wake h

end RtpSimulator
