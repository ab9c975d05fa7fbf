/-
**Reading packets in the robot simulator.**

On a trajectory connection `rtp_server.cpp` calls `readPacket` again and again: one `receive` of at
most 512 bytes, a 16-byte header and a body read from the stream over these bytes, and one command
added to the queue when the type in the header is one of the two it knows.  What the stream does
not provide stays in the local structures as it was: the header and the body of a `TASK` are not
initialised, the first fields of a `JOINT_TRAJ_PT` are zero.

The indeterminate content of the local structures is part of a receive here, one byte for each
offset, so a statement about the server is a statement for every such content.

Main definitions:

* `RtpSimulator.readHeader`, `RtpSimulator.readBody`, `RtpSimulator.readPacket` — the source's
  functions, and `RtpSimulator.readPackets` the loop that calls them;
* `RtpSimulator.Packet`, `RtpSimulator.Packet.encode` — well-formed packets and their bytes;
* `RtpSimulator.Delivered` — the server adds one command for each packet, in order.
-/

import Mathlib.Data.BitVec
import Mathlib.Data.List.Basic
import Mathlib.Tactic.IntervalCases

set_option relaxedAutoImplicit false
set_option autoImplicit false

namespace RtpSimulator

/-- `int32_t` -/
abbrev Word := BitVec 32

/-- A byte. -/
abbrev Byte := BitVec 8

/-- The bytes of a structure, by offset. -/
abbrev Memory := ℕ → Byte

/-- `rwc::MsgType`: the codes of the two types of packets. -/
structure MsgType where
  TASK : Word
  JOINT_TRAJ_PT : Word
  distinct : TASK ≠ JOINT_TRAJ_PT

/-! ### Little-endian integers -/

/-- The byte of an integer at an offset. -/
def leByte (w : Word) (i : ℕ) : Byte := BitVec.ofNat 8 (w.toNat / 256 ^ i)

/-- The bytes of an integer. -/
def le32 (w : Word) : List Byte := [leByte w 0, leByte w 1, leByte w 2, leByte w 3]

/-- The integer at an offset. -/
def int32At (mem : Memory) (o : ℕ) : Word :=
  BitVec.ofNat 32 ((mem o).toNat + 256 * (mem (o + 1)).toNat + 256 ^ 2 * (mem (o + 2)).toNat +
    256 ^ 3 * (mem (o + 3)).toNat)

/-! ### The server -/

/-- A result of `receive`, with the indeterminate content of the local structures that the header
and the body are read into. -/
structure Receive where
  bytes : List Byte
  header : Memory
  body : Memory

/-- `std::istream` over a buffer: what is left, and whether no read has failed. -/
structure IStream where
  rest : List Byte
  good : Bool

/-- `is.read(&mem, n)`: a short read stores what there is and fails, a failed stream stores
nothing. -/
def IStream.read (is : IStream) (mem : Memory) (n : ℕ) : Memory × IStream :=
  if is.good then
    (fun i => ((is.rest.take n)[i]?).getD (mem i), ⟨is.rest.drop n, n ≤ is.rest.length⟩)
  else (mem, is)

/-- `PacketHeader` -/
structure PacketHeader where
  msg_len : Word
  msg_type : Word
  comm_type : Word
  reply_code : Word

/-- `RobotCommand` -/
structure RobotCommand where
  task_id : Word
  sequence_id : Word
  command_type : Word
  deriving DecidableEq

/-- The header, sixteen bytes into an uninitialised structure. -/
def readHeader (mem : Memory) (is : IStream) : PacketHeader × IStream :=
  let (mem, is) := is.read mem 16
  (⟨int32At mem 0, int32At mem 4, int32At mem 8, int32At mem 12⟩, is)

/-- The body: the command added to the queue, if any, and the new `current_task_id_`. -/
def readBody (types : MsgType) (mem : Memory) (msg_type : Word) (is : IStream)
    (current_task_id_ : Word) : Option RobotCommand × Word :=
  if msg_type = types.TASK then
    -- `TaskMessage`: twelve bytes, not initialised
    let (mem, _) := is.read mem 12
    let task_id := int32At mem 0
    (some ⟨task_id, -1, 0⟩, task_id)
  else if msg_type = types.JOINT_TRAJ_PT then
    -- `JointTrajPtMessage`: the constructor zeroes the sequence number and the joints
    let (mem, _) := is.read (fun i => if i < 44 then 0 else mem i) 52
    (some ⟨current_task_id_, int32At mem 0, 1⟩, current_task_id_)
  else (none, current_task_id_)

/-- One receive is read as one packet; what is left of it is dropped with the buffer. -/
def readPacket (types : MsgType) (r : Receive) (current_task_id_ : Word) :
    Option RobotCommand × Word :=
  let (header, is) := readHeader r.header ⟨r.bytes, true⟩
  readBody types r.body header.msg_type is current_task_id_

/-- The commands that a sequence of receives adds to the queue. -/
def readPackets (types : MsgType) : List Receive → Word → List RobotCommand
  | [], _ => []
  | r :: rs, current_task_id_ =>
    let (command, current_task_id_) := readPacket types r current_task_id_
    command.toList ++ readPackets types rs current_task_id_

/-! ### What a client sends -/

/-- A well-formed packet: the free fields of its header and the fields of its body. -/
inductive Packet
  | task (comm_type reply_code task_id error_handler count : Word)
  | jointTrajPt (comm_type reply_code sequence_id : Word)
      (joints_velocity_duration : { l : List Byte // l.length = 48 })

/-- The bytes of a packet; the length in the header does not count itself. -/
def Packet.encode (types : MsgType) : Packet → List Byte
  | .task comm_type reply_code task_id error_handler count =>
    le32 24 ++ le32 types.TASK ++ le32 comm_type ++ le32 reply_code ++
      (le32 task_id ++ le32 error_handler ++ le32 count)
  | .jointTrajPt comm_type reply_code sequence_id floats =>
    le32 64 ++ le32 types.JOINT_TRAJ_PT ++ le32 comm_type ++ le32 reply_code ++
      (le32 sequence_id ++ floats)

/-- The command a packet stands for, when `task_id` is that of the latest `TASK`. -/
def Packet.command (task_id : Word) : Packet → RobotCommand
  | .task _ _ id _ _ => ⟨id, -1, 0⟩
  | .jointTrajPt _ _ sequence_id _ => ⟨task_id, sequence_id, 1⟩

/-- The task id after a packet. -/
def Packet.currentTask (task_id : Word) : Packet → Word
  | .task _ _ id _ _ => id
  | .jointTrajPt _ _ _ _ => task_id

/-- The commands that a sequence of packets stands for. -/
def commands : Word → List Packet → List RobotCommand
  | _, [] => []
  | task_id, p :: ps => p.command task_id :: commands (p.currentTask task_id) ps

/-- The results of `receive` on the stream of a sequence of packets. -/
def IsCut (types : MsgType) (packets : List Packet) (chunks : List (List Byte)) : Prop :=
  chunks.flatten = (packets.map (Packet.encode types)).flatten ∧
    ∀ chunk ∈ chunks, 1 ≤ chunk.length ∧ chunk.length ≤ 512

/-- The server adds one command for each packet, in order, whatever the local structures held. -/
def Delivered (types : MsgType) (task_id : Word) (packets : List Packet)
    (chunks : List (List Byte)) : Prop :=
  ∀ rs : List Receive, rs.map Receive.bytes = chunks →
    readPackets types rs task_id = commands task_id packets

/-! ### Integers and their bytes -/

theorem leByte_toNat (w : Word) (i : ℕ) : (leByte w i).toNat = w.toNat / 256 ^ i % 256 := by
  rw [leByte, BitVec.toNat_ofNat]

/-- An integer is determined by its bytes. -/
theorem int32At_eq_iff {mem : Memory} {o : ℕ} {w : Word} :
    int32At mem o = w ↔ ∀ i < 4, mem (o + i) = leByte w i := by
  have hw := w.isLt
  have h0 := (mem o).isLt
  have h1 := (mem (o + 1)).isLt
  have h2 := (mem (o + 2)).isLt
  have h3 := (mem (o + 3)).isLt
  have hval : (int32At mem o).toNat = (mem o).toNat + 256 * (mem (o + 1)).toNat +
      256 ^ 2 * (mem (o + 2)).toNat + 256 ^ 3 * (mem (o + 3)).toNat := by
    rw [int32At, BitVec.toNat_ofNat]
    omega
  constructor
  · rintro rfl i hi
    rw [← BitVec.toNat_inj, leByte_toNat, hval]
    interval_cases i
    · rw [Nat.add_zero]
      omega
    · omega
    · omega
    · omega
  · intro h
    have e0 := congrArg BitVec.toNat (h 0 (by omega))
    have e1 := congrArg BitVec.toNat (h 1 (by omega))
    have e2 := congrArg BitVec.toNat (h 2 (by omega))
    have e3 := congrArg BitVec.toNat (h 3 (by omega))
    rw [leByte_toNat] at e0 e1 e2 e3
    rw [← BitVec.toNat_inj, hval]
    simp only [Nat.add_zero] at e0
    omega

end RtpSimulator
