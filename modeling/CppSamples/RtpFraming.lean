/-
**When the robot simulator finds the packets in the stream.**

`readPacket` takes every result of `receive` for one packet: it looks at the type at offset 4 and at
the id at offset 16, and drops everything else.  The packets of a stream are therefore delivered
exactly when the receives happen to be cut so: the receives that carry a type code are one for each
packet, in order, each with the id of its packet, and the type of every other receive is known to
be another one.

A packet that is found goes to the queue of the commands here at once; that the thread waits for
room in it is left to `RtpServer`.

Main definitions:

* `RtpSimulator.Holds`, `RtpSimulator.MayHold` — what a receive says about an integer at an offset;
* `RtpSimulator.Carries` — a receive carries the type and the id of a packet;
* `RtpSimulator.Framed` — the condition;
* `RtpSimulator.WellCut` — a packet is cut at its boundaries and its id is in its first piece.

Main results:

* `RtpSimulator.delivered_iff` — **the packets are delivered exactly when the cut is framed**;
* `RtpSimulator.framed_of_wellCut` — cuts at packet boundaries whose first pieces reach the id and
  whose other pieces are not taken for packets are framed;
* `RtpSimulator.coalesced_packets_lost` — two packets in one receive.
-/

import CppSamples.RtpPackets

set_option relaxedAutoImplicit false
set_option autoImplicit false

namespace RtpSimulator

/-! ### What a receive says -/

/-- The bytes hold the integer `w` at the offset `o`. -/
def Holds (w : Word) (o : ℕ) (chunk : List Byte) : Prop :=
  ∀ i < 4, chunk[o + i]? = some (leByte w i)

/-- No byte that is there contradicts the integer `w` at the offset `o`. -/
def MayHold (w : Word) (o : ℕ) (chunk : List Byte) : Prop :=
  ∀ i < 4, ∀ b ∈ chunk[o + i]?, b = leByte w i

instance (w : Word) (o : ℕ) (chunk : List Byte) : Decidable (Holds w o chunk) :=
  inferInstanceAs (Decidable (∀ i < 4, chunk[o + i]? = some (leByte w i)))

/-- The code of the type of a packet. -/
def Packet.msgType (types : MsgType) : Packet → Word
  | .task _ _ _ _ _ => types.TASK
  | .jointTrajPt _ _ _ _ => types.JOINT_TRAJ_PT

/-- The bytes carry the type and the id of a packet.  The id of a `JOINT_TRAJ_PT` may be cut short
where its bytes are zero. -/
def Carries (types : MsgType) (p : Packet) (chunk : List Byte) : Prop :=
  Holds (p.msgType types) 4 chunk ∧
    match p with
    | .task _ _ task_id _ _ => Holds task_id 16 chunk
    | .jointTrajPt _ _ sequence_id _ => ∀ i < 4, (chunk[16 + i]?).getD 0 = leByte sequence_id i

/-- The bytes carry one of the two type codes. -/
def Typed (types : MsgType) (chunk : List Byte) : Prop :=
  Holds types.TASK 4 chunk ∨ Holds types.JOINT_TRAJ_PT 4 chunk

instance (types : MsgType) (chunk : List Byte) : Decidable (Typed types chunk) :=
  inferInstanceAs (Decidable (_ ∨ _))

/-- The bytes tell whether they carry a type code. -/
def Settles (types : MsgType) (chunk : List Byte) : Prop :=
  (MayHold types.TASK 4 chunk → Holds types.TASK 4 chunk) ∧
    (MayHold types.JOINT_TRAJ_PT 4 chunk → Holds types.JOINT_TRAJ_PT 4 chunk)

/-- **The condition**: the receives that carry a type code carry the packets one by one, and the
type of every other receive is another one. -/
def Framed (types : MsgType) (packets : List Packet) (chunks : List (List Byte)) : Prop :=
  (∀ chunk ∈ chunks, Settles types chunk) ∧
    List.Forall₂ (Carries types) packets (chunks.filter fun chunk => Typed types chunk)

theorem Holds.mayHold {w : Word} {o : ℕ} {chunk : List Byte} (h : Holds w o chunk) :
    MayHold w o chunk := by
  intro i hi b hb
  rw [h i hi] at hb
  exact (Option.some.inj hb).symm

/-- Bytes that hold one integer cannot hold another at the same place. -/
theorem Holds.eq_of_mayHold {w v : Word} {o : ℕ} {chunk : List Byte} (hw : Holds w o chunk)
    (hv : MayHold v o chunk) : w = v := by
  have hbytes : ∀ i < 4, leByte w i = leByte v i := fun i hi => hv i hi _ (hw i hi)
  have hself : int32At (fun i => leByte w i) 0 = w :=
    int32At_eq_iff.2 fun i _ => by rw [Nat.zero_add]
  rw [← hself]
  exact int32At_eq_iff.2 fun i hi => by rw [Nat.zero_add, hbytes i hi]

/-! ### What one receive does -/

section Receive

variable {types : MsgType} {r : Receive} {task_id : Word}

/-- The type read from a receive. -/
def Receive.msgType (r : Receive) : Word :=
  int32At (fun i => ((r.bytes.take 16)[i]?).getD (r.header i)) 4

theorem msgType_eq_iff {w : Word} :
    r.msgType = w ↔ ∀ i < 4, (r.bytes[4 + i]?).getD (r.header (4 + i)) = leByte w i := by
  rw [Receive.msgType, int32At_eq_iff]
  refine forall₂_congr ?_
  intro i hi
  rw [List.getElem?_take_of_lt (by omega)]

theorem msgType_of_holds {w : Word} (h : Holds w 4 r.bytes) : r.msgType = w := by
  refine msgType_eq_iff.2 ?_
  intro i hi
  rw [h i hi, Option.getD_some]

theorem mayHold_of_msgType {w : Word} (h : r.msgType = w) : MayHold w 4 r.bytes := by
  intro i hi b hb
  have hi := msgType_eq_iff.1 h i hi
  rw [Option.mem_def.1 hb, Option.getD_some] at hi
  exact hi

/-- The byte of the body's structure at an offset that the read reaches. -/
theorem read_body {init : Memory} {n i : ℕ} (hi : i < n) :
    (((readHeader r.header ⟨r.bytes, true⟩).2.read init n).1) i =
      (r.bytes[16 + i]?).getD (init i) := by
  simp only [readHeader, IStream.read, if_true]
  split_ifs with hgood
  · simp only
    rw [List.getElem?_take_of_lt hi, List.getElem?_drop]
  · have hshort : r.bytes.length ≤ 16 + i := by
      simp only [decide_eq_true_eq] at hgood
      omega
    rw [List.getElem?_eq_none hshort, Option.getD_none]

/-- A receive that is read as a `TASK`. -/
theorem readPacket_task (h : r.msgType = types.TASK) (task_id : Word) :
    ∃ id, readPacket types r task_id = (some ⟨id, -1, 0⟩, id) ∧
      ∀ w, id = w ↔ ∀ i < 4, (r.bytes[16 + i]?).getD (r.body i) = leByte w i := by
  refine ⟨int32At ((readHeader r.header ⟨r.bytes, true⟩).2.read r.body 12).1 0,
    if_pos h, fun w => ?_⟩
  rw [int32At_eq_iff]
  refine forall₂_congr ?_
  intro i hi
  rw [Nat.zero_add, read_body (by omega)]

/-- A receive that is read as a `JOINT_TRAJ_PT`. -/
theorem readPacket_jointTrajPt (h : r.msgType = types.JOINT_TRAJ_PT) (task_id : Word) :
    ∃ id, readPacket types r task_id = (some ⟨task_id, id, 1⟩, task_id) ∧
      ∀ w, id = w ↔ ∀ i < 4, (r.bytes[16 + i]?).getD 0 = leByte w i := by
  have hne : r.msgType ≠ types.TASK := fun ht => types.distinct (ht.symm.trans h)
  refine ⟨int32At ((readHeader r.header ⟨r.bytes, true⟩).2.read
      (fun i => if i < 44 then 0 else r.body i) 52).1 0,
    (if_neg hne).trans (if_pos h), fun w => ?_⟩
  rw [int32At_eq_iff]
  refine forall₂_congr ?_
  intro i hi
  rw [Nat.zero_add, read_body (by omega), if_pos (by omega)]

/-- A receive of another type. -/
theorem readPacket_other (ht : r.msgType ≠ types.TASK) (hj : r.msgType ≠ types.JOINT_TRAJ_PT) :
    readPacket types r task_id = (none, task_id) := (if_neg ht).trans (if_neg hj)

/-- A receive that is read as a packet adds one command. -/
theorem readPacket_length (h : r.msgType = types.TASK ∨ r.msgType = types.JOINT_TRAJ_PT)
    (task_id : Word) : (readPacket types r task_id).1.toList.length = 1 := by
  rcases h with h | h
  · obtain ⟨id, hr, -⟩ := readPacket_task h task_id
    rw [hr]
    rfl
  · obtain ⟨id, hr, -⟩ := readPacket_jointTrajPt h task_id
    rw [hr]
    rfl

end Receive

/-- The number of commands added does not depend on the task id. -/
theorem readPackets_length {types : MsgType} (rs : List Receive) (task_id task_id' : Word) :
    (readPackets types rs task_id).length = (readPackets types rs task_id').length := by
  induction rs generalizing task_id task_id' with
  | nil => rfl
  | cons r rs ih =>
      rw [readPackets, readPackets, List.length_append, List.length_append,
        ih _ (readPacket types r task_id').2, Nat.add_right_cancel_iff]
      by_cases h : r.msgType = types.TASK ∨ r.msgType = types.JOINT_TRAJ_PT
      · rw [readPacket_length h, readPacket_length h]
      · rw [not_or] at h
        rw [readPacket_other h.1 h.2, readPacket_other h.1 h.2]

/-! ### One receive and the packets -/

section Delivered

variable {types : MsgType} {packets : List Packet} {chunks : List (List Byte)} {chunk : List Byte}
  {task_id : Word}

/-- Receives of given bytes, with zeros in the local structures. -/
def receives (chunks : List (List Byte)) : List Receive :=
  chunks.map fun chunk => ⟨chunk, fun _ => 0, fun _ => 0⟩

theorem receives_bytes : (receives chunks).map Receive.bytes = chunks := by
  rw [receives, List.map_map]
  exact List.map_id chunks

/-- Bytes that complete the integer from any memory hold it. -/
theorem holds_of_memory {w : Word} {o : ℕ}
    (h : ∀ mem : Memory, ∀ i < 4, (chunk[o + i]?).getD (mem i) = leByte w i) : Holds w o chunk := by
  intro i hi
  cases hc : chunk[o + i]? with
  | some b =>
      have hb := h (fun _ => 0) i hi
      rw [hc, Option.getD_some] at hb
      rw [hb]
  | none =>
      -- a byte that is not there can be made wrong
      have hb := h (fun i => leByte w i + 1) i hi
      rw [hc, Option.getD_none] at hb
      exact absurd (left_eq_add.1 hb.symm) (by decide)

/-- A byte other than two. -/
theorem exists_byte_ne (a b : Byte) : ∃ x : Byte, x ≠ a ∧ x ≠ b := by
  by_contra h
  push Not at h
  have h0 := h 0
  have h1 := h 1
  have h2 := h 2
  grind

/-- A receive that is read as the command of a packet delivers the packet. -/
theorem delivered_cons_of_readPacket {p : Packet} {ps : List Packet}
    (hread : ∀ r : Receive, r.bytes = chunk →
      readPacket types r task_id = (some (p.command task_id), p.currentTask task_id))
    (hd : Delivered types (p.currentTask task_id) ps chunks) :
    Delivered types task_id (p :: ps) (chunk :: chunks) := by
  intro rs hrs
  cases rs with
  | nil => exact absurd hrs.symm (List.cons_ne_nil _ _)
  | cons r rs =>
      obtain ⟨hr, hrs⟩ := List.cons.inj hrs
      rw [readPackets, hread r hr]
      exact congrArg _ (hd rs hrs)

/-- A receive with a `TASK` code delivers the next packet. -/
theorem delivered_cons_task (h : Holds types.TASK 4 chunk) :
    Delivered types task_id packets (chunk :: chunks) ↔
      ∃ p ps, Carries types p chunk ∧ Delivered types (p.currentTask task_id) ps chunks ∧
        packets = p :: ps := by
  have hread : ∀ r : Receive, r.bytes = chunk → ∃ id,
      readPacket types r task_id = (some ⟨id, -1, 0⟩, id) ∧
        ∀ w, id = w ↔ ∀ i < 4, (chunk[16 + i]?).getD (r.body i) = leByte w i := by
    rintro r rfl
    exact readPacket_task (msgType_of_holds h) task_id
  constructor
  · intro hd
    have hrun : ∀ mem : Memory, ∃ id, (∀ w, id = w ↔
        ∀ i < 4, (chunk[16 + i]?).getD (mem i) = leByte w i) ∧
        ∀ rs : List Receive, rs.map Receive.bytes = chunks →
          ⟨id, -1, 0⟩ :: readPackets types rs id = commands task_id packets := by
      intro mem
      obtain ⟨id, hr, hid⟩ := hread ⟨chunk, mem, mem⟩ rfl
      refine ⟨id, hid, fun rs hrs => ?_⟩
      rw [← hd (⟨chunk, mem, mem⟩ :: rs) (by rw [List.map_cons, hrs]), readPackets, hr]
      rfl
    obtain ⟨id, hid, hrs⟩ := hrun fun _ => 0
    have hfirst := hrs (receives chunks) receives_bytes
    rcases packets with _ | ⟨p, ps⟩
    · exact absurd hfirst (List.cons_ne_nil _ _)
    · rcases p with ⟨_, _, w, _, _⟩ | ⟨_, _, w, _⟩
      · refine ⟨.task _ _ w _ _, ps, ⟨h, ?_⟩, ?_, rfl⟩
        · refine holds_of_memory ?_
          intro mem
          obtain ⟨id', hid', hrs'⟩ := hrun mem
          have hhead := (List.cons.inj (hrs' (receives chunks) receives_bytes)).1
          exact (hid' w).1 (congrArg RobotCommand.task_id hhead)
        · intro rs hbytes
          have hcons := List.cons.inj (hrs rs hbytes)
          have hw : id = w := congrArg RobotCommand.task_id hcons.1
          rw [hw] at hcons
          exact hcons.2
      · have htype := congrArg RobotCommand.command_type (List.cons.inj hfirst).1
        exact absurd htype (show (0 : Word) ≠ 1 by decide)
  · rintro ⟨p, ps, ⟨htype, hcarries⟩, hd, rfl⟩
    cases p with
    | task _ _ w _ _ =>
        refine delivered_cons_of_readPacket (fun r hr => ?_) hd
        obtain ⟨id, hstep, hid⟩ := hread r hr
        have hw : id = w := (hid w).2 fun i hi => by
          rw [show chunk[16 + i]? = _ from hcarries i hi, Option.getD_some]
        rw [hstep, hw]
        rfl
    | jointTrajPt => exact absurd (h.eq_of_mayHold htype.mayHold) types.distinct

/-- A receive with a `JOINT_TRAJ_PT` code delivers the next packet. -/
theorem delivered_cons_jointTrajPt (h : Holds types.JOINT_TRAJ_PT 4 chunk) :
    Delivered types task_id packets (chunk :: chunks) ↔
      ∃ p ps, Carries types p chunk ∧ Delivered types (p.currentTask task_id) ps chunks ∧
        packets = p :: ps := by
  have hread : ∀ r : Receive, r.bytes = chunk → ∃ id,
      readPacket types r task_id = (some ⟨task_id, id, 1⟩, task_id) ∧
        ∀ w, id = w ↔ ∀ i < 4, (chunk[16 + i]?).getD 0 = leByte w i := by
    rintro r rfl
    exact readPacket_jointTrajPt (msgType_of_holds h) task_id
  constructor
  · intro hd
    obtain ⟨id, hr, hid⟩ := hread ⟨chunk, fun _ => 0, fun _ => 0⟩ rfl
    have hrun : ∀ rs : List Receive, rs.map Receive.bytes = chunks →
        ⟨task_id, id, 1⟩ :: readPackets types rs task_id = commands task_id packets := by
      intro rs hrs
      rw [← hd (⟨chunk, fun _ => 0, fun _ => 0⟩ :: rs) (by rw [List.map_cons, hrs]), readPackets,
        hr]
      rfl
    have hfirst := hrun (receives chunks) receives_bytes
    rcases packets with _ | ⟨p, ps⟩
    · exact absurd hfirst (List.cons_ne_nil _ _)
    · rcases p with ⟨_, _, w, _, _⟩ | ⟨_, _, w, _⟩
      · have htype := congrArg RobotCommand.command_type (List.cons.inj hfirst).1
        exact absurd htype (show (1 : Word) ≠ 0 by decide)
      · refine ⟨.jointTrajPt _ _ w _, ps, ⟨h, ?_⟩, ?_, rfl⟩
        · exact (hid w).1 (congrArg RobotCommand.sequence_id (List.cons.inj hfirst).1)
        · intro rs hbytes
          exact (List.cons.inj (hrun rs hbytes)).2
  · rintro ⟨p, ps, ⟨htype, hcarries⟩, hd, rfl⟩
    cases p with
    | task => exact absurd (h.eq_of_mayHold htype.mayHold).symm types.distinct
    | jointTrajPt _ _ w _ =>
        refine delivered_cons_of_readPacket (fun r hr => ?_) hd
        obtain ⟨id, hstep, hid⟩ := hread r hr
        have hw : id = w := (hid w).2 hcarries
        rw [hstep, hw]
        rfl

/-- A receive whose type is known to be another one is passed over. -/
theorem delivered_cons_other (ht : ¬MayHold types.TASK 4 chunk)
    (hj : ¬MayHold types.JOINT_TRAJ_PT 4 chunk) :
    Delivered types task_id packets (chunk :: chunks) ↔ Delivered types task_id packets chunks := by
  have hread : ∀ r : Receive, r.bytes = chunk → ∀ rs,
      readPackets types (r :: rs) task_id = readPackets types rs task_id := by
    rintro r rfl rs
    rw [readPackets, readPacket_other (fun h => ht (mayHold_of_msgType h))
      fun h => hj (mayHold_of_msgType h)]
    rfl
  constructor
  · intro hd rs hrs
    rw [← hd (⟨chunk, fun _ => 0, fun _ => 0⟩ :: rs) (by rw [List.map_cons, hrs]), hread _ rfl]
  · intro hd rs hrs
    rcases rs with _ | ⟨r, rs⟩
    · exact absurd hrs.symm (List.cons_ne_nil _ _)
    · obtain ⟨hr, hrs⟩ := List.cons.inj hrs
      rw [hread r hr, hd rs hrs]

/-- A receive whose type may or may not be one of the codes delivers nothing reliably: the local
structures decide how many commands it adds. -/
theorem not_delivered_cons {w : Word} (hw : w = types.TASK ∨ w = types.JOINT_TRAJ_PT)
    (hmay : MayHold w 4 chunk) (hnot : ¬Holds w 4 chunk) :
    ¬Delivered types task_id packets (chunk :: chunks) := by
  intro hd
  obtain ⟨i, hi, hnone⟩ : ∃ i < 4, chunk[4 + i]? = none := by
    by_contra hall
    refine hnot ?_
    intro i hi
    cases hc : chunk[4 + i]? with
    | some b => rw [hmay i hi b hc]
    | none => exact absurd ⟨i, hi, hc⟩ hall
  -- one memory makes the type a code, another one makes it neither
  have hsome : (⟨chunk, fun j => leByte w (j - 4), fun _ => 0⟩ : Receive).msgType = w := by
    refine msgType_eq_iff.2 ?_
    intro j hj
    simp only [Nat.add_sub_cancel_left]
    cases hc : chunk[4 + j]? with
    | some b => exact hmay j hj b hc
    | none => rfl
  rw [← hsome] at hw
  obtain ⟨x, hxt, hxj⟩ := exists_byte_ne (leByte types.TASK i) (leByte types.JOINT_TRAJ_PT i)
  have hother : ∀ v, x ≠ leByte v i →
      (⟨chunk, fun _ => x, fun _ => 0⟩ : Receive).msgType ≠ v := by
    intro v hv heq
    have hbyte := msgType_eq_iff.1 heq i hi
    simp only [hnone, Option.getD_none] at hbyte
    exact hv hbyte
  have hone := hd (⟨chunk, fun j => leByte w (j - 4), fun _ => 0⟩ :: receives chunks)
    (by rw [List.map_cons, receives_bytes])
  have hzero := hd (⟨chunk, fun _ => x, fun _ => 0⟩ :: receives chunks)
    (by rw [List.map_cons, receives_bytes])
  have hlength := congrArg List.length (hone.trans hzero.symm)
  rw [readPackets, readPackets, readPacket_other (hother _ hxt) (hother _ hxj),
    List.length_append, List.length_append, readPackets_length _ _ task_id,
    readPacket_length hw] at hlength
  simp only [Option.toList_none, List.length_nil] at hlength
  omega

end Delivered

/-! ### The condition -/

/-- Bytes that carry a type code settle their type. -/
theorem Typed.settles {types : MsgType} {chunk : List Byte} (h : Typed types chunk) :
    Settles types chunk := by
  rcases h with h | h
  · refine ⟨fun _ => h, fun hmay => ?_⟩
    exact absurd (h.eq_of_mayHold hmay) types.distinct
  · refine ⟨fun hmay => ?_, fun _ => h⟩
    exact absurd (h.eq_of_mayHold hmay).symm types.distinct

/-- The packets are delivered exactly when the receives are framed. -/
theorem delivered_iff (types : MsgType) (task_id : Word) (packets : List Packet)
    (chunks : List (List Byte)) :
    Delivered types task_id packets chunks ↔ Framed types packets chunks := by
  induction chunks generalizing packets task_id with
  | nil =>
      rw [Framed, List.filter_nil, List.forall₂_nil_right_iff]
      constructor
      · intro hd
        have hnil := hd [] rfl
        rcases packets with _ | ⟨p, ps⟩
        · exact ⟨fun _ hc => absurd hc List.not_mem_nil, rfl⟩
        · exact absurd hnil.symm (List.cons_ne_nil _ _)
      · rintro ⟨-, rfl⟩ rs hrs
        rw [List.map_eq_nil_iff.1 hrs]
        rfl
  | cons chunk chunks ih =>
      rw [Framed, List.forall_mem_cons]
      by_cases htyped : Typed types chunk
      · have hcons : Delivered types task_id packets (chunk :: chunks) ↔
            ∃ p ps, Carries types p chunk ∧ Delivered types (p.currentTask task_id) ps chunks ∧
              packets = p :: ps :=
          htyped.elim delivered_cons_task delivered_cons_jointTrajPt
        rw [hcons, List.filter_cons_of_pos (by simpa using htyped), List.forall₂_cons_right_iff]
        simp only [ih, Framed]
        constructor
        · rintro ⟨p, ps, hc, ⟨hs, hf⟩, rfl⟩
          exact ⟨⟨htyped.settles, hs⟩, p, ps, hc, hf, rfl⟩
        · rintro ⟨⟨-, hs⟩, p, ps, hc, hf, rfl⟩
          exact ⟨p, ps, hc, ⟨hs, hf⟩, rfl⟩
      · rw [List.filter_cons_of_neg (by simpa using htyped)]
        by_cases ht : MayHold types.TASK 4 chunk
        · have hnot : ¬Holds types.TASK 4 chunk := fun h => htyped (.inl h)
          exact iff_of_false (not_delivered_cons (.inl rfl) ht hnot)
            fun hf => hnot (hf.1.1.1 ht)
        · by_cases hj : MayHold types.JOINT_TRAJ_PT 4 chunk
          · have hnot : ¬Holds types.JOINT_TRAJ_PT 4 chunk := fun h => htyped (.inr h)
            exact iff_of_false (not_delivered_cons (.inr rfl) hj hnot)
              fun hf => hnot (hf.1.1.2 hj)
          · rw [delivered_cons_other ht hj, ih, Framed]
            constructor
            · rintro ⟨hs, hf⟩
              exact ⟨⟨⟨fun h => absurd h ht, fun h => absurd h hj⟩, hs⟩, hf⟩
            · rintro ⟨⟨-, hs⟩, hf⟩
              exact ⟨hs, hf⟩

/-! ### Cuts at the boundaries of packets -/

/-- The bytes of a packet hold its type and its id. -/
theorem carries_encode (types : MsgType) (p : Packet) : Carries types p (p.encode types) := by
  rcases p with ⟨_, _, w, _, _⟩ | ⟨_, _, w, _⟩
  · constructor
    · intro i hi
      interval_cases i <;> rfl
    · intro i hi
      interval_cases i <;> rfl
  · constructor
    · intro i hi
      interval_cases i <;> rfl
    · intro i hi
      interval_cases i <;> rfl

/-- The first twenty bytes of a packet carry its type and its id. -/
theorem Carries.of_append {types : MsgType} {p : Packet} {chunk rest : List Byte}
    (h : Carries types p (chunk ++ rest)) (hlen : 20 ≤ chunk.length) : Carries types p chunk := by
  have hbyte : ∀ i < 20, (chunk ++ rest)[i]? = chunk[i]? := fun i hi =>
    List.getElem?_append_left (by omega)
  obtain ⟨htype, hid⟩ := h
  refine ⟨fun i hi => ?_, ?_⟩
  · rw [← hbyte _ (by omega), htype i hi]
  · rcases p with ⟨_, _, w, _, _⟩ | ⟨_, _, w, _⟩
    · intro i hi
      rw [← hbyte _ (by omega), hid i hi]
    · intro i hi
      rw [← hbyte _ (by omega), hid i hi]

/-- A packet is cut well: its first piece reaches the id, and no other piece may be taken for a
packet. -/
def WellCut (types : MsgType) (p : Packet) (pieces : List (List Byte)) : Prop :=
  pieces.flatten = p.encode types ∧ ∃ first rest, pieces = first :: rest ∧ 20 ≤ first.length ∧
    ∀ chunk ∈ rest, ¬MayHold types.TASK 4 chunk ∧ ¬MayHold types.JOINT_TRAJ_PT 4 chunk

/-- Packets that are cut well, none sharing a receive with another, are framed. -/
theorem framed_of_wellCut {types : MsgType} {packets : List Packet}
    {pieces : List (List (List Byte))} (h : List.Forall₂ (WellCut types) packets pieces) :
    Framed types packets pieces.flatten := by
  induction h with
  | nil => exact ⟨fun _ hc => absurd hc List.not_mem_nil, List.Forall₂.nil⟩
  | @cons p cs packets pieces hp _ ih =>
      obtain ⟨hflat, first, rest, rfl, hlen, hrest⟩ := hp
      have hencode : Carries types p (first ++ rest.flatten) := by
        rw [← List.flatten_cons, hflat]
        exact carries_encode types p
      have hcarries : Carries types p first := hencode.of_append hlen
      have htyped : Typed types first := by
        rcases p with _ | _
        · exact .inl hcarries.1
        · exact .inr hcarries.1
      have hother : ∀ chunk ∈ rest, ¬Typed types chunk := by
        rintro chunk hc (ht | hj)
        · exact (hrest chunk hc).1 ht.mayHold
        · exact (hrest chunk hc).2 hj.mayHold
      have hfilter : rest.filter (fun chunk => Typed types chunk) = [] := by
        refine List.filter_eq_nil_iff.2 ?_
        intro chunk hc
        rw [decide_eq_true_eq]
        exact hother chunk hc
      rw [List.flatten_cons, List.cons_append, Framed, List.forall_mem_cons,
        List.filter_cons_of_pos (by simpa using htyped), List.filter_append, hfilter]
      refine ⟨⟨htyped.settles, fun chunk hc => ?_⟩, List.Forall₂.cons hcarries ih.2⟩
      rcases List.mem_append.1 hc with hc | hc
      · exact ⟨fun h => absurd h (hrest chunk hc).1, fun h => absurd h (hrest chunk hc).2⟩
      · exact ih.1 chunk hc

/-- Two packets in one receive: the second one is lost. -/
theorem coalesced_packets_lost :
    ¬∀ (types : MsgType) (task_id : Word) (packets : List Packet) (chunks : List (List Byte)),
      IsCut types packets chunks → Delivered types task_id packets chunks := by
  intro h
  let types : MsgType := ⟨1, 2, by decide⟩
  let packets : List Packet := [.task 1 0 5 0 0, .task 1 0 6 0 0]
  let chunk : List Byte := (packets.map (Packet.encode types)).flatten
  have hcut : IsCut types packets [chunk] := by
    refine ⟨List.flatten_singleton, fun chunk hc => ?_⟩
    rw [List.mem_singleton.1 hc]
    decide
  have hrun := h types 0 packets [chunk] hcut [⟨chunk, fun _ => 0, fun _ => 0⟩] rfl
  exact absurd (congrArg List.length hrun) (by decide)

end RtpSimulator
