/-
**Memory safety of `simple-vm`.**

The interpreter asserts that the instruction it fetches is inside `data_`; the accesses of `f`, `g`,
`LOAD` and `STORE` are not checked.  Which instructions access the array outside its bounds is
decided by the stack pointer and by the address on the stack before the instruction.

Main definitions:

* `SimpleVm.load_image` — the machine that an image file is loaded into;
* `SimpleVm.VM.InBounds` — the stack holds what the next instruction pops, has room for what it
  pushes, and the address that it uses is one of the array.

Main results:

* `SimpleVm.VM.unary_safe_iff`, `SimpleVm.VM.binary_safe_iff` — the operations;
* `SimpleVm.VM.step_safe_iff` — **an instruction stays in the array exactly when it is in bounds**;
* `SimpleVm.interprete_safe_iff` — the runs of every image;
* `SimpleVm.add_on_empty_stack` — an image that leaves the array.
-/

import CppSamples.SimpleVmRefinement

set_option relaxedAutoImplicit false
set_option autoImplicit false

namespace SimpleVm

/-- `load_image`: `words` are the results of the calls of `read_int32`, one for each line.  A
negative size, which `resize` throws on, and an image that is larger than the array are not
accepted. -/
def load_image (words : ℕ → Word) : Option VM :=
  let sp_ := words 0
  let image_size := words 1
  if sp_.toInt < 0 then none
  else if image_size.toNat ≤ sp_.toInt.toNat then
    let data_ := (List.range image_size.toNat).foldl (fun data_ i => data_.set i (words (i + 2)))
      (List.replicate sp_.toInt.toNat 0)
    some { data_, ip_ := 0, sp_, io := ⟨0, []⟩ }
  else none

namespace VM

/-- There are `k` words on the stack. -/
def Holds (vm : VM) (k : ℕ) : Prop :=
  0 ≤ vm.sp_.toInt ∧ vm.sp_.toInt + k ≤ vm.data_.length

/-- There is room for a word on the stack. -/
def HasRoom (vm : VM) : Prop := 1 ≤ vm.sp_.toInt ∧ vm.sp_.toInt ≤ vm.data_.length

/-- The word at depth `k` of the stack. -/
def operand (vm : VM) (k : ℕ) : Word := vm.data_.getD (vm.sp_.toInt.toNat + k) 0

/-- The address is one of the array. -/
def InArray (vm : VM) (addr : Word) : Prop := 0 ≤ addr.toInt ∧ addr.toInt < vm.data_.length

/-- What the unary operations need. -/
def UnaryInBounds (vm : VM) : UnaryOp → Prop
  | .POP | .HALT => True
  | .PUSH_CONST | .PUSH_IP | .PUSH_SP | .GETC => vm.HasRoom
  | .LOAD => vm.Holds 1 ∧ vm.InArray (vm.operand 0)
  | .STORE => vm.Holds 2 ∧ vm.InArray (vm.operand 1)
  | .JMP => vm.Holds 2
  | .NOT | .PUTC => vm.Holds 1

/-- **The next instruction is in bounds**: it holds what it pops and has room for what it pushes,
and the address it uses is one of the array.  Outside the array there is no next instruction. -/
def InBounds (vm : VM) : Prop :=
  vm.InArray vm.ip_ →
    let instr := Instr.decode (vm.data_.getD vm.ip_.toInt.toNat 0)
    if instr.binop_flag then vm.Holds 2
    else ∀ op, UnaryOp.ofOpcode instr.opcode = some op → vm.UnaryInBounds op

/-- The addresses of the array are words, as they are in every run. -/
def Sized (vm : VM) : Prop := vm.data_.length < 2 ^ 31

/-! ### Single accesses -/

variable {vm vm' : VM} {addr v : Word}

theorem load_of_inArray (h : vm.InArray addr) :
    vm.load addr = .ok (vm.data_.getD addr.toInt.toNat 0) := by
  have hlt : addr.toInt.toNat < vm.data_.length := by
    have := h.1
    have := h.2
    omega
  rw [load, if_pos h.1, List.getD_eq_getElem?_getD, List.getElem?_eq_getElem hlt]
  rfl

theorem load_of_not_inArray (h : ¬vm.InArray addr) : vm.load addr = .error .outOfBounds := by
  unfold load
  split_ifs with hnonneg
  · have hle : vm.data_.length ≤ addr.toInt.toNat := by
      by_contra hlt
      exact h ⟨hnonneg, by omega⟩
    rw [List.getElem?_eq_none hle]
  · rfl

theorem store_of_not_inArray (h : ¬vm.InArray addr) : vm.store addr v = .error .outOfBounds :=
  if_neg h

theorem store_of_inArray (h : vm.InArray addr) :
    vm.store addr v = .ok { vm with data_ := vm.data_.set addr.toInt.toNat v } := if_pos h

theorem inArray_sp_iff : vm.InArray vm.sp_ ↔ vm.Holds 1 := by
  simp only [InArray, Holds]
  omega

/-- **Popping a word that is there.** -/
theorem g_of_holds (h : vm.Holds 1) :
    vm.g = .ok (vm.operand 0, { vm with sp_ := vm.sp_ + 1 }) := by
  rw [g, load_of_inArray (inArray_sp_iff.2 h)]
  rfl

theorem g_of_not_holds (h : ¬vm.Holds 1) : vm.g = .error .outOfBounds := by
  rw [g, load_of_not_inArray (mt inArray_sp_iff.1 h)]
  rfl

/-- There is room where the word below the stack is one of the array. -/
theorem inArray_sub_one_iff (hs : vm.Sized) : vm.InArray (vm.sp_ - 1) ↔ vm.HasRoom := by
  have hlen : vm.data_.length < 2 ^ 31 := hs
  simp only [InArray, HasRoom]
  by_cases hlow : -2 ^ 31 < vm.sp_.toInt
  · rw [toInt_sub_one hlow]
    omega
  · -- below the least word there is the greatest one
    have hleast : vm.sp_ = BitVec.ofInt 32 (-2 ^ 31) := by
      have heq : vm.sp_.toInt = -2 ^ 31 := by
        have := BitVec.le_toInt vm.sp_
        omega
      rw [← heq, BitVec.ofInt_toInt]
    have hgreatest : (vm.sp_ - 1).toInt = 2 ^ 31 - 1 := by
      rw [hleast]
      decide
    omega

theorem f_of_hasRoom (hs : vm.Sized) (h : vm.HasRoom) (v : Word) : ∃ vm', vm.f v = .ok vm' :=
  ⟨_, store_of_inArray ((inArray_sub_one_iff hs).2 h)⟩

/-- **Pushing a word.** -/
theorem f_safe_iff (hs : vm.Sized) (v : Word) : vm.f v ≠ .error .outOfBounds ↔ vm.HasRoom := by
  by_cases h : vm.HasRoom
  · obtain ⟨vm', hf⟩ := f_of_hasRoom hs h v
    simp [hf, h]
  · have hout : vm.f v = .error .outOfBounds :=
      store_of_not_inArray (mt (inArray_sub_one_iff hs).1 h)
    simp [hout, h]

/-! ### The operations -/

section Operations

variable {α β : Type} {x : Except Fault α} {k : α → Except Fault β} {e : Fault}

theorem bind_ne_error_iff :
    (x >>= k) ≠ .error e ↔ x ≠ .error e ∧ ∀ a, x = .ok a → k a ≠ .error e := by
  cases x with
  | error e' => simp [bind, Except.bind]
  | ok a => simp [bind, Except.bind]

theorem bind_pure_ne_error_iff {r : α → β} :
    (x >>= fun a => pure (r a)) ≠ .error e ↔ x ≠ .error e := by
  rw [bind_ne_error_iff, and_iff_left]
  intro a _
  simp [pure, Except.pure]

section Popped

variable (hs : vm.Sized) (h : vm.Holds 1)

include hs h

theorem toInt_popped : (vm.sp_ + 1).toInt = vm.sp_.toInt + 1 := by
  have hlen : vm.data_.length < 2 ^ 31 := hs
  have hsp := h.2
  exact toInt_add_one (by omega)

/-- One word less on the stack. -/
theorem holds_popped {k : ℕ} :
    VM.Holds { vm with sp_ := vm.sp_ + 1 } k ↔ vm.Holds (k + 1) := by
  have hsp := h.1
  simp only [Holds, toInt_popped hs h]
  omega

theorem operand_popped (k : ℕ) :
    VM.operand { vm with sp_ := vm.sp_ + 1 } k = vm.operand (k + 1) := by
  have hidx : (vm.sp_ + 1).toInt.toNat + k = vm.sp_.toInt.toNat + (k + 1) := by
    rw [toInt_popped hs h]
    have hsp := h.1
    omega
  simp only [operand, hidx]

theorem hasRoom_popped : VM.HasRoom { vm with sp_ := vm.sp_ + 1 } := by
  have hlow := h.1
  have hhigh := h.2
  simp only [HasRoom, toInt_popped hs h]
  omega

end Popped

/-- A computation that pops a word first. -/
theorem pop_safe_iff {k : Word × VM → Except Fault β} {P : Prop}
    (hk : vm.Holds 1 →
      (k (vm.operand 0, { vm with sp_ := vm.sp_ + 1 }) ≠ .error .outOfBounds ↔ P)) :
    (vm.g >>= k) ≠ .error .outOfBounds ↔ vm.Holds 1 ∧ P := by
  by_cases h : vm.Holds 1
  · rw [g_of_holds h, ok_bind, hk h, and_iff_right h]
  · rw [g_of_not_holds h]
    simp [h, bind, Except.bind]

/-- A computation that pops two words first. -/
theorem pop_pop_safe_iff (hs : vm.Sized) {k : Word → Word → VM → Except Fault β} {P : Prop}
    (hk : ∀ vm' : VM, vm'.data_ = vm.data_ → vm'.HasRoom → vm'.Sized →
      (k (vm.operand 0) (vm.operand 1) vm' ≠ .error .outOfBounds ↔ P)) :
    (do let (b, vm) ← vm.g; let (a, vm) ← vm.g; k b a vm) ≠ .error .outOfBounds ↔
      vm.Holds 2 ∧ P := by
  have htwo : vm.Holds 1 ∧ vm.Holds 2 ∧ P ↔ vm.Holds 2 ∧ P := by
    refine and_iff_right_of_imp fun h => ⟨h.1.1, ?_⟩
    have := h.1.2
    push_cast at this ⊢
    omega
  rw [← htwo]
  refine pop_safe_iff ?_
  intro h
  have hs' : VM.Sized { vm with sp_ := vm.sp_ + 1 } := hs
  rw [← holds_popped hs h]
  refine pop_safe_iff ?_
  intro h'
  rw [operand_popped hs h]
  exact hk _ rfl (hasRoom_popped hs' h') hs

theorem store_safe_iff : vm.store addr v ≠ .error .outOfBounds ↔ vm.InArray addr := by
  by_cases h : vm.InArray addr
  · simp [store_of_inArray h, h]
  · simp [store_of_not_inArray h, h]

variable {undefined : Undefined} {input : ℕ → Option (BitVec 8)} {opcode : ℕ} {optional : Word}

/-- **The unary operations.** -/
theorem unary_safe_iff (hs : vm.Sized) {op : UnaryOp} (hop : UnaryOp.ofOpcode opcode = some op) :
    vm.unary undefined input opcode optional ≠ .error .outOfBounds ↔ vm.UnaryInBounds op := by
  simp only [unary, hop]
  cases op with
  | POP | HALT => simp [UnaryInBounds, pure, Except.pure]
  | PUSH_CONST | PUSH_IP | PUSH_SP =>
      rw [bind_pure_ne_error_iff]
      exact f_safe_iff hs _
  | LOAD =>
      refine pop_safe_iff ?_
      intro h
      by_cases haddr : vm.InArray (vm.operand 0)
      · have haddr' : VM.InArray { vm with sp_ := vm.sp_ + 1 } (vm.operand 0) := haddr
        simp only [load_of_inArray haddr', ok_bind]
        rw [bind_pure_ne_error_iff, f_safe_iff (show VM.Sized { vm with sp_ := vm.sp_ + 1 } from hs)]
        exact iff_of_true (hasRoom_popped hs h) haddr
      · have haddr' : ¬VM.InArray { vm with sp_ := vm.sp_ + 1 } (vm.operand 0) := haddr
        have hload := load_of_not_inArray haddr'
        simp only [hload, haddr, iff_false, not_not]
        rfl
  | STORE =>
      refine pop_pop_safe_iff (k := fun v addr vm => do
        let vm ← vm.store addr v
        return (false, vm)) hs fun vm' hdata _ _ => ?_
      rw [bind_pure_ne_error_iff, store_safe_iff, InArray, InArray, hdata]
  | JMP =>
      refine Iff.trans (pop_pop_safe_iff (P := True) (k := fun cond addr vm =>
        pure (false, if cond ≠ 0 then { vm with ip_ := addr - 1 } else vm)) hs
          fun vm' _ _ _ => ?_) (iff_of_eq (and_true _))
      simp [pure, Except.pure]
  | NOT =>
      refine Iff.trans (pop_safe_iff (P := True) fun h => ?_) (iff_of_eq (and_true _))
      rw [bind_pure_ne_error_iff, f_safe_iff (show VM.Sized { vm with sp_ := vm.sp_ + 1 } from hs)]
      exact iff_of_true (hasRoom_popped hs h) trivial
  | PUTC =>
      refine Iff.trans (pop_safe_iff (P := True) fun h => ?_) (iff_of_eq (and_true _))
      simp [pure, Except.pure]
  | GETC =>
      rw [bind_pure_ne_error_iff]
      exact f_safe_iff (show VM.Sized { vm with io := (vm.io.getchar input).2 } from hs) _

/-- A division may end the run, but it does not access the array. -/
theorem result_safe (a b : Word) : vm.result undefined opcode a b ≠ .error .outOfBounds := by
  rw [result]
  cases BinaryOp.ofOpcode opcode with
  | none => simp
  | some op =>
      cases op with
      | DIV =>
          simp only [BinaryOp.eval]
          split_ifs
          · cases undefined.quotient a b <;> simp
          · simp
      | _ => simp [BinaryOp.eval]

/-- **The binary operations.** -/
theorem binary_safe_iff (hs : vm.Sized) :
    vm.binary undefined opcode ≠ .error .outOfBounds ↔ vm.Holds 2 := by
  refine Iff.trans (pop_pop_safe_iff (P := True) (k := fun b a vm => do
    let r ← vm.result undefined opcode a b
    vm.f r) hs fun vm' _ hroom hs' => ?_) (iff_of_eq (and_true _))
  refine iff_of_true (bind_ne_error_iff.2 ⟨result_safe _ _, fun r _ => ?_⟩) trivial
  exact (f_safe_iff hs' r).2 hroom

/-- Nothing after an operation accesses the array. -/
theorem advance_safe (halt : Bool) (vm : VM) :
    (if halt = true then pure (.halted vm) else
      pure (.running { vm with ip_ := vm.ip_ + 1 }) : Except Fault (Outcome VM)) ≠
        .error .outOfBounds := by
  split_ifs <;> simp [pure, Except.pure]

/-- **An instruction stays in the array exactly when it is in bounds.** -/
theorem step_safe_iff (hs : vm.Sized) :
    vm.step undefined input ≠ .error .outOfBounds ↔ vm.InBounds := by
  by_cases hip : vm.InArray vm.ip_
  · have hbounds : 0 ≤ vm.ip_.toInt ∧ vm.ip_.toInt < vm.data_.length := hip
    rw [InBounds, forall_prop_of_true hip]
    simp only [step, hbounds, and_self, not_true, if_false, load_of_inArray hip, ok_bind]
    cases (Instr.decode (vm.data_.getD vm.ip_.toInt.toNat 0)).binop_flag with
    | true =>
        simp only [if_true]
        rw [bind_ne_error_iff, binary_safe_iff hs]
        exact and_iff_left fun vm' _ => advance_safe false vm'
    | false =>
        simp only [Bool.false_eq_true, if_false]
        rw [bind_ne_error_iff]
        refine (and_iff_left fun (r : Bool × VM) _ => advance_safe r.1 r.2).trans ?_
        cases hop : UnaryOp.ofOpcode (Instr.decode (vm.data_.getD vm.ip_.toInt.toNat 0)).opcode with
        | none =>
            simp only [unary, hop]
            exact iff_of_true (by simp [pure, Except.pure]) fun _ h => by cases h
        | some op =>
            rw [unary_safe_iff hs hop]
            exact ⟨fun h _ hop' => Option.some.inj hop' ▸ h, fun h => h op rfl⟩
  · have hassert : vm.step undefined input = .error .assertion := by
      have hbounds : ¬(0 ≤ vm.ip_.toInt ∧ vm.ip_.toInt < vm.data_.length) := hip
      simp only [step, hbounds, not_false_eq_true, if_true]
      rfl
    simp [hassert, InBounds, hip]

end Operations

/-! ### Runs -/

section Runs

variable {α β : Type} {x : Except Fault α} {k : α → Except Fault β} {P : α → Prop} {Q : β → Prop}

/-- A result, if there is one, has a property. -/
def Yields (x : Except Fault α) (P : α → Prop) : Prop := ∀ a, x = .ok a → P a

theorem Yields.bind (hx : Yields x P) (hk : ∀ a, P a → Yields (k a) Q) : Yields (x >>= k) Q := by
  intro b hb
  cases x with
  | error e => cases hb
  | ok a => exact hk a (hx a rfl) b hb

theorem Yields.pure {a : α} (h : P a) : Yields (pure a) P := fun _ hb => Except.ok.inj hb ▸ h

theorem Sized.store (hs : vm.Sized) (addr v : Word) : Yields (vm.store addr v) Sized := by
  intro vm' h
  unfold VM.store at h
  split_ifs at h
  obtain rfl := Except.ok.inj h
  simpa [Sized] using hs

theorem Sized.g (hs : vm.Sized) : Yields vm.g fun r => r.2.Sized := by
  refine Yields.bind (P := fun _ => True) (fun _ _ => trivial) ?_
  exact fun v _ => Yields.pure hs

theorem Sized.f (hs : vm.Sized) (v : Word) : Yields (vm.f v) Sized :=
  Sized.store (show VM.Sized { vm with sp_ := vm.sp_ - 1 } from hs) _ v

variable {undefined : Undefined} {input : ℕ → Option (BitVec 8)} {opcode : ℕ} {optional : Word}

theorem Sized.unary (hs : vm.Sized) :
    Yields (vm.unary undefined input opcode optional) fun r => r.2.Sized := by
  unfold VM.unary
  cases UnaryOp.ofOpcode opcode with
  | none => exact Yields.pure hs
  | some op =>
      cases op with
      | POP | HALT => exact Yields.pure hs
      | PUSH_CONST | PUSH_IP | PUSH_SP => exact (hs.f _).bind fun _ hs => Yields.pure hs
      | LOAD =>
          refine hs.g.bind fun r hs => Yields.bind (P := fun _ => True) (fun _ _ => trivial) ?_
          exact fun v _ => (hs.f v).bind fun _ hs => Yields.pure hs
      | STORE =>
          refine hs.g.bind fun r hs => hs.g.bind ?_
          intro r' hs
          exact (hs.store _ _).bind fun _ hs => Yields.pure hs
      | JMP =>
          refine hs.g.bind fun r hs => hs.g.bind ?_
          intro r' hs
          refine Yields.pure ?_
          split_ifs
          · exact hs
          · exact hs
      | NOT => exact hs.g.bind fun r hs => (hs.f _).bind fun _ hs => Yields.pure hs
      | PUTC => exact hs.g.bind fun r hs => Yields.pure hs
      | GETC =>
          have hs' : VM.Sized { vm with io := (vm.io.getchar input).2 } := hs
          exact (hs'.f _).bind fun _ hs => Yields.pure hs

theorem Sized.binary (hs : vm.Sized) : Yields (vm.binary undefined opcode) Sized := by
  refine hs.g.bind fun r hs => hs.g.bind ?_
  intro r' hs
  exact Yields.bind (P := fun _ => True) (fun _ _ => trivial) fun v _ => hs.f v

/-- **The size of the array is kept.** -/
theorem Sized.step (hs : vm.Sized) (h : vm.step undefined input = .ok (.running vm')) :
    vm'.Sized := by
  have hadvance : ∀ (halt : Bool) (vm : VM), vm.Sized →
      Yields (if halt = true then Pure.pure (.halted vm) else
        Pure.pure (.running { vm with ip_ := vm.ip_ + 1 }) : Except Fault (Outcome VM))
        fun o => ∀ vm', o = .running vm' → vm'.Sized := by
    intro halt vm hs
    split_ifs
    · exact Yields.pure fun _ h => by cases h
    · refine Yields.pure fun vm' h => ?_
      cases h
      exact hs
  by_cases hbounds : 0 ≤ vm.ip_.toInt ∧ vm.ip_.toInt < vm.data_.length
  · have hyields : Yields (vm.step undefined input) fun o =>
        ∀ vm', o = .running vm' → vm'.Sized := by
      simp only [VM.step, hbounds, and_self, not_true, if_false]
      refine Yields.bind (P := fun _ => True) (fun _ _ => trivial) ?_
      intro w _
      cases (Instr.decode w).binop_flag with
      | true =>
          simp only [if_true]
          exact hs.binary.bind fun vm' hs' => hadvance false vm' hs'
      | false =>
          simp only [Bool.false_eq_true, if_false]
          exact hs.unary.bind fun r hs' => hadvance r.1 r.2 hs'
    exact hyields _ h vm' rfl
  · simp only [VM.step, hbounds, not_false_eq_true, if_true] at h
    cases h

/-- A run of one more instruction. -/
theorem loop_succ_eq_running {n : ℕ} :
    vm.loop undefined input (n + 1) = .ok (.running vm') ↔
      ∃ vm₁, vm.step undefined input = .ok (.running vm₁) ∧
        vm₁.loop undefined input n = .ok (.running vm') := by
  rw [loop]
  cases hstep : vm.step undefined input with
  | error e => simp [bind, Except.bind]
  | ok o =>
      cases o with
      | running vm₁ => simp [bind, Except.bind]
      | halted vm₁ => simp [bind, Except.bind, pure, Except.pure]

theorem Sized.loop {n : ℕ} (hs : vm.Sized)
    (h : vm.loop undefined input n = .ok (.running vm')) : vm'.Sized := by
  induction n generalizing vm with
  | zero =>
      cases h
      exact hs
  | succ n ih =>
      obtain ⟨vm₁, hstep, hloop⟩ := loop_succ_eq_running.1 h
      exact ih (hs.step hstep) hloop

end Runs

end VM

/-! ### Images -/

variable {words : ℕ → Word} {vm : VM}

theorem length_foldl_set (words : ℕ → Word) (is : List ℕ) (data_ : List Word) :
    (is.foldl (fun data_ i => data_.set i (words (i + 2))) data_).length = data_.length := by
  induction is using List.reverseRecOn with
  | nil => rfl
  | append_singleton is i ih => rw [List.foldl_append, List.foldl_cons, List.foldl_nil,
      List.length_set, ih]

/-- A loaded machine is ready for the interpreter. -/
theorem load_image_spec (h : load_image words = some vm) :
    vm.ip_ = 0 ∧ vm.sp_.toInt = vm.data_.length ∧ vm.Sized := by
  unfold load_image at h
  simp only at h
  split_ifs at h with hneg hsize
  cases h
  have hlength : ((List.range (words 1).toNat).foldl (fun data_ i => data_.set i (words (i + 2)))
      (List.replicate (words 0).toInt.toNat 0)).length = (words 0).toInt.toNat :=
    (length_foldl_set words _ _).trans List.length_replicate
  have hbound := BitVec.toInt_lt (x := words 0)
  refine ⟨rfl, ?_, ?_⟩
  · simp only [hlength]
    omega
  · simp only [VM.Sized, hlength]
    omega

theorem interprete_eq_loop (h : load_image words = some vm) (undefined : Undefined)
    (input : ℕ → Option (BitVec 8)) (n : ℕ) :
    vm.interprete undefined input n = vm.loop undefined input n := by
  obtain ⟨hip, hsp, -⟩ := load_image_spec h
  simp only [VM.interprete, hip, hsp, not_true, if_false]

/-- **The runs of every image**: no instruction of a run accesses `data_` outside its bounds exactly
when every instruction that is reached is in bounds. -/
theorem interprete_safe_iff (h : load_image words = some vm) (undefined : Undefined)
    (input : ℕ → Option (BitVec 8)) (N : ℕ) :
    (∀ n ≤ N, ∀ vm', vm.interprete undefined input n = .ok (.running vm') →
        vm'.step undefined input ≠ .error .outOfBounds) ↔
      ∀ n ≤ N, ∀ vm', vm.interprete undefined input n = .ok (.running vm') → vm'.InBounds := by
  have hsized := (load_image_spec h).2.2
  refine forall₂_congr fun n _ => forall₂_congr ?_
  intro vm' hrun
  rw [interprete_eq_loop h] at hrun
  exact VM.step_safe_iff (hsized.loop hrun)

/-- The image `push 6; load; push 1; add; load`, with the greatest word in cell 6: the sum wraps
around, and the last instruction, which takes it as an address, is not in bounds. -/
theorem interprete_safe_iff_wrap :
    ∃ vm, load_image (fun i => [8, 7, 0x01000006, 0x04000000, 0x01000001, 0x80000000, 0x04000000,
        0x0A000000, 0x7FFFFFFF].getD i 0) = some vm ∧
      ((∀ n ≤ 4, ∀ vm', vm.interprete .trap (fun _ => none) n = .ok (.running vm') →
          vm'.step .trap (fun _ => none) ≠ .error .outOfBounds) ↔
        ∀ n ≤ 4, ∀ vm', vm.interprete .trap (fun _ => none) n = .ok (.running vm') →
          vm'.InBounds) := by
  obtain ⟨vm, hload⟩ : ∃ vm, load_image (fun i => [8, 7, 0x01000006, 0x04000000, 0x01000001,
      0x80000000, 0x04000000, 0x0A000000, 0x7FFFFFFF].getD i 0) = some vm := ⟨_, rfl⟩
  exact ⟨vm, hload, interprete_safe_iff hload .trap (fun _ => none) 4⟩

/-- **An `ADD` on the empty stack** pops the word behind the array, whatever is left open. -/
theorem add_on_empty_stack :
    ¬∃ undefined : Undefined, ∀ (words : ℕ → Word) (input : ℕ → Option (BitVec 8)) (vm : VM),
      load_image words = some vm → ∀ n vm',
        vm.interprete undefined input n = .ok (.running vm') →
          vm'.step undefined input ≠ .error .outOfBounds := by
  rintro ⟨undefined, h⟩
  exact h (fun i => [1, 1, 0x80000000].getD i 0) (fun _ => none) _ rfl 0 _ rfl rfl

end SimpleVm
