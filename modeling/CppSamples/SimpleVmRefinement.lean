/-
**The interpreter of `simple-vm` refines a machine with a memory and a stack.**

The abstract machine has a memory of `L` words for code and data and a stack of its own, a list
with its top first.  It stops, without a result, as soon as one of the conditions a well-behaved
program keeps is broken: a pop from the empty stack, a stack deeper than the room the array leaves
for it, an address outside the memory, an unknown operation, an overflow or a division by zero.

On the runs that keep these conditions the interpreter does the same in its one array, whatever the
source leaves open: the memory is the part below `L` and the stack is the part from `sp_` on.

Main definitions:

* `SimpleVm.Machine` — the abstract machine, `SimpleVm.Machine.step` and `SimpleVm.Machine.run`;
* `SimpleVm.Refines` — the relation between the two.

Main results:

* `SimpleVm.Refines.pop`, `SimpleVm.Refines.push` — the array holds a stack;
* `SimpleVm.Refines.unary`, `SimpleVm.Refines.binary`, `SimpleVm.Refines.step` — the operations;
* `SimpleVm.interprete_refines` — **the interpreter refines the machine** for runs of every length.
-/

import CppSamples.SimpleVm

set_option relaxedAutoImplicit false
set_option autoImplicit false

namespace SimpleVm

/-! ### The abstract machine -/

/-- The word of a signed result, which must be one of `int32_t`. -/
def arith (r : ℤ) : Option Word :=
  if -2 ^ 31 ≤ r ∧ r < 2 ^ 31 then some (BitVec.ofInt 32 r) else none

/-- The value of a binary operation that does not overflow and does not divide by zero. -/
def BinaryOp.exact (op : BinaryOp) (a b : Word) : Option Word :=
  match op with
  | .ADD => arith (a.toInt + b.toInt)
  | .SUB => arith (a.toInt - b.toInt)
  | .MUL => arith (a.toInt * b.toInt)
  | .DIV => if b = 0 then none else arith (a.toInt.tdiv b.toInt)
  | .AND => some (a &&& b)
  | .OR => some (a ||| b)
  | .XOR => some (a ^^^ b)
  | .EQ => some (if a = b then 1 else 0)
  | .LT => some (if a.toInt < b.toInt then 1 else 0)

/-- The instruction pointer, the memory, the stack and the console. -/
structure Machine where
  ip : Word
  mem : List Word
  stack : List Word
  io : Console

/-- Where the machine goes after an operation. -/
inductive Control
  | next
  | jump (addr : Word)
  | halt

/-- Whether an operation halts. -/
def Control.isHalt : Control → Bool
  | .halt => true
  | _ => false

namespace Machine

variable (size L : ℕ) (input : ℕ → Option (BitVec 8))

/-- The machine whose memory is the part below `L` of an image. -/
def start (image : List Word) : Machine := ⟨0, image.take L, [], ⟨0, []⟩⟩

/-- The top of the stack. -/
def pop (m : Machine) : Option (Word × Machine) :=
  match m.stack with
  | [] => none
  | v :: stack => some (v, { m with stack })

/-- A new top, while the stack is below its bound. -/
def push (m : Machine) (v : Word) : Option Machine :=
  if L + m.stack.length < size then some { m with stack := v :: m.stack } else none

/-- The word at an address. -/
def load (m : Machine) (addr : Word) : Option Word :=
  if 0 ≤ addr.toInt then m.mem[addr.toInt.toNat]? else none

/-- A new word at an address. -/
def store (m : Machine) (addr v : Word) : Option Machine :=
  if 0 ≤ addr.toInt ∧ addr.toInt < m.mem.length then
    some { m with mem := m.mem.set addr.toInt.toNat v }
  else none

/-- The unary operations. -/
def unary (m : Machine) (optional : Word) : UnaryOp → Option (Control × Machine)
  | .POP => do
    let (_, m) ← m.pop
    return (.next, m)
  | .PUSH_CONST => do
    let m ← m.push size L optional
    return (.next, m)
  | .PUSH_IP => do
    let m ← m.push size L (BitVec.ofInt 32 (m.ip.toInt + 1))
    return (.next, m)
  | .PUSH_SP => do
    let m ← m.push size L (BitVec.ofInt 32 (size - m.stack.length))
    return (.next, m)
  | .LOAD => do
    let (addr, m) ← m.pop
    let v ← m.load addr
    let m ← m.push size L v
    return (.next, m)
  | .STORE => do
    let (v, m) ← m.pop
    let (addr, m) ← m.pop
    let m ← m.store addr v
    return (.next, m)
  | .JMP => do
    let (cond, m) ← m.pop
    let (addr, m) ← m.pop
    if cond = 0 then return (.next, m)
    -- the least integer has no predecessor
    let _ ← arith (addr.toInt - 1)
    return (.jump addr, m)
  | .NOT => do
    let (x, m) ← m.pop
    let m ← m.push size L (if x = 0 then 1 else 0)
    return (.next, m)
  | .PUTC => do
    let (x, m) ← m.pop
    return (.next, { m with io := m.io.putchar x })
  | .GETC => do
    let (x, io) := m.io.getchar input
    let m ← Machine.push size L { m with io } (x &&& 0xFF)
    return (.next, m)
  | .HALT => return (.halt, m)

/-- The binary operations. -/
def binary (m : Machine) (op : BinaryOp) : Option Machine := do
  let (b, m) ← m.pop
  let (a, m) ← m.pop
  let r ← op.exact a b
  m.push size L r

/-- The instruction after an operation. -/
def goto (m : Machine) : Control → Outcome Machine
  | .next => .running { m with ip := BitVec.ofInt 32 (m.ip.toInt + 1) }
  | .jump addr => .running { m with ip := addr }
  | .halt => .halted m

/-- One instruction. -/
def step (m : Machine) : Option (Outcome Machine) := do
  let w ← m.load m.ip
  let instr := Instr.decode w
  if instr.binop_flag then
    let op ← BinaryOp.ofOpcode instr.opcode
    let m ← m.binary size L op
    return m.goto .next
  else
    let op ← UnaryOp.ofOpcode instr.opcode
    let (control, m) ← m.unary size L input instr.optional op
    return m.goto control

/-- The run of at most `n` instructions. -/
def run : ℕ → Machine → Option (Outcome Machine)
  | 0, m => return .running m
  | n + 1, m => do
    match ← m.step size L input with
    | .running m => run n m
    | .halted m => return .halted m

variable {size L}

/-- What a `pop` takes from the stack. -/
theorem pop_eq_some {m m' : Machine} {v : Word} (h : m.pop = some (v, m')) :
    ∃ stack, m.stack = v :: stack ∧ m' = { m with stack } := by
  unfold pop at h
  cases hstack : m.stack with
  | nil => simp [hstack] at h
  | cons u stack =>
      simp only [hstack, Option.some.injEq, Prod.mk.injEq] at h
      obtain ⟨rfl, rfl⟩ := h
      exact ⟨stack, rfl, rfl⟩

end Machine

/-! ### The relation -/

/-- The array of the interpreter holds the memory and the stack of the machine. -/
structure Refines (size L : ℕ) (m : Machine) (vm : VM) : Prop where
  bound : size < 2 ^ 31
  depth : L + m.stack.length ≤ size
  length : vm.data_.length = size
  mem : vm.data_.take L = m.mem
  sp : vm.sp_.toInt = size - m.stack.length
  stack : vm.data_.drop (size - m.stack.length) = m.stack
  ip : vm.ip_ = m.ip
  io : vm.io = m.io

/-- Both run on or both have halted, in related states. -/
inductive Outcome.Refines (size L : ℕ) : Outcome Machine → Outcome VM → Prop
  | running {m : Machine} {vm : VM} (h : SimpleVm.Refines size L m vm) :
      Refines size L (.running m) (.running vm)
  | halted {m : Machine} {vm : VM} (h : SimpleVm.Refines size L m vm) :
      Refines size L (.halted m) (.halted vm)

theorem ok_bind {α β : Type} (a : α) (k : α → Except Fault β) : (Except.ok a >>= k) = k a := rfl

theorem pure_eq_ok {α : Type} (a : α) : (pure a : Except Fault α) = .ok a := rfl

/-! ### Words as integers -/

theorem toInt_add_one {w : Word} (h : w.toInt + 1 < 2 ^ 31) : (w + 1).toInt = w.toInt + 1 := by
  have hlow := BitVec.le_toInt w
  rw [BitVec.toInt_add]
  exact Int.bmod_eq_of_le (by simp at hlow ⊢; omega) (by simp; omega)

theorem toInt_sub_one {w : Word} (h : -2 ^ 31 < w.toInt) : (w - 1).toInt = w.toInt - 1 := by
  have hhigh := @BitVec.toInt_lt 32 w
  rw [BitVec.toInt_sub]
  exact Int.bmod_eq_of_le (by simp; omega) (by simp at hhigh ⊢; omega)

theorem ofInt_toInt_add_one (w : Word) : BitVec.ofInt 32 (w.toInt + 1) = w + 1 := by
  rw [BitVec.ofInt_add, BitVec.ofInt_toInt]
  rfl

theorem arith_eq_some {r : ℤ} {w : Word} :
    arith r = some w ↔ (-2 ^ 31 ≤ r ∧ r < 2 ^ 31) ∧ BitVec.ofInt 32 r = w := by
  simp only [arith, Option.ite_none_right_eq_some, Option.some.injEq]

/-- **Where the operation is exact the processor computes it.** -/
theorem BinaryOp.eval_of_exact (undefined : Undefined) {op : BinaryOp} {a b r : Word}
    (h : op.exact a b = some r) : op.eval undefined a b = .ok r := by
  cases op with
  | ADD =>
      obtain ⟨-, rfl⟩ := arith_eq_some.1 h
      rw [BinaryOp.eval, BitVec.ofInt_add, BitVec.ofInt_toInt, BitVec.ofInt_toInt]
  | SUB =>
      obtain ⟨-, rfl⟩ := arith_eq_some.1 h
      rw [BinaryOp.eval, Int.sub_eq_add_neg, BitVec.ofInt_add, BitVec.ofInt_neg, BitVec.ofInt_toInt,
        BitVec.ofInt_toInt, ← BitVec.sub_eq_add_neg]
  | MUL =>
      obtain ⟨-, rfl⟩ := arith_eq_some.1 h
      rw [BinaryOp.eval, BitVec.ofInt_mul, BitVec.ofInt_toInt, BitVec.ofInt_toInt]
  | DIV =>
      obtain ⟨hb, h⟩ := Option.ite_none_left_eq_some.1 h
      obtain ⟨hrange, rfl⟩ := arith_eq_some.1 h
      have hfits : ¬(b = 0 ∨ a.toInt = -2 ^ 31 ∧ b.toInt = -1) := by
        rintro (hzero | ⟨ha, hb⟩)
        · exact hb hzero
        · rw [ha, hb] at hrange
          exact absurd hrange.2 (by decide)
      rw [BinaryOp.eval, if_neg hfits]
  | AND | OR | XOR | EQ | LT =>
      obtain rfl := Option.some.inj h
      rfl

/-! ### The array holds a stack -/

namespace Refines

variable {size L : ℕ} {m m' : Machine} {vm : VM} {v addr : Word}

/-- Dropping the top of the stack. -/
theorem drop (h : Refines size L m vm) (hpop : m.pop = some (v, m')) :
    Refines size L m' { vm with sp_ := vm.sp_ + 1 } := by
  obtain ⟨stack, hstack, rfl⟩ := Machine.pop_eq_some hpop
  have hsp := h.sp
  have hbound := h.bound
  have hdepth := h.depth
  have hdrop := h.stack
  rw [hstack, List.length_cons] at hsp hdepth hdrop
  have hdepth' : L + stack.length ≤ size := by omega
  have hsp' : (vm.sp_ + 1).toInt = size - stack.length := by
    rw [toInt_add_one (by omega)]
    omega
  have hdrop' : vm.data_.drop (size - stack.length) = stack := by
    have hnext : size - stack.length = size - (stack.length + 1) + 1 := by omega
    rw [hnext, ← List.drop_drop, hdrop, List.drop_one, List.tail_cons]
  exact ⟨h.bound, hdepth', h.length, h.mem, hsp', hdrop', h.ip, h.io⟩

/-- **`g` pops.** -/
theorem pop (h : Refines size L m vm) (hpop : m.pop = some (v, m')) :
    ∃ vm', vm.g = .ok (v, vm') ∧ Refines size L m' vm' := by
  refine ⟨{ vm with sp_ := vm.sp_ + 1 }, ?_, h.drop hpop⟩
  have hload : vm.load vm.sp_ = .ok v := by
    obtain ⟨stack, hstack, rfl⟩ := Machine.pop_eq_some hpop
    have hsp := h.sp
    have hdepth := h.depth
    have hdrop := h.stack
    rw [hstack] at hsp hdepth hdrop
    have hidx : vm.sp_.toInt.toNat = size - (v :: stack).length := by omega
    have hget : vm.data_[vm.sp_.toInt.toNat]? = some v := by
      rw [hidx, ← Nat.add_zero (size - _), ← List.getElem?_drop, hdrop]
      rfl
    rw [VM.load, if_pos (by omega), hget]
  rw [VM.g, hload]
  rfl

/-- **`f` pushes.** -/
theorem push (h : Refines size L m vm) (hpush : m.push size L v = some m') :
    ∃ vm', vm.f v = .ok vm' ∧ Refines size L m' vm' := by
  unfold Machine.push at hpush
  split_ifs at hpush with hroom
  obtain rfl := Option.some.inj hpush
  have hsp := h.sp
  have hbound := h.bound
  have hlength := h.length
  have hsp_ : (vm.sp_ - 1).toInt = vm.sp_.toInt - 1 := toInt_sub_one (by omega)
  have hidx : (vm.sp_ - 1).toInt.toNat = size - (m.stack.length + 1) := by omega
  refine ⟨{ vm with
    sp_ := vm.sp_ - 1, data_ := vm.data_.set (size - (m.stack.length + 1)) v }, ?_, ?_⟩
  · simp only [VM.f]
    rw [VM.store, if_pos ⟨by omega, by simp only; omega⟩, hidx]
  · refine ⟨h.bound, ?_, ?_, ?_, ?_, ?_, h.ip, h.io⟩
    · simp only [List.length_cons]
      omega
    · rw [List.length_set, hlength]
    · rw [List.take_set_of_le (by omega), h.mem]
    · simp only [List.length_cons]
      omega
    · have hlt : size - (m.stack.length + 1) < vm.data_.length := by omega
      have hnext : size - (m.stack.length + 1) + 1 = size - m.stack.length := by omega
      simp only [List.length_cons]
      rw [List.drop_eq_getElem_cons (by simpa using hlt), List.getElem_set_self, hnext,
        List.drop_set_of_lt (by omega), h.stack]

/-- Reading the memory. -/
theorem load (h : Refines size L m vm) (hload : m.load addr = some v) : vm.load addr = .ok v := by
  unfold Machine.load at hload
  split_ifs at hload with haddr
  rw [← h.mem, List.getElem?_take] at hload
  split_ifs at hload with hlt
  rw [VM.load, if_pos haddr, hload]

/-- Writing the memory. -/
theorem store (h : Refines size L m vm) (hstore : m.store addr v = some m') :
    ∃ vm', vm.store addr v = .ok vm' ∧ Refines size L m' vm' := by
  unfold Machine.store at hstore
  split_ifs at hstore with haddr
  obtain rfl := Option.some.inj hstore
  have hlength := h.length
  have hdepth := h.depth
  rw [← h.mem, List.length_take] at haddr
  have hlow : addr.toInt.toNat < size - m.stack.length := by omega
  refine ⟨{ vm with data_ := vm.data_.set addr.toInt.toNat v }, ?_, ?_⟩
  · rw [VM.store, if_pos ⟨haddr.1, by omega⟩]
  · refine ⟨h.bound, h.depth, ?_, ?_, h.sp, ?_, h.ip, h.io⟩
    · rw [List.length_set, hlength]
    · rw [List.take_set, h.mem]
    · exact (List.drop_set_of_lt hlow).trans h.stack

/-- The stack pointer is the size of the array less the depth of the stack. -/
theorem sp_eq (h : Refines size L m vm) : vm.sp_ = BitVec.ofInt 32 (size - m.stack.length) := by
  rw [← h.sp, BitVec.ofInt_toInt]

/-- Another console in both. -/
theorem with_io (h : Refines size L m vm) (io : Console) :
    Refines size L { m with io } { vm with io } :=
  ⟨h.bound, h.depth, h.length, h.mem, h.sp, h.stack, h.ip, rfl⟩

/-- Another instruction pointer in both. -/
theorem with_ip (h : Refines size L m vm) (ip : Word) :
    Refines size L { m with ip } { vm with ip_ := ip } :=
  ⟨h.bound, h.depth, h.length, h.mem, h.sp, h.stack, rfl, h.io⟩

/-! ### The operations -/

/-- How the states after an operation are related: a jump has left `ip_` one short of its target. -/
def Lands (size L : ℕ) (m' : Machine) (vm' : VM) : Control → Prop
  | .jump addr => vm'.ip_ = addr - 1 ∧ Refines size L m' { vm' with ip_ := m'.ip }
  | _ => Refines size L m' vm'

variable {undefined : Undefined} {input : ℕ → Option (BitVec 8)} {opcode : ℕ} {optional : Word}

variable (undefined) in
/-- **The unary operations.** -/
theorem unary {op : UnaryOp} {control : Control} (h : Refines size L m vm)
    (hop : UnaryOp.ofOpcode opcode = some op)
    (hm : m.unary size L input optional op = some (control, m')) :
    ∃ vm', vm.unary undefined input opcode optional = .ok (control.isHalt, vm') ∧
      Lands size L m' vm' control := by
  cases op with
  | POP =>
      obtain ⟨⟨v, m₁⟩, hpop, hm⟩ := Option.bind_eq_some_iff.1 hm
      obtain ⟨rfl, rfl⟩ := Prod.mk.inj (Option.some.inj hm)
      refine ⟨_, ?_, h.drop hpop⟩
      simp only [VM.unary, hop]
      rfl
  | PUSH_CONST =>
      obtain ⟨m₁, hpush, hm⟩ := Option.bind_eq_some_iff.1 hm
      obtain ⟨rfl, rfl⟩ := Prod.mk.inj (Option.some.inj hm)
      obtain ⟨vm₁, hf, h₁⟩ := h.push hpush
      refine ⟨vm₁, ?_, h₁⟩
      simp only [VM.unary, hop, hf]
      rfl
  | PUSH_IP =>
      obtain ⟨m₁, hpush, hm⟩ := Option.bind_eq_some_iff.1 hm
      obtain ⟨rfl, rfl⟩ := Prod.mk.inj (Option.some.inj hm)
      rw [← h.ip, ofInt_toInt_add_one] at hpush
      obtain ⟨vm₁, hf, h₁⟩ := h.push hpush
      refine ⟨vm₁, ?_, h₁⟩
      simp only [VM.unary, hop, hf]
      rfl
  | PUSH_SP =>
      obtain ⟨m₁, hpush, hm⟩ := Option.bind_eq_some_iff.1 hm
      obtain ⟨rfl, rfl⟩ := Prod.mk.inj (Option.some.inj hm)
      rw [← h.sp_eq] at hpush
      obtain ⟨vm₁, hf, h₁⟩ := h.push hpush
      refine ⟨vm₁, ?_, h₁⟩
      simp only [VM.unary, hop, hf]
      rfl
  | LOAD =>
      obtain ⟨⟨addr, m₁⟩, hpop, hm⟩ := Option.bind_eq_some_iff.1 hm
      obtain ⟨v, hload, hm⟩ := Option.bind_eq_some_iff.1 hm
      obtain ⟨m₂, hpush, hm⟩ := Option.bind_eq_some_iff.1 hm
      obtain ⟨rfl, rfl⟩ := Prod.mk.inj (Option.some.inj hm)
      obtain ⟨vm₁, hg, h₁⟩ := h.pop hpop
      obtain ⟨vm₂, hf, h₂⟩ := h₁.push hpush
      refine ⟨vm₂, ?_, h₂⟩
      simp only [VM.unary, hop, hg, ok_bind, h₁.load hload, hf]
      rfl
  | STORE =>
      obtain ⟨⟨v, m₁⟩, hpop, hm⟩ := Option.bind_eq_some_iff.1 hm
      obtain ⟨⟨addr, m₂⟩, hpop', hm⟩ := Option.bind_eq_some_iff.1 hm
      obtain ⟨m₃, hstore, hm⟩ := Option.bind_eq_some_iff.1 hm
      obtain ⟨rfl, rfl⟩ := Prod.mk.inj (Option.some.inj hm)
      obtain ⟨vm₁, hg, h₁⟩ := h.pop hpop
      obtain ⟨vm₂, hg', h₂⟩ := h₁.pop hpop'
      obtain ⟨vm₃, hvm₃, h₃⟩ := h₂.store hstore
      refine ⟨vm₃, ?_, h₃⟩
      simp only [VM.unary, hop, hg, ok_bind, hg', hvm₃]
      rfl
  | JMP =>
      obtain ⟨⟨cond, m₁⟩, hpop, hm⟩ := Option.bind_eq_some_iff.1 hm
      obtain ⟨⟨addr, m₂⟩, hpop', hm⟩ := Option.bind_eq_some_iff.1 hm
      obtain ⟨vm₁, hg, h₁⟩ := h.pop hpop
      obtain ⟨vm₂, hg', h₂⟩ := h₁.pop hpop'
      by_cases hcond : cond = 0
      · simp only [hcond, if_true] at hm
        obtain ⟨rfl, rfl⟩ := Prod.mk.inj (Option.some.inj hm)
        refine ⟨vm₂, ?_, h₂⟩
        simp only [VM.unary, hop, hg, ok_bind, hg', hcond, ne_eq, not_true, if_false]
        rfl
      · simp only [hcond, if_false] at hm
        obtain ⟨ip_, harith, hm⟩ := Option.bind_eq_some_iff.1 hm
        obtain ⟨rfl, rfl⟩ := Prod.mk.inj (Option.some.inj hm)
        refine ⟨{ vm₂ with ip_ := addr - 1 }, ?_, rfl, h₂.with_ip m₂.ip⟩
        simp only [VM.unary, hop, hg, ok_bind, hg', hcond, ne_eq, not_false_eq_true, if_true]
        rfl
  | NOT =>
      obtain ⟨⟨x, m₁⟩, hpop, hm⟩ := Option.bind_eq_some_iff.1 hm
      obtain ⟨m₂, hpush, hm⟩ := Option.bind_eq_some_iff.1 hm
      obtain ⟨rfl, rfl⟩ := Prod.mk.inj (Option.some.inj hm)
      obtain ⟨vm₁, hg, h₁⟩ := h.pop hpop
      obtain ⟨vm₂, hf, h₂⟩ := h₁.push hpush
      refine ⟨vm₂, ?_, h₂⟩
      simp only [VM.unary, hop, hg, ok_bind, hf]
      rfl
  | PUTC =>
      obtain ⟨⟨x, m₁⟩, hpop, hm⟩ := Option.bind_eq_some_iff.1 hm
      obtain ⟨rfl, rfl⟩ := Prod.mk.inj (Option.some.inj hm)
      obtain ⟨vm₁, hg, h₁⟩ := h.pop hpop
      refine ⟨{ vm₁ with io := vm₁.io.putchar x }, ?_, ?_⟩
      · simp only [VM.unary, hop, hg, ok_bind]
        rfl
      · rw [← h₁.io]
        exact h₁.with_io (vm₁.io.putchar x)
  | GETC =>
      obtain ⟨m₁, hpush, hm⟩ := Option.bind_eq_some_iff.1 hm
      obtain ⟨rfl, rfl⟩ := Prod.mk.inj (Option.some.inj hm)
      rw [← h.io] at hpush
      obtain ⟨vm₁, hf, h₁⟩ := (h.with_io (vm.io.getchar input).2).push hpush
      have hf : VM.f { vm with io := (vm.io.getchar input).2 }
          ((vm.io.getchar input).1 &&& 0xFF) = .ok vm₁ := hf
      refine ⟨vm₁, ?_, h₁⟩
      simp only [VM.unary, hop, hf]
      rfl
  | HALT =>
      obtain ⟨rfl, rfl⟩ := Prod.mk.inj (Option.some.inj hm)
      refine ⟨vm, ?_, h⟩
      simp only [VM.unary, hop]
      rfl

variable (undefined) in
/-- **The binary operations.** -/
theorem binary {op : BinaryOp} (h : Refines size L m vm) (hop : BinaryOp.ofOpcode opcode = some op)
    (hm : m.binary size L op = some m') :
    ∃ vm', vm.binary undefined opcode = .ok vm' ∧ Refines size L m' vm' := by
  obtain ⟨⟨b, m₁⟩, hpop, hm⟩ := Option.bind_eq_some_iff.1 hm
  obtain ⟨⟨a, m₂⟩, hpop', hm⟩ := Option.bind_eq_some_iff.1 hm
  obtain ⟨r, heval, hpush⟩ := Option.bind_eq_some_iff.1 hm
  obtain ⟨vm₁, hg, h₁⟩ := h.pop hpop
  obtain ⟨vm₂, hg', h₂⟩ := h₁.pop hpop'
  obtain ⟨vm₃, hf, h₃⟩ := h₂.push hpush
  refine ⟨vm₃, ?_, h₃⟩
  simp only [VM.binary, hg, ok_bind, hg', VM.result, hop, BinaryOp.eval_of_exact undefined heval,
    hf]

/-- The fetched address is inside the array. -/
theorem ip_lt (h : Refines size L m vm) {w : Word} (hfetch : m.load m.ip = some w) :
    0 ≤ vm.ip_.toInt ∧ vm.ip_.toInt < vm.data_.length := by
  unfold Machine.load at hfetch
  split_ifs at hfetch with hnonneg
  rw [h.ip]
  refine ⟨hnonneg, ?_⟩
  obtain ⟨hlt, _⟩ := List.getElem?_eq_some_iff.1 hfetch
  rw [← h.mem, List.length_take] at hlt
  omega

/-- The instruction pointer moves on as the abstract one does. -/
theorem advance {control : Control} {vm' : VM} (hland : Lands size L m' vm' control)
    (hhalt : control.isHalt = false) :
    (m'.goto control).Refines size L (.running { vm' with ip_ := vm'.ip_ + 1 }) := by
  cases control with
  | next =>
      have h : Refines size L m' vm' := hland
      refine .running ?_
      rw [← ofInt_toInt_add_one, h.ip]
      exact h.with_ip _
  | jump addr =>
      obtain ⟨hjump, h⟩ := hland
      refine .running ?_
      rw [hjump, BitVec.sub_add_cancel]
      exact h.with_ip addr
  | halt => cases hhalt

variable (undefined) in
/-- **One instruction.** -/
theorem step {o : Outcome Machine} (h : Refines size L m vm)
    (hm : m.step size L input = some o) :
    ∃ o', vm.step undefined input = .ok o' ∧ o.Refines size L o' := by
  obtain ⟨w, hfetch, hm⟩ := Option.bind_eq_some_iff.1 hm
  have hbounds := h.ip_lt hfetch
  have hload := h.load hfetch
  rw [← h.ip] at hload
  cases hflag : (Instr.decode w).binop_flag with
  | true =>
      simp only [hflag, if_true] at hm
      obtain ⟨op, hop, hm⟩ := Option.bind_eq_some_iff.1 hm
      obtain ⟨m₁, hbinary, hm⟩ := Option.bind_eq_some_iff.1 hm
      obtain rfl := Option.some.inj hm
      obtain ⟨vm₁, hvm₁, h₁⟩ := h.binary undefined hop hbinary
      refine ⟨_, ?_, advance (show Lands size L m₁ vm₁ .next from h₁) rfl⟩
      simp only [VM.step, hbounds, and_self, not_true, if_false, hload, ok_bind, hflag, if_true,
        hvm₁, pure_eq_ok, Bool.false_eq_true]
  | false =>
      simp only [hflag] at hm
      obtain ⟨op, hop, hm⟩ := Option.bind_eq_some_iff.1 hm
      obtain ⟨⟨control, m₁⟩, hunary, hm⟩ := Option.bind_eq_some_iff.1 hm
      obtain rfl := Option.some.inj hm
      obtain ⟨vm₁, hvm₁, hland⟩ := h.unary undefined hop hunary
      cases hhalt : control.isHalt with
      | true =>
          cases control with
          | halt =>
              refine ⟨.halted vm₁, ?_, .halted hland⟩
              simp only [VM.step, hbounds, and_self, not_true, if_false, hload, ok_bind, hflag,
                Bool.false_eq_true, hvm₁, hhalt, if_true, pure_eq_ok]
          | _ => cases hhalt
      | false =>
          refine ⟨_, ?_, advance hland hhalt⟩
          simp only [VM.step, hbounds, and_self, not_true, if_false, hload, ok_bind, hflag,
            Bool.false_eq_true, hvm₁, hhalt, pure_eq_ok]

variable (undefined) in
/-- **Runs.** -/
theorem run {n : ℕ} {o : Outcome Machine} (h : Refines size L m vm)
    (hm : Machine.run size L input n m = some o) :
    ∃ o', vm.loop undefined input n = .ok o' ∧ o.Refines size L o' := by
  induction n generalizing m vm with
  | zero =>
      obtain rfl := Option.some.inj hm
      exact ⟨.running vm, rfl, .running h⟩
  | succ n ih =>
      obtain ⟨o₁, hstep, hm⟩ := Option.bind_eq_some_iff.1 hm
      obtain ⟨o₁', hstep', hrefines⟩ := h.step undefined hstep
      cases hrefines with
      | running h₁ =>
          obtain ⟨o', hloop, hout⟩ := ih h₁ hm
          refine ⟨o', ?_, hout⟩
          rw [VM.loop, hstep', ok_bind]
          exact hloop
      | halted h₁ =>
          obtain rfl := Option.some.inj hm
          refine ⟨.halted _, ?_, .halted h₁⟩
          rw [VM.loop, hstep', ok_bind]
          rfl

/-- A loaded image is related to the machine that starts on its part below `L`. -/
theorem ofImage {image : List Word} (himage : image.length < 2 ^ 31) (hL : L ≤ image.length) :
    Refines image.length L (Machine.start L image) (VM.ofImage image) := by
  have hsp : (BitVec.ofNat 32 image.length).toInt = image.length := by
    rw [← BitVec.ofInt_natCast, BitVec.toInt_ofInt_eq_self (by decide)]
    · omega
    · exact_mod_cast himage
  refine ⟨himage, hL, rfl, rfl, ?_, ?_, rfl, rfl⟩
  · rw [VM.ofImage, hsp]
    simp [Machine.start]
  · simp [VM.ofImage, Machine.start]

end Refines

/-- **The interpreter refines the machine with a memory of `L` words and a stack**: on every run
that the machine can make, of any number of instructions, it halts when the machine halts and not
before, has read and written the same characters, and holds the memory below `L` and the stack from
`sp_` on. -/
theorem interprete_refines (undefined : Undefined) {image : List Word} {L n : ℕ}
    {input : ℕ → Option (BitVec 8)} {o : Outcome Machine} (himage : image.length < 2 ^ 31)
    (hL : L ≤ image.length)
    (hrun : Machine.run image.length L input n (Machine.start L image) = some o) :
    ∃ o', VM.interprete undefined input n (VM.ofImage image) = .ok o' ∧
      o.Refines image.length L o' := by
  have h := Refines.ofImage himage hL
  obtain ⟨o', hloop, hout⟩ := h.run undefined hrun
  refine ⟨o', ?_, hout⟩
  have hsp : (VM.ofImage image).sp_.toInt = (VM.ofImage image).data_.length := by
    rw [h.sp, h.length]
    simp [Machine.start]
  have hip : (VM.ofImage image).ip_ = 0 := rfl
  simp only [VM.interprete, hip, hsp, not_true, if_false]
  exact hloop

/-- The processor stops the divisions that are left open, and what was never set is zero. -/
def Undefined.trap : Undefined := ⟨fun _ _ => none, fun _ => 0, fun _ => false⟩

/-- The image `push 65; putc; halt` with one cell of stack. -/
theorem interprete_refines_putc : ∃ m : Machine,
    Machine.run 4 3 (fun _ => none) 3
      (Machine.start 3 [0x01000041, 0x08000000, 0x0A000000, 0]) = some (.halted m) ∧
    m.io.written = [65] ∧
    ∃ o', VM.interprete .trap (fun _ => none) 3
      (VM.ofImage [0x01000041, 0x08000000, 0x0A000000, 0]) = .ok o' ∧
        (Outcome.halted m).Refines 4 3 o' := by
  obtain ⟨m, hm, hio⟩ : ∃ m : Machine, Machine.run 4 3 (fun _ => none) 3
      (Machine.start 3 [0x01000041, 0x08000000, 0x0A000000, 0]) = some (.halted m) ∧
        m.io.written = [65] := ⟨_, rfl, rfl⟩
  exact ⟨m, hm, hio, interprete_refines .trap (by decide) (by decide) hm⟩

end SimpleVm
