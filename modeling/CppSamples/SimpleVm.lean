/-
**The interpreter of `simple-vm`.**

The machine keeps its code, its data and a stack that grows downward in one array `data_` of 32-bit
words, with the instruction pointer `ip_` and the stack pointer `sp_`.  An instruction is a word:
the low 24 bits are an operand, the next 7 the operation code, and the top bit tells the binary
operations from the others.

A failed assertion ends a run, and an access outside the array is a fault, with which a run ends
here.  Everything else goes on: a sum, a difference or a product that does not fit wraps around, and
where the source leaves open what is computed, `Undefined` says it, which is any function of the
machine.

Main definitions:

* `SimpleVm.Undefined` — what the source leaves open;
* `SimpleVm.Instr.decode` — the fields of an instruction;
* `SimpleVm.VM.f`, `SimpleVm.VM.g` — pushing and popping;
* `SimpleVm.VM.unary`, `SimpleVm.VM.binary` — the operations;
* `SimpleVm.VM.interprete` — the interpreter, for a number of instructions.
-/

import Mathlib.Data.BitVec
import Mathlib.Data.List.Basic

set_option relaxedAutoImplicit false
set_option autoImplicit false

namespace SimpleVm

/-- `int32_t` -/
abbrev Word := BitVec 32

/-- What ends a run without a halt. -/
inductive Fault
  | assertion
  | outOfBounds
  /-- the processor stops a division -/
  | division
  deriving DecidableEq, Repr

/-! ### Instructions -/

/-- `UNARY_OP` -/
inductive UnaryOp
  | POP | PUSH_CONST | PUSH_IP | PUSH_SP | LOAD | STORE | JMP | NOT | PUTC | GETC | HALT
  deriving DecidableEq, Repr

/-- `BINARY_OP` -/
inductive BinaryOp
  | ADD | SUB | MUL | DIV | AND | OR | XOR | EQ | LT
  deriving DecidableEq, Repr

/-- The unary operations by their codes. -/
def UnaryOp.ofOpcode : ℕ → Option UnaryOp
  | 0 => some .POP
  | 1 => some .PUSH_CONST
  | 2 => some .PUSH_IP
  | 3 => some .PUSH_SP
  | 4 => some .LOAD
  | 5 => some .STORE
  | 6 => some .JMP
  | 7 => some .NOT
  | 8 => some .PUTC
  | 9 => some .GETC
  | 10 => some .HALT
  | _ => none

/-- The binary operations by their codes. -/
def BinaryOp.ofOpcode : ℕ → Option BinaryOp
  | 0 => some .ADD
  | 1 => some .SUB
  | 2 => some .MUL
  | 3 => some .DIV
  | 4 => some .AND
  | 5 => some .OR
  | 6 => some .XOR
  | 7 => some .EQ
  | 8 => some .LT
  | _ => none

/-- `INSTR` -/
structure Instr where
  /-- the low 24 bits, as an unsigned number in a word -/
  optional : Word
  /-- the next 7 bits -/
  opcode : ℕ
  /-- the top bit -/
  binop_flag : Bool

/-- The fields of an instruction word. -/
def Instr.decode (w : Word) : Instr where
  optional := w &&& 0xFFFFFF
  opcode := (w >>> 24 &&& 0x7F).toNat
  binop_flag := w.msb

/-! ### The console -/

/-- The number of characters read so far, and the characters written. -/
structure Console where
  read : ℕ
  written : List (BitVec 8)

/-- `getchar()` on an input that may end, where it returns `EOF`. -/
def Console.getchar (input : ℕ → Option (BitVec 8)) (io : Console) : Word × Console :=
  let x := match input io.read with
    | some c => c.setWidth 32
    | none => -1
  (x, { io with read := io.read + 1 })

/-- `putchar(x & 0xff)` -/
def Console.putchar (io : Console) (x : Word) : Console :=
  { io with written := io.written ++ [(x &&& 0xFF).setWidth 8] }

/-! ### The machine -/

/-- The array, the instruction pointer, the stack pointer, and the console. -/
structure VM where
  data_ : List Word
  ip_ : Word
  sp_ : Word
  io : Console

/-- What the source leaves open. -/
structure Undefined where
  /-- the quotient of a division by zero, or one that does not fit, unless the processor stops it -/
  quotient : Word → Word → Option Word
  /-- the word `r` that no case of `binary` has set -/
  r : VM → Word
  /-- the result of `unary` behind all its cases, where there is no `return` -/
  halts : VM → Bool

variable (undefined : Undefined)

/-- The value of a binary operation: `b` was the top of the stack and `a` was below it. -/
def BinaryOp.eval (op : BinaryOp) (a b : Word) : Except Fault Word :=
  match op with
  | .ADD => .ok (a + b)
  | .SUB => .ok (a - b)
  | .MUL => .ok (a * b)
  | .DIV =>
    if b = 0 ∨ a.toInt = -2 ^ 31 ∧ b.toInt = -1 then
      match undefined.quotient a b with
      | some q => .ok q
      | none => .error .division
    else .ok (BitVec.ofInt 32 (a.toInt.tdiv b.toInt))
  | .AND => .ok (a &&& b)
  | .OR => .ok (a ||| b)
  | .XOR => .ok (a ^^^ b)
  | .EQ => .ok (if a = b then 1 else 0)
  | .LT => .ok (if a.toInt < b.toInt then 1 else 0)

/-- A run that goes on, or a run that has halted. -/
inductive Outcome (σ : Type*)
  | running (s : σ)
  | halted (s : σ)

namespace VM

/-- The machine after an image was loaded. -/
def ofImage (image : List Word) : VM := ⟨image, 0, BitVec.ofNat 32 image.length, ⟨0, []⟩⟩

/-- `data_[i]`, read. -/
def load (vm : VM) (i : Word) : Except Fault Word :=
  if 0 ≤ i.toInt then
    match vm.data_[i.toInt.toNat]? with
    | some v => .ok v
    | none => .error .outOfBounds
  else .error .outOfBounds

/-- `data_[i] = v` -/
def store (vm : VM) (i v : Word) : Except Fault VM :=
  if 0 ≤ i.toInt ∧ i.toInt < vm.data_.length then
    .ok { vm with data_ := vm.data_.set i.toInt.toNat v }
  else .error .outOfBounds

/-- `data_[--sp_] = v` -/
def f (vm : VM) (v : Word) : Except Fault VM :=
  let sp_ := vm.sp_ - 1
  VM.store { vm with sp_ } sp_ v

/-- `data_[sp_++]` -/
def g (vm : VM) : Except Fault (Word × VM) := do
  let v ← vm.load vm.sp_
  return (v, { vm with sp_ := vm.sp_ + 1 })

/-- The unary operations; the flag tells a halt. -/
def unary (input : ℕ → Option (BitVec 8)) (vm : VM) (opcode : ℕ) (optional : Word) :
    Except Fault (Bool × VM) := do
  match UnaryOp.ofOpcode opcode with
  | some .POP => return (false, { vm with sp_ := vm.sp_ + 1 })
  | some .PUSH_CONST =>
    let vm ← vm.f optional
    return (false, vm)
  | some .PUSH_IP =>
    -- the pushed address is that of the next instruction
    let vm ← vm.f (vm.ip_ + 1)
    return (false, vm)
  | some .PUSH_SP =>
    let vm ← vm.f vm.sp_
    return (false, vm)
  | some .LOAD =>
    let (addr, vm) ← vm.g
    let v ← vm.load addr
    let vm ← vm.f v
    return (false, vm)
  | some .STORE =>
    let (st_data, vm) ← vm.g
    let (addr, vm) ← vm.g
    let vm ← vm.store addr st_data
    return (false, vm)
  | some .JMP =>
    let (cond, vm) ← vm.g
    let (addr, vm) ← vm.g
    -- one less, since the interpreter adds one
    return (false, if cond ≠ 0 then { vm with ip_ := addr - 1 } else vm)
  | some .NOT =>
    let (x, vm) ← vm.g
    let vm ← vm.f (if x = 0 then 1 else 0)
    return (false, vm)
  | some .PUTC =>
    let (x, vm) ← vm.g
    return (false, { vm with io := vm.io.putchar x })
  | some .GETC =>
    let (x, io) := vm.io.getchar input
    let vm ← VM.f { vm with io } (x &&& 0xFF)
    return (false, vm)
  | some .HALT => return (true, vm)
  | none => return (undefined.halts vm, vm)

/-- `r` behind the cases of `binary`. -/
def result (vm : VM) (opcode : ℕ) (a b : Word) : Except Fault Word :=
  match BinaryOp.ofOpcode opcode with
  | some op => op.eval undefined a b
  | none => .ok (undefined.r vm)

/-- The binary operations. -/
def binary (vm : VM) (opcode : ℕ) : Except Fault VM := do
  let (b, vm) ← vm.g
  let (a, vm) ← vm.g
  let r ← vm.result undefined opcode a b
  vm.f r

/-- One pass of the interpreter's loop. -/
def step (input : ℕ → Option (BitVec 8)) (vm : VM) : Except Fault (Outcome VM) := do
  if ¬(0 ≤ vm.ip_.toInt ∧ vm.ip_.toInt < vm.data_.length) then .error .assertion
  let w ← vm.load vm.ip_
  let instr := Instr.decode w
  let (halt, vm) ←
    if instr.binop_flag then
      let vm ← vm.binary undefined instr.opcode
      pure (false, vm)
    else vm.unary undefined input instr.opcode instr.optional
  if halt then return .halted vm
  return .running { vm with ip_ := vm.ip_ + 1 }

/-- The loop, for at most `n` passes. -/
def loop (input : ℕ → Option (BitVec 8)) : ℕ → VM → Except Fault (Outcome VM)
  | 0, vm => return .running vm
  | n + 1, vm => do
    match ← vm.step undefined input with
    | .running vm => loop input n vm
    | .halted vm => return .halted vm

/-- **The interpreter**, for at most `n` instructions. -/
def interprete (input : ℕ → Option (BitVec 8)) (n : ℕ) (vm : VM) : Except Fault (Outcome VM) := do
  if ¬vm.ip_ = 0 then .error .assertion
  if ¬vm.sp_.toInt = vm.data_.length then .error .assertion
  vm.loop undefined input n

end VM

end SimpleVm
