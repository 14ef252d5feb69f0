import Coronel.Theory.Stack

/-!
# Interrupt stubs

`bootstrap/isr.S` and the `interrupt_t` of `registers.hpp`. The stubs are lists of the instructions
they use; a `jmp` to one of the two handlers is continued by the handler's own list.
-/

namespace Coronel

open Theory

/-- The general registers, in the order of `struct regs`. -/
inductive Gpr
  | rax | rbx | rcx | rdx | r8 | r9 | r10 | r11 | r12 | r13 | r14 | r15 | rbp | rsi | rdi
deriving DecidableEq, Repr

/-- `struct regs` -/
structure Regs where
  ds : Nat
  rax : Nat
  rbx : Nat
  rcx : Nat
  rdx : Nat
  r8 : Nat
  r9 : Nat
  r10 : Nat
  r11 : Nat
  r12 : Nat
  r13 : Nat
  r14 : Nat
  r15 : Nat
  rbp : Nat
  rsi : Nat
  rdi : Nat
deriving DecidableEq, Repr

/-- The field of a general register. -/
def Regs.gpr (r : Regs) : Gpr → Nat
  | .rax => r.rax
  | .rbx => r.rbx
  | .rcx => r.rcx
  | .rdx => r.rdx
  | .r8 => r.r8
  | .r9 => r.r9
  | .r10 => r.r10
  | .r11 => r.r11
  | .r12 => r.r12
  | .r13 => r.r13
  | .r14 => r.r14
  | .r15 => r.r15
  | .rbp => r.rbp
  | .rsi => r.rsi
  | .rdi => r.rdi

/-- `struct interrupt_t` -/
structure InterruptT where
  registers : Regs
  intNo : Nat
  errorCode : Nat
  rip : Nat
  cs : Nat
  rflags : Nat
  userrsp : Nat
  ss : Nat
deriving DecidableEq, Repr

/-- The `interrupt_t` at `p`: 23 fields of 8 bytes. -/
def InterruptT.read (m : WordMem) (p : Nat) : Option InterruptT :=
  match readWords m 23 p with
  | some [ds, rax, rbx, rcx, rdx, r8, r9, r10, r11, r12, r13, r14, r15, rbp, rsi, rdi,
      intNo, errorCode, rip, cs, rflags, userrsp, ss] =>
    some ⟨⟨ds, rax, rbx, rcx, rdx, r8, r9, r10, r11, r12, r13, r14, r15, rbp, rsi, rdi⟩,
      intNo, errorCode, rip, cs, rflags, userrsp, ss⟩
  | _ => none

/-- The processor. -/
structure Cpu where
  gpr : Gpr → Nat
  rsp : Nat
  rip : Nat
  cs : Nat
  rflags : Nat
  ss : Nat
  ds : UInt16
  mem : WordMem
  /-- Ghost: the `interrupt_t` that the last `call` was passed in `rdi`. -/
  received : Option InterruptT

/-! ### Instructions -/

inductive Instr
  | cli
  /-- `push $value` -/
  | pushImm (value : Nat)
  /-- `push addr`: without the `$` the operand is the memory at `addr`. -/
  | pushMem (addr : Nat)
  | push (r : Gpr)
  | pop (r : Gpr)
  /-- `mov $value, %r` -/
  | movImm (value : Nat) (r : Gpr)
  /-- `mov %ds, %ax`: the upper bits of `rax` stay. -/
  | movDsAx
  /-- `mov %ax, %ds` -/
  | movAxDs
  /-- `mov %rsp, %rdi` -/
  | movRspRdi
  /-- `call _Z17interrupt_handlerRK11interrupt_t` -/
  | call
  /-- `add $n, %rsp` -/
  | addRsp (n : Nat)
  | iretq
  | sti
  /-- `mov %src, %dst` -/
  | mov (src dst : Gpr)
  /-- `mov $value, %ax`: the upper bits of `rax` stay. -/
  | movImmAx (value : Nat)
  /-- `mov %bx, %ds` -/
  | movBxDs
  /-- `mov %ax, %es` and `mov %bx, %es`; `es` is not part of `Cpu`. -/
  | movEs
deriving DecidableEq, Repr

namespace Cpu

/-- `none` is a page fault on the stack. -/
def pushWord (s : Cpu) (w : Nat) : Option Cpu :=
  if 8 ≤ s.rsp ∧ (s.mem (s.rsp - 8)).isSome then
    some { s with rsp := s.rsp - 8, mem := Function.update s.mem (s.rsp - 8) (some w) }
  else
    none

def popWord (s : Cpu) : Option (Nat × Cpu) := do
  let w ← s.mem s.rsp
  return (w, { s with rsp := s.rsp + 8 })

def setGpr (s : Cpu) (r : Gpr) (w : Nat) : Cpu := { s with gpr := Function.update s.gpr r w }

/-- One instruction, with `handler` for `interrupt_handler`; `none` is a page fault. -/
def exec (handler : Cpu → Cpu) (s : Cpu) : Instr → Option Cpu
  | .cli => some { s with rflags := s.rflags &&& (2 ^ 64 - 1 - 0x200) }
  | .pushImm value => s.pushWord value
  | .pushMem addr => do s.pushWord (← s.mem addr)
  | .push r => s.pushWord (s.gpr r)
  | .pop r => do
    let (w, s) ← s.popWord
    return s.setGpr r w
  | .movImm value r => some (s.setGpr r value)
  | .movDsAx => some (s.setGpr .rax (s.gpr .rax / 2 ^ 16 * 2 ^ 16 + s.ds.toNat))
  | .movAxDs => some { s with ds := .ofNat (s.gpr .rax) }
  | .movRspRdi => some (s.setGpr .rdi s.rsp)
  | .call => some { handler s with received := InterruptT.read s.mem (s.gpr .rdi) }
  | .addRsp n => some { s with rsp := s.rsp + n }
  | .iretq => do
    let (rip, s) ← s.popWord
    let (cs, s) ← s.popWord
    let (rflags, s) ← s.popWord
    let (rsp, s) ← s.popWord
    let (ss, s) ← s.popWord
    return { s with rip, cs, rflags, rsp, ss }
  | .sti => some { s with rflags := s.rflags ||| 0x200 }
  | .mov src dst => some (s.setGpr dst (s.gpr src))
  | .movImmAx value => some (s.setGpr .rax (s.gpr .rax / 2 ^ 16 * 2 ^ 16 + value % 2 ^ 16))
  | .movBxDs => some { s with ds := .ofNat (s.gpr .rbx) }
  | .movEs => some s

def run (handler : Cpu → Cpu) (s : Cpu) (code : List Instr) : Option Cpu :=
  code.foldlM (exec handler) s

end Cpu

/-! ### isr.S -/

def saveRegs : List Instr := [.push .rdi, .push .rsi, .push .rbp, .push .r15, .push .r14,
  .push .r13, .push .r12, .push .r11, .push .r10, .push .r9, .push .r8, .push .rdx, .push .rcx,
  .push .rbx, .push .rax]

def restoreRegs : List Instr := [.pop .rax, .pop .rbx, .pop .rcx, .pop .rdx, .pop .r8, .pop .r9,
  .pop .r10, .pop .r11, .pop .r12, .pop .r13, .pop .r14, .pop .r15, .pop .rbp, .pop .rsi, .pop .rdi]

def isrHandler : List Instr :=
  .movImm 1 .r15 :: saveRegs ++ [.movDsAx, .push .rax, .movRspRdi, .call, .pop .rax, .movAxDs,
    .movAxDs] ++ restoreRegs ++ [.addRsp 16, .iretq]

def irqHandler : List Instr :=
  saveRegs ++ [.movDsAx, .push .rax, .movRspRdi, .call, .pop .rax, .movAxDs,
    .movAxDs] ++ restoreRegs ++ [.addRsp 16, .iretq]

/-- `ISR0(name, num)` -/
def isr0 (num : Nat) : List Instr := [.cli, .pushImm num] ++ isrHandler

/-- `ISR1(name, num, x)` -/
def isr1 (num x : Nat) : List Instr := [.cli, .pushMem x, .pushImm num] ++ isrHandler

/-- `IRQ(num)` -/
def irq (num : Nat) : List Instr := [.cli, .pushImm 0x0, .pushImm (num + 0x20)] ++ irqHandler

/-- The stubs of the exceptions, `div` to `rsC`. -/
def isrs : List (List Instr) := [
  isr1 0 0, isr1 1 0, isr1 2 0, isr1 3 0, isr1 4 0, isr1 5 0, isr1 6 0, isr1 7 0,
  isr0 8, isr1 9 0, isr0 10, isr0 11, isr0 12, isr0 13, isr0 14, isr1 15 0,
  isr1 16 0, isr0 17, isr1 18 0, isr1 19 0, isr1 20 0, isr0 21, isr1 22 0, isr1 23 0,
  isr1 24 0, isr1 25 0, isr1 26 0, isr1 27 0, isr1 28 0, isr1 29 0, isr1 30 0, isr1 31 0]

/-! ### Delivery -/

/-- What the stubs are for. -/
inductive Vector
  | exception (num : Fin 32)
  | irq (num : Fin 16)

namespace Vector

/-- The vector number; the interrupt controllers are remapped behind the exceptions. -/
def number : Vector → Nat
  | exception num => num
  | irq num => 0x20 + num

/-- The exceptions for which the processor pushes an error code. -/
def pushesErrorCode : Vector → Bool
  | exception num => num.val ∈ [8, 10, 11, 12, 13, 14, 17, 21]
  | irq _ => false

def stub : Vector → List Instr
  | exception num => isrs.getD num []
  | irq num => Coronel.irq num

end Vector

/-- What the processor does first, on the stack `stack`: its own or that of the TSS. -/
def Cpu.deliver (s : Cpu) (v : Vector) (stack errorCode : Nat) : Option Cpu := do
  let s' := { s with rsp := stack / 16 * 16 }
  let s' ← s'.pushWord s.ss
  let s' ← s'.pushWord s.rsp
  let s' ← s'.pushWord s.rflags
  let s' ← s'.pushWord s.cs
  let s' ← s'.pushWord s.rip
  let s' ← if v.pushesErrorCode then s'.pushWord errorCode else some s'
  return { s' with cs := 0x8 }

/-- The whole interrupt: from delivery to the state after `iretq`. -/
def Cpu.interrupt (handler : Cpu → Cpu) (s : Cpu) (v : Vector) (stack errorCode : Nat) :
    Option Cpu := do
  (← s.deliver v stack errorCode).run handler v.stub

end Coronel
