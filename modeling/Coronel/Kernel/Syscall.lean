import Coronel.Kernel.Interrupts

/-!
# The system call stub

`bootstrap/syscall.S`, cut where the call of `syscall_handler` is commented out.
-/

namespace Coronel

/-- `syscall_int` up to the comment. -/
def syscallEntry : List Instr := [
  .cli,
  .push .rax, .push .rbx, .push .rcx, .push .rdx, .push .rsi, .push .rdi, .push .rbp, .push .r8,
  .push .r9, .push .r10, .push .r11, .push .r12, .push .r13, .push .r14, .push .r15,
  .movDsAx, .push .rax,
  .movImmAx 0x10, .movAxDs, .movEs,
  .mov .rdx .r8, .mov .rax .rdi, .mov .rbx .rsi, .mov .rcx .rdx, .mov .r8 .rcx]

/-- `syscall_int` from the comment to the `iretq`. -/
def syscallExit : List Instr := [
  .pop .rbx, .movBxDs, .movEs,
  .pop .r15, .pop .r14, .pop .r13, .pop .r12, .pop .r11, .pop .r10, .pop .r9, .pop .r8,
  .pop .rbp, .pop .rdi, .pop .rsi, .pop .rdx, .pop .rcx, .pop .rbx,
  .addRsp 8,
  .sti]

namespace Cpu

/-- What the processor does at `int $0x80`, on the stack `stack`: its own or that of the TSS. It
pushes no error code. -/
def deliverSyscall (s : Cpu) (stack : Nat) : Option Cpu := do
  let s' := { s with rsp := stack / 16 * 16 }
  let s' ← s'.pushWord s.ss
  let s' ← s'.pushWord s.rsp
  let s' ← s'.pushWord s.rflags
  let s' ← s'.pushWord s.cs
  let s' ← s'.pushWord s.rip
  return { s' with cs := 0x8 }

/-- The state at the point reserved for the call. -/
def syscallPoint (s : Cpu) (stack : Nat) : Option Cpu := do
  (← s.deliverSyscall stack).run id syscallEntry

/-- The state before `iretq`, when the call is made and `s` is the state that it returns to. -/
def syscallReturn (s : Cpu) : Option Cpu := s.run id syscallExit

end Cpu

end Coronel
