import Coronel.Kernel.UserAllocator

/-!
# The memory of a process

`class process_memory` of `memory/user_allocator.cpp`, whose stack is set up in
`Kernel.UserAllocator`. The allocator object lies where `kmalloc` puts it; its fields are passed as
a value, with that address.
-/

namespace Coronel

open Theory

/-- `sizeof(user_allocator)` -/
def sizeofUserAllocator : Nat := 48

/-- `USER_NULL_GUARD_SIZE` -/
def userNullGuardSize : Nat := 0x400000

/-- Access the `n` bytes of an object that `kmalloc` returned: placement memory through the window,
a block of the heap through CR3. -/
def touchObject (addr n : Nat) : Kernel Unit :=
  if kvirtualAddress ≤ addr then
    touch addr n
  else do
    let _ ← loadN n addr
    return

/-- `class process_memory`: the fields of the stack are those of `ProcessMemory`. -/
structure Process extends ProcessMemory where
  virtualManager : Virt
  /-- `heap_`, and the fields of the object there; `none` is `nullptr`. -/
  heap : Option (Nat × UserAllocator)
  codeStart : Nat
  codeSize : Nat
  dataStart : Nat
  dataSize : Nat
deriving DecidableEq, Repr

namespace Process

/-- `process_memory::process_memory` -/
def new (pageDir : Nat) : Kernel Process := do
  let virtualManager ← Virt.new
  let place ← kmalloc sizeofUserAllocator
  touchObject place sizeofUserAllocator
  let heap ← UserAllocator.new pageDir
  return {
    pageDirectory := pageDir, virtualManager, heap := some (place, heap), stackTop := 0
    stackSize := 0, codeStart := 0, codeSize := 0, dataStart := 0, dataSize := 0 }

/-- `process_memory::setup_memory_layout`; it maps nothing. -/
def setupMemoryLayout (self : Process) (codeAddr codeSz dataAddr dataSz : Nat) : Bool × Process :=
  (true, { self with
    codeStart := codeAddr, codeSize := codeSz, dataStart := dataAddr, dataSize := dataSz })

/-- `process_memory::setup_stack` -/
def setupStack (self : Process) (stackSize : Nat) : Kernel (Bool × Process) := do
  let r ← ProcessMemory.setupStack self.toProcessMemory stackSize
  return (r.1, { self with toProcessMemory := r.2 })

/-- `process_memory::cleanup_all`, and the destructor. -/
def cleanupAll (self : Process) : Kernel Process := do
  match self.heap with
  | none => return self
  | some (place, heap) =>
    UserAllocator.cleanupOnExit heap
    kfree place
    return { self with heap := none }

/-- `process_memory::validate_user_pointer` -/
def validateUserPointer (ptr size : Nat) : Bool :=
  let endAddr := add64 ptr size
  if endAddr < ptr then
    false
  else if ptr < userNullGuardSize then
    false
  else if 0x0000800000000000 ≤ ptr ∨ 0x0000800000000000 ≤ endAddr then
    false
  else
    true

end Process
end Coronel
