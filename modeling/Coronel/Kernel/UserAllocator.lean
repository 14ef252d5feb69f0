import Coronel.Kernel.Heap

/-!
# The user space allocator

`memory/user_allocator.cpp`. As for the kernel heap, the headers lie in memory and are reached
through CR3, while the fields of a `user_allocator` are passed as a value, `self`. Pages are
requested for `page_directory_`, which need not be the current directory.
-/

namespace Coronel

/-! ### user_block -/

namespace UserBlock

/-- `sizeof(user_block)` -/
def sizeofUserBlock : Nat := 24

def flagFree : Nat := 0x01

def magicMask : Nat := 0xFF000000

def magicFree : Nat := 0xAA000000

def magicUsed : Nat := 0x55000000

def size (block : Nat) : Kernel Nat := loadN 4 block

/-- The field is a `uint32_t`; what is stored is cut to 32 bits. -/
def setSize (block value : Nat) : Kernel Unit := storeN 4 block value

def flags (block : Nat) : Kernel Nat := loadN 4 (add64 block 4)

def setFlags (block value : Nat) : Kernel Unit := storeN 4 (add64 block 4) value

def next (block : Nat) : Kernel Nat := loadN 8 (add64 block 8)

def setNext (block value : Nat) : Kernel Unit := storeN 8 (add64 block 8) value

def prev (block : Nat) : Kernel Nat := loadN 8 (add64 block 16)

def setPrev (block value : Nat) : Kernel Unit := storeN 8 (add64 block 16) value

/-- `user_block::user_block`; the magic value is set in `flags` before it is stored for good. -/
def new (block sz : Nat) (free : Bool) : Kernel Unit := do
  setSize block sz
  setFlags block (if free then flagFree else 0)
  setNext block 0
  setPrev block 0
  setFlags block ((← flags block) ||| if free then magicFree else magicUsed)

/-- `is_free` -/
def isFree (block : Nat) : Kernel Bool := do
  return (← flags block) &&& flagFree ≠ 0

/-- `set_free` -/
def setFree (block : Nat) (free : Bool) : Kernel Unit := do
  let kept := (← flags block) &&& (2 ^ 32 - 1 - (flagFree ||| magicMask))
  setFlags block (kept ||| if free then flagFree else 0)
  setFlags block ((← flags block) ||| if free then magicFree else magicUsed)

/-- `is_valid` -/
def isValid (block : Nat) : Kernel Bool := do
  let magic := (← flags block) &&& magicMask
  return magic == magicFree || magic == magicUsed

end UserBlock

/-- `struct user_block` -/
def userBlock : BlockType where
  sizeof := UserBlock.sizeofUserBlock
  size := UserBlock.size
  setSize := UserBlock.setSize
  isFree := UserBlock.isFree
  setFree := UserBlock.setFree
  next := UserBlock.next
  setNext := UserBlock.setNext
  prev := UserBlock.prev
  setPrev := UserBlock.setPrev
  isValid := UserBlock.isValid
  new := UserBlock.new

/-! ### user_allocator -/

/-- `USER_HEAP_START_ADDR` -/
def userHeapStartAddr : Nat := 0x08000000

/-- `USER_HEAP_MAX_ADDR` -/
def userHeapMaxAddr : Nat := 0x40000000

/-- `USER_STACK_TOP` -/
def userStackTop : Nat := 0x7FFF0000

/-- `USER_HEAP_INITIAL_SIZE` -/
def userHeapInitialSize : Nat := mb 1

/-- `class user_allocator` -/
structure UserAllocator where
  heapStart : Nat
  heapCurrent : Nat
  heapLimit : Nat
  firstBlock : Nat
  pageDirectory : Nat
  totalAllocated : Nat
  numBlocks : Nat
deriving DecidableEq, Repr

namespace UserAllocator

open UserBlock

/-- `user_allocator::sys_request_memory` -/
def sysRequestMemory (self : UserAllocator) (addr size : Nat) : Kernel Bool :=
  mapFramesFrom (pure self.pageDirectory) 0x07 (fun _ => pure ())
    (unmapPages (pure self.pageDirectory) addr) addr (alignUp size / frameSize) 0

/-- `user_allocator::sys_release_memory` -/
def sysReleaseMemory (self : UserAllocator) (addr size : Nat) : Kernel Unit :=
  unmapPages (pure self.pageDirectory) addr (alignUp size / frameSize)

/-- `user_allocator::user_allocator` -/
def new (pageDir : Nat) : Kernel UserAllocator := do
  let self : UserAllocator := {
    heapStart := userHeapStartAddr, heapCurrent := userHeapStartAddr
    heapLimit := userHeapMaxAddr, firstBlock := 0, pageDirectory := pageDir
    totalAllocated := 0, numBlocks := 0 }
  if ← sysRequestMemory self self.heapStart userHeapInitialSize then
    UserBlock.new self.heapStart (userHeapInitialSize - sizeofUserBlock) true
    return { self with
      heapCurrent := add64 self.heapStart userHeapInitialSize
      firstBlock := self.heapStart }
  else
    return self

/-- `user_allocator::find_free_block` -/
def findFreeBlock (self : UserAllocator) (size : Nat) : Kernel Nat :=
  userBlock.findFreeBlock self.firstBlock size

/-- `user_allocator::split_block` -/
def splitBlock (self : UserAllocator) (block size : Nat) : Kernel UserAllocator := do
  if ← userBlock.splitBlock block size then
    return { self with numBlocks := toUInt32 (self.numBlocks + 1) }
  else
    return self

/-- `user_allocator::coalesce_block` -/
def coalesceBlock (self : UserAllocator) (block : Nat) : Kernel UserAllocator := do
  let removed ← userBlock.coalesceBlock block
  return { self with numBlocks := toUInt32 (sub64 self.numBlocks removed) }

/-- `user_allocator::expand_heap` -/
def expandHeap (self : UserAllocator) (minSize : Nat) : Kernel (Bool × UserAllocator) := do
  let expandSize := alignUp minSize
  if userHeapMaxAddr < add64 self.heapCurrent expandSize then
    return (false, self)
  if !(← sysRequestMemory self self.heapCurrent expandSize) then
    return (false, self)
  let newBlock := self.heapCurrent
  UserBlock.new newBlock (sub64 expandSize sizeofUserBlock) true
  if self.firstBlock ≠ 0 then
    userBlock.appendBlock self.firstBlock newBlock
  let self := { self with
    firstBlock := if self.firstBlock ≠ 0 then self.firstBlock else newBlock
    heapCurrent := add64 self.heapCurrent expandSize }
  return (true, ← coalesceBlock self newBlock)

/-- `MAX_SINGLE_ALLOC` and `MAX_TOTAL_ALLOC` -/
def maxAlloc : Nat := 0x80000000

/-- The end of `malloc`, with the block it found. -/
def mallocFrom (self : UserAllocator) (block alignedSize : Nat) : Kernel (Nat × UserAllocator) := do
  if block = 0 then
    return (0, self)
  let self ← splitBlock self block alignedSize
  setFree block false
  return (userBlock.data block,
    { self with totalAllocated := toUInt32 (self.totalAllocated + alignedSize) })

/-- `user_allocator::malloc`; 0 is `nullptr`. -/
def malloc (self : UserAllocator) (size : Nat) : Kernel (Nat × UserAllocator) := do
  if size = 0 then
    return (0, self)
  if maxAlloc < size then
    return (0, self)
  let alignedSize := toUInt32 (alignUp size)
  let block ← findFreeBlock self alignedSize
  if block = 0 then
    let r ← expandHeap self (toUInt32 (add64 alignedSize sizeofUserBlock))
    if !r.1 then
      return (0, r.2)
    let block ← findFreeBlock r.2 alignedSize
    mallocFrom r.2 block alignedSize
  else
    mallocFrom self block alignedSize

/-- `user_allocator::free` -/
def free (self : UserAllocator) (ptr : Nat) : Kernel UserAllocator := do
  match ← userBlock.freeBlock ptr with
  | none => return self
  | some (size, removed) =>
    return { self with
      totalAllocated := toUInt32 (sub64 self.totalAllocated size)
      numBlocks := toUInt32 (sub64 self.numBlocks removed) }

/-- `user_allocator::realloc`; 0 is `nullptr`. -/
def realloc (self : UserAllocator) (ptr newSize : Nat) : Kernel (Nat × UserAllocator) := do
  if ptr = 0 then
    malloc self newSize
  else if newSize = 0 then
    return (0, ← free self ptr)
  else
    let block := userBlock.fromData ptr
    if !(← isValid block) then
      return (0, self)
    if ← isFree block then
      return (0, self)
    let alignedNewSize := toUInt32 (alignUp newSize)
    let oldSize ← UserBlock.size block
    if alignedNewSize ≤ oldSize then
      if add64 (add64 alignedNewSize sizeofUserBlock) 16 < oldSize then
        let self ← splitBlock self block alignedNewSize
        return (ptr, self)
      else
        return (ptr, self)
    else
      let r ← malloc self newSize
      if r.1 = 0 then
        return (0, r.2)
      memcpy r.1 ptr oldSize
      let self ← free r.2 ptr
      return (r.1, self)

/-- `user_allocator::calloc`; 0 is `nullptr`. -/
def calloc (self : UserAllocator) (num size : Nat) : Kernel (Nat × UserAllocator) := do
  if 0 < num ∧ maxAlloc / num < size then
    return (0, self)
  let totalSize := mul64 num size
  let r ← malloc self totalSize
  if r.1 ≠ 0 then
    memset r.1 0 totalSize
  return r

/-- `user_allocator::set_heap_limit` -/
def setHeapLimit (self : UserAllocator) (maxSize : Nat) : Bool × UserAllocator :=
  let newLimit := add64 self.heapStart maxSize
  if userHeapMaxAddr < newLimit ∨ newLimit < self.heapCurrent then
    (false, self)
  else
    (true, { self with heapLimit := newLimit })

/-- `user_allocator::cleanup_on_exit` -/
def cleanupOnExit (self : UserAllocator) : Kernel Unit :=
  if self.heapStart < self.heapCurrent then
    sysReleaseMemory self self.heapStart (sub64 self.heapCurrent self.heapStart)
  else
    pure ()

end UserAllocator

/-! ### Process memory -/

/-- `class process_memory`: the fields that its stack is set up with. -/
structure ProcessMemory where
  pageDirectory : Nat
  stackTop : Nat
  stackSize : Nat
deriving DecidableEq, Repr

namespace ProcessMemory

/-- `USER_STACK_TOP` -/
def userStackTop : Nat := 0x7FFF0000

/-- `process_memory::setup_stack`. It has no cleanup: what is mapped stays when a frame cannot be
had. -/
def setupStack (self : ProcessMemory) (stackSize : Nat) : Kernel (Bool × ProcessMemory) := do
  let self := { self with stackSize := alignUp stackSize, stackTop := userStackTop }
  let stackBottom := sub64 self.stackTop self.stackSize
  let pagesNeeded := self.stackSize / frameSize
  let r ← mapFramesFrom (pure self.pageDirectory) 0x07 (fun _ => pure ()) (fun _ => pure ())
    stackBottom pagesNeeded 0
  return (r, self)

end ProcessMemory
end Coronel
