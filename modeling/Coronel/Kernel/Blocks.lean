import Coronel.Kernel.Paging

/-!
# Blocks and pages of a heap

What `memory/heap.cpp` and `memory/user_allocator.cpp` do alike: the walks over a list of blocks,
splitting and coalescing, and the loop that maps pages. The two structs of block headers are two
values of `BlockType`. Headers lie in memory and are read and written through CR3. A list of blocks
is walked with fuel, more than there are addresses.
-/

namespace Coronel

open Theory

/-- More steps than a list of blocks can have. -/
def fuel : Nat := 2 ^ 64

/-- `heap_block` or `user_block`: how the header at an address is read and written. -/
structure BlockType where
  sizeof : Nat
  size : Nat → Kernel Nat
  setSize : Nat → Nat → Kernel Unit
  isFree : Nat → Kernel Bool
  /-- The free flag and the magic value, which the source sets together. -/
  setFree : Nat → Bool → Kernel Unit
  next : Nat → Kernel Nat
  setNext : Nat → Nat → Kernel Unit
  prev : Nat → Kernel Nat
  setPrev : Nat → Nat → Kernel Unit
  isValid : Nat → Kernel Bool
  /-- The constructor, with size and free flag. -/
  new : Nat → Nat → Bool → Kernel Unit

namespace BlockType

variable (T : BlockType)

/-- `data()` -/
def data (block : Nat) : Nat := add64 block T.sizeof

/-- `from_data` -/
def fromData (ptr : Nat) : Nat := sub64 ptr T.sizeof

/-- `if (block) block->prev = value;` -/
def setPrevIf (block value : Nat) : Kernel Unit :=
  if block = 0 then pure () else T.setPrev block value

/-- `current->is_free && current->size >= size` -/
def fits (current size : Nat) : Kernel Bool := do
  if ← T.isFree current then
    return size ≤ (← T.size current)
  else
    return false

/-- The loop of `find_free_block`, at the block `current`; 0 is `nullptr`. -/
def findFreeBlockFrom (size : Nat) : Nat → Nat → Kernel Nat
  | 0, _ => Prog.throw .hang
  | n + 1, current => do
    if current = 0 then
      return 0
    if ← T.fits current size then
      return current
    findFreeBlockFrom size n (← T.next current)

/-- `find_free_block`, in the list that starts at `firstBlock` -/
def findFreeBlock (firstBlock size : Nat) : Kernel Nat :=
  T.findFreeBlockFrom size fuel firstBlock

/-- `split_block`: whether there is a new block. -/
def splitBlock (block size : Nat) : Kernel Bool := do
  if (← T.size block) < add64 size (T.sizeof + 16) then
    return false
  let newBlock := add64 (T.data block) size
  let remainingSize := sub64 (sub64 (← T.size block) size) T.sizeof
  T.new newBlock remainingSize true
  T.setNext newBlock (← T.next block)
  T.setPrev newBlock block
  T.setPrevIf (← T.next block) newBlock
  T.setNext block newBlock
  T.setSize block size
  return true

/-- What both halves of `coalesce_block` do: `block` takes in `nextBlock`, which lies behind it. -/
def absorb (block nextBlock : Nat) : Kernel Unit := do
  T.setSize block (add64 (← T.size block) (add64 T.sizeof (← T.size nextBlock)))
  T.setNext block (← T.next nextBlock)
  T.setPrevIf (← T.next nextBlock) block

/-- The first half of `coalesce_block`: take in the next block. The result counts the headers that
are gone. -/
def coalesceNext (block : Nat) : Kernel Nat := do
  if (← T.next block) = 0 then
    return 0
  if !(← T.isFree (← T.next block)) then
    return 0
  let blockEnd := add64 (T.data block) (← T.size block)
  let nextStart ← T.next block
  if blockEnd ≠ nextStart then
    return 0
  T.absorb block (← T.next block)
  return 1

/-- The second half of `coalesce_block`: let the previous block take this one in. -/
def coalescePrev (block : Nat) : Kernel Nat := do
  if (← T.prev block) = 0 then
    return 0
  if !(← T.isFree (← T.prev block)) then
    return 0
  let prevEnd := add64 (T.data (← T.prev block)) (← T.size (← T.prev block))
  let blockStart := block
  if prevEnd ≠ blockStart then
    return 0
  T.absorb (← T.prev block) block
  return 1

/-- `coalesce_block`: how many headers are gone. -/
def coalesceBlock (block : Nat) : Kernel Nat := do
  if !(← T.isFree block) then
    return 0
  let n ← T.coalesceNext block
  return n + (← T.coalescePrev block)

/-- The walk of `expand_heap` to the last block. -/
def lastBlockFrom : Nat → Nat → Kernel Nat
  | 0, _ => Prog.throw .hang
  | n + 1, current => do
    let nx ← T.next current
    if nx = 0 then
      return current
    lastBlockFrom n nx

/-- `expand_heap` links the new block behind the last one. -/
def appendBlock (firstBlock newBlock : Nat) : Kernel Unit := do
  let last ← T.lastBlockFrom fuel firstBlock
  T.setNext last newBlock
  T.setPrev newBlock last

/-- What `free` does to the list: nothing, or the size of the block it freed and the headers that
are gone. -/
def freeBlock (ptr : Nat) : Kernel (Option (Nat × Nat)) := do
  if ptr = 0 then
    return none
  let block := T.fromData ptr
  if !(← T.isValid block) then
    return none
  if ← T.isFree block then
    return none
  T.setFree block true
  let size ← T.size block
  let removed ← T.coalesceBlock block
  return some (size, removed)

end BlockType

/-! ### Pages -/

/-- The address of page `i` behind `start`. -/
def pageAt (start i : Nat) : Nat := add64 start (mul64 i frameSize)

/-- Unmap the `n` pages from `start`, in the directory `dir`. -/
def unmapPages (dir : Kernel Nat) (start n : Nat) : Kernel Unit :=
  forRange (fun j => do Paging.unmap (← dir) (pageAt start j)) n 0

/-- The loop that maps frames to the `n` pages from page `i`, in the directory `dir`. Each page is
cleared by `clear`; `cleanup` is told how many are mapped when a frame cannot be had. -/
def mapFramesFrom (dir : Kernel Nat) (flags : Nat) (clear cleanup : Nat → Kernel Unit)
    (start : Nat) : Nat → Nat → Kernel Bool
  | 0, _ => return true
  | n + 1, i => do
    let physAddr ← Physical.alloc
    if physAddr = 0 then
      cleanup i
      return false
    let result ← Paging.map (← dir) (pageAt start i) physAddr flags
    if result ≠ 0 then
      Physical.free physAddr
      cleanup i
      return false
    clear (pageAt start i)
    mapFramesFrom dir flags clear cleanup start n (i + 1)

end Coronel
