import Coronel.Kernel.Machine

/-!
# Placement, frame and region allocators

`memory/allocators.cpp`, `memory/physical.cpp`, `memory/virtual.cpp` and the list of
`libs/ilist.hpp`. `physical` and `virt` draw their list nodes from the placement watermark, which
moves down only in `kfree_block`, behind the tracking array of `alloc(blocks)`.
-/

namespace Coronel

open Theory

/-! ### allocators.cpp -/

/-- `placement_kalloc(size, paddr, align)`: the virtual address and the physical one. -/
def placementKallocPaddr (size : Nat) (align : Bool) : Kernel (Nat × Nat) := do
  let s ← Prog.get
  let ret := if align then alignUp s.placement else s.placement
  Prog.modify (fun s => { s with
      placement := add64 ret size
      reserved := ⟨ret, size⟩ :: s.reserved })
    fun s => List.suffix_cons _ s.reserved
  return (ret, sub64 ret kvirtualAddress)

/-- `placement_kalloc(size, align)` -/
def placementKalloc (size : Nat) (align : Bool := false) : Kernel Nat := do
  let ret ← placementKallocPaddr size align
  return ret.1

/-- `kfree_block` -/
def kfreeBlock (size : Nat) : Kernel Unit :=
  modifyMachine fun s => { s with placement := sub64 s.placement size }

/-! ### physical.cpp -/

namespace Physical

/-- `sizeof(frame)` -/
def sizeofFrame : Nat := 16

/-- `physical::physical` -/
def new : Physical := { physicalEnd := 0, freeList := [] }

/-- The object behind `g_physical_manager`. -/
def manager : Kernel Physical := do
  match (← Prog.get).gPhysicalManager with
  | some self => return self
  | none => Prog.throw (.pageFault 0)

def setManager (self : Physical) : Kernel Unit :=
  modifyMachine fun s => { s with gPhysicalManager := some self }

/-- `physical::alloc()`; 0 is `nullptr`. -/
def alloc : Kernel Nat := do
  let self ← manager
  match self.freeList with
  | [] => return 0
  | reserve :: previous =>
    setManager { self with freeList := previous }
    return reserve.address

/-- `free_list_` -/
def headNode : List Frame → Nat
  | [] => 0
  | reserve :: _ => reserve.node

/-- `physical::free`. The node goes to memory too: the array of `alloc(blocks)` may lie there. -/
def free (addr : Nat) : Kernel Unit := do
  let self ← manager
  if !isAligned addr || self.physicalEnd ≤ addr then
    return
  let newHead ← placementKalloc sizeofFrame
  storeDirect newHead addr
  storeDirect (add64 newHead 8) (headNode self.freeList)
  setManager { self with freeList := ⟨newHead, addr⟩ :: self.freeList }

/-- The loop of `setup`, over the `n` frames from `addr`. -/
def freeFrames : Nat → Nat → Kernel Unit
  | 0, _ => return
  | n + 1, addr => do
    free addr
    freeFrames n (addr + frameSize)

/-- `physical::setup`. Both ends of the loop are frame aligned. -/
def setup (start len : Nat) : Kernel Unit := do
  let self ← manager
  setManager { self with physicalEnd := add64 start len }
  let addr := alignUp start
  let stop := alignDown (add64 start len)
  freeFrames ((stop - addr) / frameSize) addr

/-- `&allocated_blocks[i]` -/
def blockSlot (allocatedBlocks i : Nat) : Nat := add64 allocatedBlocks (mul64 i 8)

/-- The rollback of `alloc(blocks)`: free the `n` blocks of the array from block `j`. -/
def freeBlocksFrom (allocatedBlocks : Nat) : Nat → Nat → Kernel Unit
  | 0, _ => return
  | n + 1, j => do
    free (← loadDirect (blockSlot allocatedBlocks j))
    freeBlocksFrom allocatedBlocks n (j + 1)

/-- The loop of `alloc(blocks)`, over the `n` blocks from block `i`: whether all could be had. -/
def allocBlocksFrom (allocatedBlocks : Nat) : Nat → Nat → Kernel Bool
  | 0, _ => return true
  | n + 1, i => do
    storeDirect (blockSlot allocatedBlocks i) (← alloc)
    if (← loadDirect (blockSlot allocatedBlocks i)) = 0 then
      freeBlocksFrom allocatedBlocks i 0
      return false
    allocBlocksFrom allocatedBlocks n (i + 1)

/-- `physical::alloc(blocks)`; 0 is `nullptr`. -/
def allocBlocks (blocks : Nat) : Kernel Nat := do
  if (← manager).physicalEnd < mul64 blocks frameSize ∨ blocks = 0 then
    return 0
  let allocatedBlocks ← placementKalloc (mul64 blocks 8)
  if allocatedBlocks = 0 then
    return 0
  if !(← allocBlocksFrom allocatedBlocks blocks 0) then
    kfreeBlock (mul64 blocks 8)
    return 0
  let firstBlock ← loadDirect (blockSlot allocatedBlocks 0)
  kfreeBlock (mul64 blocks 8)
  return firstBlock

end Physical

/-! ### virtual.cpp -/

namespace Virt

/-- `VADDR_START` -/
def vaddrStart : Nat := 0

/-- `VADDR_SIZE` -/
def vaddrSize : Nat := gb 256

/-- `sizeof(virt::node)` and `sizeof(ilist::node)` -/
def sizeofNode : Nat := 16

/-- `free_mem_list_.push_back(new (placement_kalloc(sizeof(node))) node(...))` -/
def pushBack (self : Virt) (node : VirtNode) : Kernel Virt := do
  let place ← placementKalloc sizeofNode
  touch place sizeofNode
  let link ← placementKalloc sizeofNode
  touch link sizeofNode
  return ⟨self.freeMemList ++ [node]⟩

/-- `virt::virt` -/
def new : Kernel Virt := pushBack ⟨[]⟩ ⟨vaddrStart, vaddrSize⟩

/-- The loop of `alloc(size)`: the start of the first fit and the list without the range. -/
def allocFrom (alignedSize : Nat) : List VirtNode → Option (Nat × List VirtNode)
  | [] => none
  | spot :: rest =>
    if spot.size = 0 ∨ spot.size < alignedSize then
      (allocFrom alignedSize rest).map fun r => (r.1, spot :: r.2)
    else if spot.size = alignedSize then
      some (spot.start, { spot with size := 0 } :: rest)
    else
      some (spot.start, ⟨add64 spot.start alignedSize, spot.size - alignedSize⟩ :: rest)

/-- `virt::alloc(size)`; 0 is `nullptr`. -/
def alloc (self : Virt) (size : Nat) : Nat × Virt :=
  match allocFrom (alignUp size) self.freeMemList with
  | some r => (r.1, ⟨r.2⟩)
  | none => (0, self)

/-- The loop of `alloc(initial_addr, size)`: the list with the region it stops at cut off at `addr`,
and the slot it creates behind the range. -/
def reserveFrom (addr size : Nat) : List VirtNode → Option (List VirtNode × VirtNode)
  | [] => none
  | spot :: rest =>
    if spot.start < addr ∧ add64 spot.start spot.size ≤ add64 addr size then
      (reserveFrom addr size rest).map fun r => (spot :: r.1, r.2)
    else
      some ({ spot with size := sub64 addr spot.start } :: rest, ⟨add64 addr size, spot.size⟩)

/-- `virt::alloc(initial_addr, size)` -/
def allocAt (self : Virt) (addr size : Nat) : Kernel (Bool × Virt) :=
  match reserveFrom addr size self.freeMemList with
  | some (nodes, slot) => do return (true, ← pushBack ⟨nodes⟩ slot)
  | none => return (false, self)

/-- The inner loop of `free`: the size of the first live region that starts at `start`, and the
list with that region dead. -/
def absorb (start : Nat) : List VirtNode → Option (Nat × List VirtNode)
  | [] => none
  | next :: rest =>
    if next.size ≠ 0 ∧ start = next.start then
      some (next.size, { next with size := 0 } :: rest)
    else
      (absorb start rest).map fun r => (r.1, next :: r.2)

/-- The outer loop of `free`, at the list `before ++ rest`: the list with `[addr, addr + size)`
merged into its first neighbour, if there is one. -/
def merge (addr size : Nat) (before : List VirtNode) : List VirtNode → Option (List VirtNode)
  | [] => none
  | current :: rest =>
    if current.size = 0 then
      merge addr size (before ++ [current]) rest
    else if add64 addr size = current.start then
      some (before ++ ⟨addr, add64 current.size size⟩ :: rest)
    else if add64 current.start current.size = addr then
      let grown := add64 current.size size
      let reach := add64 current.start grown
      -- the inner loop runs over the whole list and skips `current`
      match absorb reach before with
      | some r => some (r.2 ++ ⟨current.start, add64 grown r.1⟩ :: rest)
      | none =>
        match absorb reach rest with
        | some r => some (before ++ ⟨current.start, add64 grown r.1⟩ :: r.2)
        | none => some (before ++ ⟨current.start, grown⟩ :: rest)
    else
      merge addr size (before ++ [current]) rest

/-- `virt::free` -/
def free (self : Virt) (addr size : Nat) : Kernel Virt :=
  match merge addr (alignUp size) [] self.freeMemList with
  | some nodes => return ⟨nodes⟩
  | none => pushBack self ⟨addr, alignUp size⟩

end Virt
end Coronel
