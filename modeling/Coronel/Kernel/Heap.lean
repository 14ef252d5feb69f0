import Coronel.Kernel.Blocks

/-!
# The kernel heap

`memory/heap.cpp`. The fields of the `heap` object are passed as a value, `self`, which the methods
return changed.
-/

namespace Coronel

/-! ### heap_block -/

namespace HeapBlock

/-- `sizeof(heap_block)` -/
def sizeofHeapBlock : Nat := 40

def magicFree : Nat := 0xDEADBEEF

def magicUsed : Nat := 0xCAFEBABE

def size (block : Nat) : Kernel Nat := loadN 8 block

def setSize (block value : Nat) : Kernel Unit := storeN 8 block value

def isFree (block : Nat) : Kernel Bool := do
  return (← loadN 1 (add64 block 8)) ≠ 0

def setIsFree (block : Nat) (value : Bool) : Kernel Unit :=
  storeN 1 (add64 block 8) (if value then 1 else 0)

def next (block : Nat) : Kernel Nat := loadN 8 (add64 block 16)

def setNext (block value : Nat) : Kernel Unit := storeN 8 (add64 block 16) value

def prev (block : Nat) : Kernel Nat := loadN 8 (add64 block 24)

def setPrev (block value : Nat) : Kernel Unit := storeN 8 (add64 block 24) value

def magic (block : Nat) : Kernel Nat := loadN 4 (add64 block 32)

def setMagic (block value : Nat) : Kernel Unit := storeN 4 (add64 block 32) value

/-- `heap_block::heap_block` -/
def new (block sz : Nat) (free : Bool) : Kernel Unit := do
  setSize block sz
  setIsFree block free
  setNext block 0
  setPrev block 0
  setMagic block (if free then magicFree else magicUsed)

def isValid (block : Nat) : Kernel Bool := do
  let m ← magic block
  return m == magicFree || m == magicUsed

/-- `is_free = free; magic = ...`, as `malloc` and `free` write it. -/
def setFree (block : Nat) (free : Bool) : Kernel Unit := do
  setIsFree block free
  setMagic block (if free then magicFree else magicUsed)

end HeapBlock

/-- `struct heap_block` -/
def heapBlock : BlockType where
  sizeof := HeapBlock.sizeofHeapBlock
  size := HeapBlock.size
  setSize := HeapBlock.setSize
  isFree := HeapBlock.isFree
  setFree := HeapBlock.setFree
  next := HeapBlock.next
  setNext := HeapBlock.setNext
  prev := HeapBlock.prev
  setPrev := HeapBlock.setPrev
  isValid := HeapBlock.isValid
  new := HeapBlock.new

/-! ### Managers -/

/-- The object behind `virt_manager_`. -/
def virtManager : Kernel Virt := do
  match (← Theory.Prog.get).gKernelVirtualManager with
  | some v => return v
  | none => Theory.Prog.throw (.pageFault 0)

def setVirtManager (v : Virt) : Kernel Unit :=
  modifyMachine fun s => { s with gKernelVirtualManager := some v }

/-- `virt_manager_->alloc(size)` -/
def virtAlloc (size : Nat) : Kernel Nat := do
  let r := (← virtManager).alloc size
  setVirtManager r.2
  return r.1

/-- `virt_manager_->free(addr, size)` -/
def virtFree (addr size : Nat) : Kernel Unit := do
  setVirtManager (← (← virtManager).free addr size)

namespace Heap

open HeapBlock

/-- `MIN_BLOCK_SIZE` -/
def minBlockSize : Nat := sizeofHeapBlock + 16

/-- `heap::map_pages`, into the current directory -/
def mapPages (start size : Nat) : Kernel Bool :=
  mapFramesFrom getCurrentPage 0x03 (fun page => memset page 0 frameSize)
    (unmapPages getCurrentPage start) start (alignUp size / frameSize) 0

/-- `heap::heap` -/
def new (start initialSize : Nat) : Kernel Heap := do
  let heapSize := alignUp initialSize
  let self : Heap := {
    heapStart := start, heapEnd := add64 start heapSize, heapSize, firstBlock := 0
    totalAllocated := 0, totalFree := 0, numAllocations := 0, numFrees := 0, regions := [] }
  if !(← mapPages start heapSize) then
    return self
  HeapBlock.new start (sub64 heapSize sizeofHeapBlock) true
  return { self with
    firstBlock := start
    totalFree := sub64 heapSize sizeofHeapBlock
    regions := [⟨start, heapSize⟩] }

/-- `heap::~heap`, with `unmap_pages` -/
def destroy (self : Heap) : Kernel Unit :=
  unmapPages getCurrentPage self.heapStart (alignUp self.heapSize / frameSize)

/-- `heap::find_free_block` -/
def findFreeBlock (self : Heap) (size : Nat) : Kernel Nat :=
  heapBlock.findFreeBlock self.firstBlock size

/-- `heap::split_block` -/
def splitBlock (self : Heap) (block size : Nat) : Kernel Heap := do
  if ← heapBlock.splitBlock block size then
    return { self with totalFree := add64 self.totalFree sizeofHeapBlock }
  else
    return self

/-- `heap::coalesce_block` -/
def coalesceBlock (self : Heap) (block : Nat) : Kernel Heap := do
  let removed ← heapBlock.coalesceBlock block
  return { self with totalFree := sub64 self.totalFree (removed * sizeofHeapBlock) }

/-- `heap::expand_heap` -/
def expandHeap (self : Heap) (minSize : Nat) : Kernel (Bool × Heap) := do
  let expandSize := alignUp minSize
  let newRegion ← virtAlloc expandSize
  if newRegion = 0 then
    return (false, self)
  if !(← mapPages newRegion expandSize) then
    virtFree newRegion expandSize
    return (false, self)
  let newBlock := newRegion
  HeapBlock.new newBlock (sub64 expandSize sizeofHeapBlock) true
  heapBlock.appendBlock self.firstBlock newBlock
  let self := { self with
    heapSize := add64 self.heapSize expandSize
    totalFree := add64 self.totalFree (sub64 expandSize sizeofHeapBlock)
    regions := ⟨newRegion, expandSize⟩ :: self.regions }
  return (true, ← coalesceBlock self newBlock)

/-- The end of `malloc`, with the block it found. -/
def mallocFrom (self : Heap) (block size : Nat) : Kernel (Nat × Heap) := do
  let self ← splitBlock self block size
  setFree block false
  let self := { self with
    totalAllocated := add64 self.totalAllocated size
    totalFree := sub64 self.totalFree size
    numAllocations := add64 self.numAllocations 1 }
  return (heapBlock.data block, self)

/-- `heap::malloc`; 0 is `nullptr`. -/
def malloc (self : Heap) (size : Nat) : Kernel (Nat × Heap) := do
  if size = 0 then
    return (0, self)
  let size := alignUp size
  let block ← findFreeBlock self size
  if block ≠ 0 then
    mallocFrom self block size
  else
    let r ← expandHeap self (add64 size sizeofHeapBlock)
    if !r.1 then
      return (0, r.2)
    let block ← findFreeBlock r.2 size
    if block = 0 then
      return (0, r.2)
    mallocFrom r.2 block size

/-- `heap::free` -/
def free (self : Heap) (ptr : Nat) : Kernel Heap := do
  match ← heapBlock.freeBlock ptr with
  | none => return self
  | some (size, removed) =>
    return { self with
      totalAllocated := sub64 self.totalAllocated size
      totalFree := sub64 (add64 self.totalFree size) (removed * sizeofHeapBlock)
      numFrees := add64 self.numFrees 1 }

/-- `heap::realloc`; 0 is `nullptr`. -/
def realloc (self : Heap) (ptr newSize : Nat) : Kernel (Nat × Heap) := do
  if ptr = 0 then
    malloc self newSize
  else if newSize = 0 then
    return (0, ← free self ptr)
  else
    let block := heapBlock.fromData ptr
    if !(← isValid block) then
      return (0, self)
    if ← isFree block then
      return (0, self)
    let oldSize ← HeapBlock.size block
    let newSize := alignUp newSize
    if newSize ≤ oldSize then
      if add64 newSize minBlockSize < oldSize then
        let self ← splitBlock self block newSize
        return (ptr, { self with
          totalAllocated := sub64 self.totalAllocated (sub64 oldSize newSize)
          totalFree := add64 self.totalFree (sub64 oldSize newSize) })
      else
        return (ptr, self)
    else
      let r ← malloc self newSize
      if r.1 = 0 then
        return (0, r.2)
      memcpy r.1 ptr oldSize
      let self ← free r.2 ptr
      return (r.1, self)

/-- `heap::calloc`; 0 is `nullptr`. -/
def calloc (self : Heap) (num size : Nat) : Kernel (Nat × Heap) := do
  let totalSize := mul64 num size
  if 0 < num ∧ totalSize / num ≠ size then
    return (0, self)
  let r ← malloc self totalSize
  if r.1 = 0 then
    return r
  memset r.1 0 totalSize
  return r

/-- `heap::aligned_alloc`; 0 is `nullptr`. The address is rounded to pages, whatever the
alignment. -/
def alignedAlloc (self : Heap) (alignment size : Nat) : Kernel (Nat × Heap) := do
  if alignment = 0 ∨ alignment &&& sub64 alignment 1 ≠ 0 then
    return (0, self)
  let totalSize := add64 (add64 size alignment) 8
  let r ← malloc self totalSize
  if r.1 = 0 then
    return (0, r.2)
  let alignedAddr := alignUp (add64 r.1 8)
  storeN 8 (sub64 alignedAddr 8) r.1
  return (alignedAddr, r.2)

end Heap

/-! ### The global heap -/

/-- `kmalloc`; 0 is `nullptr`. Without a heap it is placement memory. -/
def kmalloc (size : Nat) : Kernel Nat := do
  match (← Theory.Prog.get).gKernelHeap with
  | none => placementKalloc size true
  | some self =>
    let r ← self.malloc size
    modifyMachine fun s => { s with gKernelHeap := some r.2 }
    return r.1

/-- `kfree` -/
def kfree (ptr : Nat) : Kernel Unit := do
  match (← Theory.Prog.get).gKernelHeap with
  | none => return
  | some self =>
    if ptr = 0 then
      return
    let self ← self.free ptr
    modifyMachine fun s => { s with gKernelHeap := some self }

/-- `krealloc`; 0 is `nullptr`. -/
def krealloc (ptr newSize : Nat) : Kernel Nat := do
  match (← Theory.Prog.get).gKernelHeap with
  | none => return 0
  | some self =>
    let r ← self.realloc ptr newSize
    modifyMachine fun s => { s with gKernelHeap := some r.2 }
    return r.1

/-- `kcalloc`; 0 is `nullptr`. -/
def kcalloc (num size : Nat) : Kernel Nat := do
  match (← Theory.Prog.get).gKernelHeap with
  | none => return 0
  | some self =>
    let r ← self.calloc num size
    modifyMachine fun s => { s with gKernelHeap := some r.2 }
    return r.1

/-- `kmalloc_aligned`; 0 is `nullptr`. -/
def kmallocAligned (alignment size : Nat) : Kernel Nat := do
  match (← Theory.Prog.get).gKernelHeap with
  | none => return 0
  | some self =>
    let r ← self.alignedAlloc alignment size
    modifyMachine fun s => { s with gKernelHeap := some r.2 }
    return r.1

/-- `sizeof(heap)` -/
def sizeofHeap : Nat := 80

/-- `init_kernel_heap`, with the global managers -/
def initKernelHeap : Kernel Unit := do
  match (← Theory.Prog.get).gKernelHeap with
  | some _ => return
  | none =>
    let heapVaddr ← virtAlloc (mb 1)
    if heapVaddr = 0 then
      return
    let heapObjAddr ← placementKalloc sizeofHeap true
    touch heapObjAddr sizeofHeap
    let self ← Heap.new heapVaddr (mb 1)
    modifyMachine fun s => { s with gKernelHeap := some self }

end Coronel
