import Coronel.Kernel.Heap

/-!
# The memory manager

`memory/memory_manager.cpp`: which region of physical memory the kernel manages, and the order in
which its managers are set up. The boot information is a value with the fields that are read; the
entries of the memory map lie in memory.
-/

namespace Coronel

open Theory

/-- `multiboot_memory_map_t` -/
structure MmapEntry where
  size : Nat
  addr : Nat
  len : Nat
  type : Nat
deriving DecidableEq, Repr

/-- The three counters of `initialize_memory`. -/
structure FreeMemory where
  totalMemory : Nat
  largestFreeStart : Nat
  largestFreeSize : Nat
deriving DecidableEq, Repr

namespace MemoryManager

/-- What the loop over the memory map makes of an entry. -/
def addEntry (found : FreeMemory) (mmap : MmapEntry) : FreeMemory :=
  if mmap.type = 1 then
    let found := { found with totalMemory := add64 found.totalMemory mmap.len }
    if mmap.addr < mb 8 then
      if mb 8 < add64 mmap.addr mmap.len then
        let availableSize := sub64 (add64 mmap.addr mmap.len) (mb 8)
        if found.largestFreeSize < availableSize then
          { found with largestFreeStart := mb 8, largestFreeSize := availableSize }
        else
          found
      else
        found
    else if found.largestFreeSize < mmap.len then
      { found with largestFreeStart := mmap.addr, largestFreeSize := mmap.len }
    else
      found
  else
    found

/-- Read the packed entry at `mmap`. -/
def loadEntry (mmap : Nat) : Kernel MmapEntry := do
  let size ← loadN 4 mmap
  let addr ← loadN 8 (add64 mmap 4)
  let len ← loadN 8 (add64 mmap 12)
  let type ← loadN 4 (add64 mmap 20)
  return { size, addr, len, type }

end MemoryManager
end Coronel
