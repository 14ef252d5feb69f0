import Coronel.Kernel.Paging

/-!
# The boot directory

The tables of `bootstrap/boot.S`: `pml4`, `pdpt`, `pde` and 512 page tables lie one behind the other
in the kernel image. `_start32` fills the first four page tables, `_start64` clears entry 0 of the
first two tables, and `map_kernel_memory` of `arch/amd64/memory/pagetable.cpp` links and fills the
other page tables. Entry 511 of `pml4` and entry 510 of `pdpt` lead to the kernel's window.
-/

namespace Coronel

open Theory Theory.Bytes

/-! ### boot.S -/

/-- Entry `i` of the tables in the image, counted from the first of `pml4`. -/
def imageEntry (pml4 i : Nat) : Nat :=
  if i = 0 ∨ i = 511 then pml4 + 4096 + 0x3
  else if i = 512 ∨ i = 512 + 510 then pml4 + 2 * 4096 + 0x3
  else if 1024 ≤ i ∧ i < 1024 + 4 then pml4 + 3 * 4096 + 4096 * (i - 1024) + 0x3
  else 0

/-- The loop of `_start32`, with the 32-bit registers that it counts in. -/
def fillEntries (ram : Mem) : Nat → Nat → Nat → Mem
  | 0, _, _ => ram
  | eax + 1, ebx, ecx => fillEntries (store ram 4 ebx ecx) eax (ebx + 8) (ecx + 4096)

/-- `_start32`: "fill the first 8MiB page table entries" -/
def start32 (ram : Mem) (pml4 : Nat) : Mem := fillEntries ram 2048 (pml4 + 3 * 4096) 0x7

/-- `_start64`: "unmap page 0" -/
def start64 (ram : Mem) (pml4 : Nat) : Mem := store (store ram 8 (pml4 + 4096) 0) 8 pml4 0

/-! ### pagetable.cpp -/

/-- `table->dirs[i]` or `table->pages[i]`, through CR3 -/
def loadEntry (table i : Nat) : Kernel Nat := loadN 8 (Paging.slot table i)

/-- `table->dirs[i] = entry` or `table->pages[i] = entry`, through CR3 -/
def storeEntry (table i entry : Nat) : Kernel Unit := storeN 8 (Paging.slot table i) entry

/-- The inner loop of `map_kernel_memory`, over the `n` entries of `pte` from entry `j`. -/
def fillPages (pte : Nat) : Nat → Nat → Nat → Kernel Nat
  | 0, _, paddr => return paddr
  | n + 1, j, paddr => do
    storeEntry pte j (add64 paddr 4096)
    let paddr ← loadEntry pte j
    fillPages pte n (j + 1) paddr

/-- The outer loop of `map_kernel_memory`, over the `n` entries of `pde_table` from entry `i`. -/
def linkTables (pdeTable : Nat) : Nat → Nat → Nat → Kernel Unit
  | 0, _, _ => return
  | n + 1, i, paddr => do
    storeEntry pdeTable i (add64 (← loadEntry pdeTable (i - 1)) 4096)
    let pte := Paging.address (← loadEntry pdeTable i)
    let paddr ← fillPages pte 512 0 paddr
    linkTables pdeTable n (i + 1) paddr

/-- `map_kernel_memory` -/
def mapKernelMemory : Kernel Unit := do
  let pml4Table := Paging.address (← getCurrentPage)
  let pdptTable := Paging.address (← loadEntry pml4Table 511)
  let pdeTable := Paging.address (← loadEntry pdptTable 510)
  let paddr ← loadEntry (Paging.address (← loadEntry pdeTable 3)) 511
  linkTables pdeTable (512 - 4) 4 paddr

/-! ### The machine after it -/

/-- Entry `i` of the tables of `boot.S`, counted from the first of `pml4`. -/
def bootEntry (pml4 i : Nat) : Nat :=
  if i = 511 then pml4 + 4096 + 0x3
  else if i = 512 + 510 then pml4 + 2 * 4096 + 0x3
  else if 1024 ≤ i ∧ i < 1536 then pml4 + 3 * 4096 + 4096 * (i - 1024) + 0x3
  else if 1536 ≤ i then 4096 * (i - 1536) + 0x7
  else 0

/-- The machine when `kmain` starts: the boot directory is current and lies in the image, behind
which placement memory begins. -/
structure Booted (s : Machine) : Prop where
  aligned : s.cr3 % 4096 = 0
  entry : ∀ i < 515 * 512, load s.ram 8 (s.cr3 + 8 * i) = bootEntry s.cr3 i
  image : kvirtualAddress + s.cr3 + 515 * 4096 ≤ s.placement
  window : s.placement ≤ kvirtualAddress + directMapSize

/-- A machine just booted: `_start` at 1 MB, the tables at 2 MB, `_end` at `kernelEnd`. -/
def bootMachine (kernelEnd : Nat) : Machine where
  ram := ofWords fun w => bootEntry (mb 2) (w - mb 2 / 8)
  cr3 := mb 2
  placement := kvirtualAddress + kernelEnd
  gPhysicalManager := none
  gKernelVirtualManager := none
  gKernelHeap := none
  reserved := []

theorem bootEntry_lt {pml4 i : Nat} (h : pml4 < 2 ^ 48) (hi : i < 515 * 512) :
    bootEntry pml4 i < 2 ^ 64 := by
  unfold bootEntry
  split
  · omega
  split
  · omega
  split
  · omega
  split <;> omega

theorem booted_bootMachine {kernelEnd : Nat} (h : mb 2 + 515 * 4096 ≤ kernelEnd)
    (h' : kernelEnd ≤ directMapSize) : Booted (bootMachine kernelEnd) := by
  refine ⟨(by decide : mb 2 % 4096 = 0), fun i hi => ?_, ?_, ?_⟩
  · have hw : mb 2 + 8 * i = 8 * (mb 2 / 8 + i) := by simp only [mb]; omega
    simp only [bootMachine]
    rw [hw, load_ofWords] <;> simp only [Nat.add_sub_cancel_left]
    exact bootEntry_lt (by decide) hi
  · simp only [bootMachine, Nat.add_assoc]
    exact Nat.add_le_add_left h _
  · exact Nat.add_le_add_left h' _

end Coronel
