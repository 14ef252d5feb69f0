import Coronel.Kernel.Config
import Coronel.Theory.Prog
import Coronel.Theory.Bytes
import Coronel.Theory.Span
import Mathlib.Data.List.Infix

/-!
# The machine

Physical memory, the directory loaded in CR3, the placement watermark and the global managers.
Kernel code reaches memory in two ways:

* through the kernel's window: `KVIRTUAL_ADDRESS + p` is physical `p`, for the gigabyte that
  `map_kernel_memory` maps. Page tables and placement objects are used this way ("thanks to
  identity mapping", `paging.cpp`);
* through the tables of the current directory, for every heap address.

The free-list nodes of `physical` and of `virt` are kept as Lean lists. The bytes their nodes take
from the placement watermark are accounted for; of their contents, `ram` has what `physical` writes.
-/

namespace Coronel

open Theory Theory.Bytes

/-! ### State -/

/-- `physical::frame`: the address of a free frame, and where its list node lives. -/
structure Frame where
  node : Nat
  address : Nat
deriving DecidableEq, Repr

/-- `class physical`; the head of `freeList` is the node `free_list_` points to. -/
structure Physical where
  physicalEnd : Nat
  freeList : List Frame
deriving DecidableEq, Repr

/-- `virt::node`: a free region, dead when its size is 0. -/
structure VirtNode where
  start : Nat
  size : Nat
deriving DecidableEq, Repr

/-- `class virt` -/
structure Virt where
  freeMemList : List VirtNode
deriving DecidableEq, Repr

/-- `class heap`. Its two managers are the global ones, the only ones the kernel builds it with. -/
structure Heap where
  heapStart : Nat
  heapEnd : Nat
  heapSize : Nat
  firstBlock : Nat
  totalAllocated : Nat
  totalFree : Nat
  numAllocations : Nat
  numFrees : Nat
  /-- Ghost: the regions whose pages were mapped for the heap, newest first. No code reads it. -/
  regions : List Span
deriving DecidableEq, Repr

/-- What stops a kernel routine. -/
inductive Trap
  /-- An access through CR3 to an address without a present translation. -/
  | pageFault (vaddr : Nat)
  /-- An access through the kernel's window to an address it does not map. -/
  | directMap (vaddr : Nat)
  /-- A walk over a list that never ends. -/
  | hang
deriving DecidableEq, Repr

structure Machine where
  /-- Physical memory. -/
  ram : Mem
  /-- The physical address of the current page directory. -/
  cr3 : Nat
  /-- `__placement`, a virtual address in the kernel's window. -/
  placement : Nat
  gPhysicalManager : Option Physical
  gKernelVirtualManager : Option Virt
  gKernelHeap : Option Heap
  /-- Ghost: the ranges `placement_kalloc` has returned, newest first. No code reads it. -/
  reserved : List Span

/-- A machine grows by reserving more placement memory. -/
instance : Preorder Machine where
  le s s' := s.reserved <:+ s'.reserved
  le_refl _ := List.suffix_rfl
  le_trans _ _ _ h h' := h.trans h'

theorem Machine.le_iff {s s' : Machine} : s ≤ s' ↔ s.reserved <:+ s'.reserved := Iff.rfl

/-- A routine of the kernel. -/
abbrev Kernel (α : Type) := Prog Trap Machine α

/-- Replace the state, the reserved ranges excepted. -/
def modifyMachine (f : Machine → Machine) (h : ∀ s, (f s).reserved = s.reserved := by
    exact fun _ => rfl) : Kernel Unit :=
  Prog.modify f fun s => by rw [Machine.le_iff, h s]

@[simp] theorem run_modifyMachine (f : Machine → Machine) (h) (s : Machine) :
    (modifyMachine f h).run s = (.ok (), f s) := rfl

/-! ### The kernel's window -/

/-- The part of physical memory `map_kernel_memory` maps: the whole PDE table, 1 GiB. -/
def directMapSize : Nat := gb 1

/-- The physical address behind `n` bytes of the window at `vaddr`. -/
def window (vaddr n : Nat) : Option Nat :=
  if kvirtualAddress ≤ vaddr ∧ vaddr + n ≤ kvirtualAddress + directMapSize then
    some (vaddr - kvirtualAddress)
  else
    none

/-- Access `n` bytes of an object kept outside `ram`. -/
def touch (vaddr n : Nat) : Kernel Unit :=
  match window vaddr n with
  | some _ => pure ()
  | none => Prog.throw (.directMap vaddr)

/-- Read a `uint64_t` through the window. -/
def loadDirect (vaddr : Nat) : Kernel Nat :=
  match window vaddr 8 with
  | some p => do return load (← Prog.get).ram 8 p
  | none => Prog.throw (.directMap vaddr)

/-- Write a `uint64_t` through the window. -/
def storeDirect (vaddr value : Nat) : Kernel Unit :=
  match window vaddr 8 with
  | some p => modifyMachine fun s => { s with ram := store s.ram 8 p value }
  | none => Prog.throw (.directMap vaddr)

/-- `lib::memset(ptr, 0, n)` through the window. -/
def zeroDirect (vaddr n : Nat) : Kernel Unit :=
  match window vaddr n with
  | some p => modifyMachine fun s => { s with ram := fill s.ram p n 0 }
  | none => Prog.throw (.directMap vaddr)

/-! ### Page walks -/

/-- `PTE(addr)` -/
def pteIndex (addr : Nat) : Nat := (addr >>> 12) &&& 0x1ff

/-- `PDE(addr)` -/
def pdeIndex (addr : Nat) : Nat := (addr >>> 21) &&& 0x1ff

/-- `PDPT(addr)` -/
def pdptIndex (addr : Nat) : Nat := (addr >>> 30) &&& 0x1ff

/-- `PML4(addr)` -/
def pml4Index (addr : Nat) : Nat := (addr >>> 39) &&& 0x1ff

/-- `PRESENT(addr)` -/
def present (entry : Nat) : Bool := entry &&& 0x1 == 1

/-- The frame a table entry holds for the processor: bits 12 to 51. -/
def entryFrame (entry : Nat) : Nat := entry &&& (2 ^ 52 - 4096)

/-- Entry `i` of the table at physical address `t`. -/
def tableEntry (ram : Mem) (t i : Nat) : Nat := load ram 8 (t + 8 * i)

/-- The table behind a present entry. -/
def childTable (ram : Mem) (t i : Nat) : Option Nat :=
  if present (tableEntry ram t i) then some (entryFrame (tableEntry ram t i)) else none

/-- The processor's walk: the leaf entry for `vaddr` in the directory `dir`, when the entries of
all four levels are present. No entry this kernel writes has the page-size bit. -/
def walk (ram : Mem) (dir vaddr : Nat) : Option Nat := do
  let pdpt ← childTable ram (entryFrame dir) (pml4Index vaddr)
  let pde ← childTable ram pdpt (pdptIndex vaddr)
  let pt ← childTable ram pde (pdeIndex vaddr)
  let entry := tableEntry ram pt (pteIndex vaddr)
  if present entry then some entry else none

/-- The physical address of `vaddr` in `dir`. -/
def translate (ram : Mem) (dir vaddr : Nat) : Option Nat :=
  (walk ram dir vaddr).map fun entry => entryFrame entry + vaddr % 4096

/-! ### Memory through CR3 -/

def load8 (vaddr : Nat) : Kernel UInt8 := do
  let s ← Prog.get
  match translate s.ram s.cr3 vaddr with
  | some p => return s.ram p
  | none => Prog.throw (.pageFault vaddr)

def store8 (vaddr : Nat) (value : UInt8) : Kernel Unit := do
  let s ← Prog.get
  match translate s.ram s.cr3 vaddr with
  | some p => modifyMachine fun s => { s with ram := Function.update s.ram p value }
  | none => Prog.throw (.pageFault vaddr)

/-- Read an `n`-byte integer, lowest byte first. -/
def loadN : Nat → Nat → Kernel Nat
  | 0, _ => return 0
  | n + 1, vaddr => do
    let b ← load8 vaddr
    let r ← loadN n (add64 vaddr 1)
    return b.toNat + 256 * r

/-- Write the low `n` bytes of an integer, lowest first. -/
def storeN : Nat → Nat → Nat → Kernel Unit
  | 0, _, _ => return
  | n + 1, vaddr, value => do
    store8 vaddr (UInt8.ofNat value)
    storeN n (add64 vaddr 1) (value / 256)

/-- `lib::memset(ptr, ch, count)` -/
def memset (ptr : Nat) (ch : UInt8) : Nat → Kernel Unit
  | 0 => return
  | count + 1 => do
    store8 ptr ch
    memset (add64 ptr 1) ch count

/-- `lib::memcpy(dest, src, count)` -/
def memcpy (dest src : Nat) : Nat → Kernel Unit
  | 0 => return
  | count + 1 => do
    store8 dest (← load8 src)
    memcpy (add64 dest 1) (add64 src 1) count

/-- `for (i = first; n more times; i++) body(i)` -/
def forRange (body : Nat → Kernel Unit) : Nat → Nat → Kernel Unit
  | 0, _ => return
  | n + 1, i => do
    body i
    forRange body n (i + 1)

/-- The bytes a directory shows, 0 where nothing is mapped. -/
def vmem (ram : Mem) (dir : Nat) : Mem := fun vaddr =>
  match translate ram dir vaddr with
  | some p => ram p
  | none => 0

end Coronel
