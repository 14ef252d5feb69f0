import Coronel.Kernel.Allocators

/-!
# Paging

`arch/amd64/memory/paging.cpp`. The three levels of `get_page` are one step with a parameter,
`nextTable`. `insn::tlb_flush` changes no memory: `unmap` and `map` leave it out, and `unmapFlush`
and `mapFlush` are the same functions with the address that they flush.
-/

namespace Coronel

open Theory

/-- `insn::get_current_page` -/
def getCurrentPage : Kernel Nat := do return (← Prog.get).cr3

/-- `insn::set_page_directory` -/
def setPageDirectory (pageDir : Nat) : Kernel Unit :=
  modifyMachine fun s => { s with cr3 := pageDir }

namespace Paging

/-- `ADDRESS(addr)`: the window address of the table behind an entry. -/
def address (entry : Nat) : Nat := add64 (entry &&& (2 ^ 64 - 4096)) kvirtualAddress

/-- `sizeof(pml4_t)`, and of the three other tables. -/
def sizeofTable : Nat := 4096

/-- The address of entry `i` of a table. -/
def slot (table i : Nat) : Nat := add64 table (8 * i)

/-- One level of `get_page`: the table behind entry `index` of `table`, created when it is absent
and `make` asks for it. `none` is the `return nullptr` of the source. -/
def nextTable (table index dirFlags : Nat) (make : Bool) : Kernel (Option Nat) := do
  let entry ← loadDirect (slot table index)
  if !present entry && make then
    let tmp ← placementKallocPaddr sizeofTable true
    zeroDirect tmp.1 sizeofTable
    storeDirect (slot table index) (tmp.2 ||| dirFlags)
    return some (address (← loadDirect (slot table index)))
  else if !present entry then
    return none
  else
    return some (address entry)

/-- The flags of the intermediate entries. -/
def dirFlags (flags : Nat) : Nat :=
  if flags &&& 0x04 ≠ 0 then 0x01 ||| 0x02 ||| 0x04 else 0x01 ||| 0x02

/-- `paging::get_page`; 0 is `nullptr`. -/
def getPage (pageDir vaddr flags : Nat) (make : Bool) : Kernel Nat := do
  match ← nextTable (address pageDir) (pml4Index vaddr) (dirFlags flags) make with
  | none => return 0
  | some pdptTable =>
    match ← nextTable pdptTable (pdptIndex vaddr) (dirFlags flags) make with
    | none => return 0
    | some pdeTable =>
      match ← nextTable pdeTable (pdeIndex vaddr) (dirFlags flags) make with
      | none => return 0
      | some pteTable => return pteTable

/-- `paging::unmap(page_dir, vaddr)` -/
def unmap (pageDir vaddr : Nat) : Kernel Unit := do
  let pml4 ← loadDirect (slot (address pageDir) (pml4Index vaddr))
  if !present pml4 then
    return
  let pdpt ← loadDirect (slot (address pml4) (pdptIndex vaddr))
  if !present pdpt then
    return
  let pde ← loadDirect (slot (address pdpt) (pdeIndex vaddr))
  if !present pde then
    return
  let pte ← loadDirect (slot (address pde) (pteIndex vaddr))
  if !present pte then
    return
  storeDirect (slot (address pde) (pteIndex vaddr)) (pte &&& (2 ^ 64 - 4096))

/-- `unmap` with the address of its `tlb_flush`, when it gets there. -/
def unmapFlush (pageDir vaddr : Nat) : Kernel (Option Nat) := do
  let pml4 ← loadDirect (slot (address pageDir) (pml4Index vaddr))
  if !present pml4 then
    return none
  let pdpt ← loadDirect (slot (address pml4) (pdptIndex vaddr))
  if !present pdpt then
    return none
  let pde ← loadDirect (slot (address pdpt) (pdeIndex vaddr))
  if !present pde then
    return none
  let pte ← loadDirect (slot (address pde) (pteIndex vaddr))
  if !present pte then
    return none
  storeDirect (slot (address pde) (pteIndex vaddr)) (pte &&& (2 ^ 64 - 4096))
  return some 0

/-- The leaf entry `map` writes: `PERMISSION_FLAGS` are `PRESENT` 1, `WRITABLE` 2 and `USER` 4. -/
def leafEntry (paddr flags : Nat) : Nat :=
  let entry := paddr &&& (2 ^ 64 - 4096)
  let entry := if flags &&& 0x01 ≠ 0 then entry ||| 0x01 else entry
  let entry := if flags &&& 0x02 ≠ 0 then entry ||| 0x02 else entry
  if flags &&& 0x04 ≠ 0 then entry ||| 0x04 else entry

/-- `paging::map(dir, vaddr, paddr, flags)` -/
def map (dir vaddr paddr flags : Nat) : Kernel Int := do
  let page ← getPage dir vaddr flags true
  if page = 0 then
    return -1
  storeDirect (slot page (pteIndex vaddr)) (leafEntry paddr flags)
  return 0

/-- `map` with the address of its `tlb_flush`, when it gets there. -/
def mapFlush (dir vaddr paddr flags : Nat) : Kernel (Int × Option Nat) := do
  let page ← getPage dir vaddr flags true
  if page = 0 then
    return (-1, none)
  storeDirect (slot page (pteIndex vaddr)) (leafEntry paddr flags)
  return (0, some dir)

/-- `paging::unmap(vaddr)` -/
def unmapCurrent (vaddr : Nat) : Kernel Unit := do unmap (← getCurrentPage) vaddr

/-- `paging::map(vaddr, paddr, flags)` -/
def mapCurrent (vaddr paddr flags : Nat) : Kernel Int := do
  map (← getCurrentPage) vaddr paddr flags

/-- `paging::mapio`. The mask is a 32-bit value, and the flags are not used. -/
def mapio (addr _flags : Nat) : Kernel Nat := do
  let offset := addr &&& 0xfffff
  let vaddr := add64 pciVirtualAddress offset
  let pte := pteIndex (pciVirtualAddress ||| offset)
  let page ← getPage (← getCurrentPage) vaddr 0x0 true
  storeDirect (slot page pte) (add64 addr 0x3)
  return vaddr

/-- `paging::unmapio` -/
def unmapio (vaddr : Nat) : Kernel Unit := unmapCurrent vaddr

/-- `paging::create_page_directory`; 0 is `nullptr`. -/
def createPageDirectory : Kernel Nat := do
  let pml4 := pml4Index kvirtualAddress
  let pageDir ← placementKallocPaddr sizeofTable true
  zeroDirect pageDir.1 sizeofTable
  let entry ← loadDirect (slot (address (← getCurrentPage)) pml4)
  if !present entry then
    return 0
  storeDirect (slot pageDir.1 pml4) entry
  return pageDir.2

/-- `paging::map_user` -/
def mapUser (pageDir vaddr paddr : Nat) : Kernel Int := map pageDir vaddr paddr 0x07

/-- `paging::create_user_page_directory` -/
def createUserPageDirectory : Kernel Nat := do
  let userPageDir ← createPageDirectory
  if userPageDir = 0 then
    return 0
  return userPageDir

/-- `USER_STACK_TOP` -/
def userStackTop : Nat := 0x7FFFFF0

/-- `USER_STACK_SIZE` -/
def userStackSize : Nat := 0x10000

/-- The loop of `setup_user_memory_layout`, over the `n` pages from page `i`. -/
def mapStackFrom (pageDir stackBottom : Nat) : Nat → Nat → Kernel Bool
  | 0, _ => return true
  | n + 1, i => do
    let stack ← placementKallocPaddr 0x1000 true
    if stack.1 = 0 then
      return false
    zeroDirect stack.1 0x1000
    let virtualAddr := add64 stackBottom (mul64 i 0x1000)
    let result ← mapUser pageDir virtualAddr stack.2
    if result ≠ 0 then
      return false
    mapStackFrom pageDir stackBottom n (i + 1)

/-- `paging::setup_user_memory_layout` -/
def setupUserMemoryLayout (pageDir : Nat) : Kernel Bool :=
  mapStackFrom pageDir (sub64 userStackTop userStackSize) (userStackSize / 0x1000) 0

end Paging
end Coronel
