import Coronel.Kernel.Paging

/-!
# The translation cache

What `map` and `unmap` leave in the processor's cache. An access may cache the translation it walks
to, at any time, and `insn::tlb_flush` drops the translation of the one page it names. The `paging`
functions change a leaf entry first and flush last, so the accesses in between see the new tables.
-/

namespace Coronel

/-- A cached translation: a page of the 48-bit address space and the leaf entry it came from. -/
structure Translation where
  page : Nat
  entry : Nat
deriving DecidableEq, Repr

/-- The page of an address, as the processor indexes it. -/
def pageOf (vaddr : Nat) : Nat := vaddr % 2 ^ 48 / 4096

/-- The memory unit: the machine, and the translations cached for the directory in CR3. -/
structure Mmu where
  machine : Machine
  tlb : List Translation

namespace Mmu

/-- The entry the tables hold for `vaddr`. -/
def leaf (mmu : Mmu) (vaddr : Nat) : Option Nat := walk mmu.machine.ram mmu.machine.cr3 vaddr

/-- An access to `vaddr` caches its translation, if there is one. -/
def access (mmu : Mmu) (vaddr : Nat) : Mmu :=
  match mmu.leaf vaddr with
  | some entry => { mmu with tlb := ⟨pageOf vaddr, entry⟩ :: mmu.tlb }
  | none => mmu

/-- `invlpg (addr)` -/
def invlpg (mmu : Mmu) (addr : Nat) : Mmu :=
  { mmu with tlb := mmu.tlb.filter fun t => t.page ≠ pageOf addr }

end Mmu

namespace Paging

/-- `paging::map(vaddr, paddr, flags)` and `paging::unmap(vaddr)`. -/
inductive Call
  | map (vaddr paddr flags : Nat)
  | unmap (vaddr : Nat)
deriving DecidableEq, Repr

namespace Call

/-- The address whose mapping changes. -/
def vaddr : Call → Nat
  | .map vaddr _ _ => vaddr
  | .unmap vaddr => vaddr

/-- The call on the current directory, with the address it flushes. -/
def run : Call → Kernel (Option Nat)
  | .map vaddr paddr flags => do
    return (← mapFlush (← getCurrentPage) vaddr paddr flags).2
  | .unmap vaddr => do unmapFlush (← getCurrentPage) vaddr

/-- The call returns. The tables change, the processor accesses `touched`, and the flush ends it. -/
def Returns (call : Call) (touched : List Nat) (mmu mmu' : Mmu) : Prop :=
  ∃ flush s', call.run.run mmu.machine = (.ok flush, s') ∧
    mmu' = flush.elim id (fun addr mmu => mmu.invlpg addr)
      (touched.foldl Mmu.access { mmu with machine := s' })

end Call
end Paging
end Coronel
