import Coronel.Verify.BootHeap
import Coronel.Verify.Calls
import Coronel.Verify.FrameLoss
import Coronel.Verify.ProcessStack
import Coronel.Verify.UserRuns

/-!
# Frames over the uptime of the kernel

Whatever routines run, and whether they return or trap, the free list of the physical manager only
shrinks: every heap and every stack that is set up has its frames for good.
-/

namespace Coronel

open Theory

/-- The routines of the kernel that map or release memory, and a store of a program. -/
inductive Routine
  | memory (call : MemoryManager.KernelCall)
  | initKernelHeap
  | destroyHeap (self : Heap)
  | allocFrame
  | createPageDirectory
  | createUserPageDirectory
  | setupUserMemoryLayout (pageDir : Nat)
  | setPageDirectory (pageDir : Nat)
  | map (dir vaddr paddr flags : Nat)
  | unmap (pageDir vaddr : Nat)
  | mapio (addr flags : Nat)
  | heapCall (self : UserAllocator) (call : Call)
  | cleanupOnExit (self : UserAllocator)
  | cleanupAll (self : Process)
  | store (vaddr : Nat) (value : UInt8)

/-- The routine, without its result. -/
def Routine.run : Routine → Kernel Unit
  | .memory call => do let _ ← call.run
  | .initKernelHeap => Coronel.initKernelHeap
  | .destroyHeap self => self.destroy
  | .allocFrame => do let _ ← Physical.alloc
  | .createPageDirectory => do let _ ← Paging.createPageDirectory
  | .createUserPageDirectory => do let _ ← Paging.createUserPageDirectory
  | .setupUserMemoryLayout pageDir => do let _ ← Paging.setupUserMemoryLayout pageDir
  | .setPageDirectory pageDir => Coronel.setPageDirectory pageDir
  | .map dir vaddr paddr flags => do let _ ← Paging.map dir vaddr paddr flags
  | .unmap pageDir vaddr => Paging.unmap pageDir vaddr
  | .mapio addr flags => do let _ ← Paging.mapio addr flags
  | .heapCall self call => do let _ ← self.call call
  | .cleanupOnExit self => self.cleanupOnExit
  | .cleanupAll self => do let _ ← self.cleanupAll
  | .store vaddr value => store8 vaddr value

section
variable {s s' : Machine} {self : UserAllocator} {d start n i flags : Nat}

/-! ### Routines -/

theorem setPageDirectory_drains (d : Nat) : Prog.Keeps Drains (setPageDirectory d) :=
  Drains.of_manager fun _ => rfl

theorem Paging.createPageDirectory_memoryOnly : Prog.Keeps MemoryOnly createPageDirectory := by
  refine MemoryOnly.bind (placementKallocPaddr_memoryOnly _ _) fun tmp => ?_
  refine MemoryOnly.bind (zeroDirect_memoryOnly _ _) fun _ => ?_
  refine MemoryOnly.bind getCurrentPage_memoryOnly fun _ => ?_
  refine MemoryOnly.bind (loadDirect_memoryOnly _) fun _ => Prog.Keeps.ite (MemoryOnly.pure _) ?_
  exact MemoryOnly.bind (storeDirect_memoryOnly _ _) fun _ => MemoryOnly.pure _

theorem Paging.createUserPageDirectory_memoryOnly :
    Prog.Keeps MemoryOnly createUserPageDirectory :=
  MemoryOnly.bind createPageDirectory_memoryOnly fun _ =>
    Prog.Keeps.ite (MemoryOnly.pure _) (MemoryOnly.pure _)

theorem Paging.mapio_memoryOnly (addr flags : Nat) : Prog.Keeps MemoryOnly (mapio addr flags) :=
  MemoryOnly.bind getCurrentPage_memoryOnly fun _ => MemoryOnly.bind (getPage_memoryOnly _ _ _ _)
    fun _ => MemoryOnly.bind (storeDirect_memoryOnly _ _) fun _ => MemoryOnly.pure _

theorem Paging.setupUserMemoryLayout_memoryOnly (pageDir : Nat) :
    Prog.Keeps MemoryOnly (setupUserMemoryLayout pageDir) := by
  rw [setupUserMemoryLayout]
  generalize userStackSize / 0x1000 = n
  generalize 0 = i
  induction n generalizing i with
  | zero => exact MemoryOnly.pure _
  | succ n ih =>
    refine MemoryOnly.bind (placementKallocPaddr_memoryOnly _ _) fun stack => ?_
    refine Prog.Keeps.ite (MemoryOnly.pure _) (MemoryOnly.bind (zeroDirect_memoryOnly _ _) fun _ => ?_)
    refine MemoryOnly.bind (map_memoryOnly _ _ _ _) fun _ => ?_
    exact Prog.Keeps.ite (MemoryOnly.pure _) (ih _)

/-- A method of the global heap, which is stored back. -/
theorem setHeap_drains {x : Kernel (Nat × Heap)} (hx : Prog.Keeps Drains x) :
    Prog.Keeps Drains (do
      let r ← x
      modifyMachine fun s => { s with gKernelHeap := some r.2 }
      return r.1) :=
  Drains.bind hx fun _ => Drains.bind (fun _ => List.suffix_rfl) fun _ => Drains.pure _

theorem kfree_drains (ptr : Nat) : Prog.Keeps Drains (kfree ptr) := by
  refine Drains.bind (fun _ => List.suffix_rfl) fun s => ?_
  cases s.gKernelHeap with
  | none => exact Drains.pure _
  | some self =>
    refine Prog.Keeps.ite (Drains.pure _) ?_
    exact Drains.bind (MemoryOnly.drains (Heap.free_memoryOnly _)) fun _ _ => List.suffix_rfl

theorem kmalloc_drains (size : Nat) : Prog.Keeps Drains (kmalloc size) := by
  refine Drains.bind (fun _ => List.suffix_rfl) fun s => ?_
  cases s.gKernelHeap with
  | none => exact MemoryOnly.drains (placementKalloc_memoryOnly _ _)
  | some self => exact setHeap_drains (Heap.malloc_drains _)

theorem memory_drains (call : MemoryManager.KernelCall) : Prog.Keeps Drains call.run := by
  cases call with
  | kmalloc size => exact kmalloc_drains size
  | kfree ptr => exact Drains.bind (kfree_drains ptr) fun _ => Drains.pure _
  | kcalloc num size =>
    refine Drains.bind (fun _ => List.suffix_rfl) fun s => ?_
    cases s.gKernelHeap with
    | none => exact Drains.pure _
    | some self => exact setHeap_drains (Heap.calloc_drains _ _)
  | krealloc ptr newSize =>
    refine Drains.bind (fun _ => List.suffix_rfl) fun s => ?_
    cases s.gKernelHeap with
    | none => exact Drains.pure _
    | some self => exact setHeap_drains (Heap.realloc_drains _ _)
  | kmallocAligned alignment size =>
    refine Drains.bind (fun _ => List.suffix_rfl) fun s => ?_
    cases s.gKernelHeap with
    | none => exact Drains.pure _
    | some self => exact setHeap_drains (Heap.alignedAlloc_drains _ _)

theorem initKernelHeap_drains : Prog.Keeps Drains initKernelHeap := by
  refine Drains.bind (fun _ => List.suffix_rfl) fun s => ?_
  cases s.gKernelHeap with
  | some self => exact Drains.pure _
  | none =>
    refine Drains.bind (virtAlloc_drains _) fun v => ?_
    refine Prog.Keeps.ite (Drains.pure _) ?_
    refine Drains.bind (MemoryOnly.drains (placementKalloc_memoryOnly _ _)) fun place => ?_
    refine Drains.bind (MemoryOnly.drains (touch_memoryOnly _ _)) fun _ => ?_
    exact Drains.bind (Heap.new_drains _ _) fun _ _ => List.suffix_rfl

theorem UserAllocator.call_spends (self : UserAllocator) (call : Call) :
    Prog.Keeps Spends (self.call call) := by
  cases call with
  | malloc size => exact malloc_spends size
  | calloc num size => exact calloc_spends num size
  | realloc ptr newSize => exact realloc_spends ptr newSize
  | free ptr => exact Spends.bind (MemoryOnly.keeps (free_memoryOnly ptr)) fun _ => Spends.pure _

theorem Process.cleanupAll_drains (self : Process) : Prog.Keeps Drains self.cleanupAll := by
  rw [cleanupAll]
  rcases self.heap with _ | ⟨place, heap⟩
  · exact Drains.pure _
  · exact Drains.bind (MemoryOnly.drains UserAllocator.cleanupOnExit_memoryOnly) fun _ =>
      Drains.bind (kfree_drains place) fun _ => Drains.pure _

theorem Routine.drains (routine : Routine) : Prog.Keeps Drains routine.run := by
  have hdrop : ∀ {α : Type} {x : Kernel α}, Prog.Keeps Drains x →
      Prog.Keeps Drains (do let _ ← x) := fun hx => Drains.bind hx fun _ => Drains.pure _
  cases routine with
  | memory call => exact hdrop (memory_drains call)
  | initKernelHeap => exact initKernelHeap_drains
  | destroyHeap self => exact MemoryOnly.drains Heap.destroy_memoryOnly
  | allocFrame => exact hdrop (Spends.keeps Physical.alloc_spends)
  | createPageDirectory => exact hdrop (MemoryOnly.drains Paging.createPageDirectory_memoryOnly)
  | createUserPageDirectory =>
    exact hdrop (MemoryOnly.drains Paging.createUserPageDirectory_memoryOnly)
  | setupUserMemoryLayout d =>
    exact hdrop (MemoryOnly.drains (Paging.setupUserMemoryLayout_memoryOnly d))
  | setPageDirectory d => exact setPageDirectory_drains d
  | map dir vaddr paddr flags =>
    exact hdrop (MemoryOnly.drains (Paging.map_memoryOnly dir vaddr paddr flags))
  | unmap d vaddr => exact MemoryOnly.drains (Paging.unmap_memoryOnly d vaddr)
  | mapio addr flags => exact hdrop (MemoryOnly.drains (Paging.mapio_memoryOnly addr flags))
  | heapCall self call => exact hdrop (Spends.keeps (UserAllocator.call_spends self call))
  | cleanupOnExit self => exact MemoryOnly.drains UserAllocator.cleanupOnExit_memoryOnly
  | cleanupAll self => exact hdrop (Process.cleanupAll_drains self)
  | store vaddr value => exact MemoryOnly.drains (store8_memoryOnly vaddr value)

/-! ### What heaps and stacks take -/

end
end Coronel
