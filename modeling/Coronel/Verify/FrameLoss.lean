import Coronel.Kernel.Process
import Coronel.Verify.Frames

/-!
# Frames are never given back

`sys_release_memory` and the destructor of a process unmap pages without freeing their frames. The
free list of the physical manager therefore only shrinks: the one call of `physical::free`, for a
page that cannot be mapped, gives back the frame just taken.
-/

namespace Coronel

open Theory

/-- Only memory and the watermark have changed. -/
def MemoryOnly (s s' : Machine) : Prop :=
  s' = { s with ram := s'.ram, placement := s'.placement, reserved := s'.reserved }

/-- Frames at most leave the free list; CR3 and the other managers are as they were. -/
structure Spends (s s' : Machine) : Prop where
  free : s'.freeFrames <:+ s.freeFrames
  cr3 : s'.cr3 = s.cr3
  virt : s'.gKernelVirtualManager = s.gKernelVirtualManager
  heap : s'.gKernelHeap = s.gKernelHeap

/-- Frames at most leave the free list. -/
def Drains (s s' : Machine) : Prop := s'.freeFrames <:+ s.freeFrames

section
variable {s s1 s2 s' : Machine} {α β : Type} {x : Kernel α} {f : α → Kernel β}

theorem MemoryOnly.trans (h : MemoryOnly s s1) (h' : MemoryOnly s1 s2) : MemoryOnly s s2 := by
  rw [MemoryOnly] at *
  rw [h', h]

theorem MemoryOnly.manager (h : MemoryOnly s s') : s'.gPhysicalManager = s.gPhysicalManager := by
  rw [h]

theorem MemoryOnly.spends (h : MemoryOnly s s') : Spends s s' :=
  ⟨by rw [Machine.freeFrames_congr h.manager], by rw [h], by rw [h], by rw [h]⟩

theorem MemoryOnly.pure (a : α) : Prog.Keeps MemoryOnly (pure a : Kernel α) := fun _ => rfl

theorem MemoryOnly.bind (hx : Prog.Keeps MemoryOnly x) (hf : ∀ a, Prog.Keeps MemoryOnly (f a)) :
    Prog.Keeps MemoryOnly (x >>= f) := Prog.Keeps.bind MemoryOnly.trans hx hf

theorem MemoryOnly.keeps (h : Prog.Keeps MemoryOnly x) : Prog.Keeps Spends x := fun s =>
  MemoryOnly.spends (h s)

theorem Spends.refl (s : Machine) : Spends s s := ⟨List.suffix_rfl, rfl, rfl, rfl⟩

theorem Spends.trans (h : Spends s s1) (h' : Spends s1 s2) : Spends s s2 :=
  ⟨h'.free.trans h.free, h'.cr3.trans h.cr3, h'.virt.trans h.virt, h'.heap.trans h.heap⟩

theorem Spends.pure (a : α) : Prog.Keeps Spends (pure a : Kernel α) := Spends.refl

theorem Spends.bind (hx : Prog.Keeps Spends x) (hf : ∀ a, Prog.Keeps Spends (f a)) :
    Prog.Keeps Spends (x >>= f) := Prog.Keeps.bind Spends.trans hx hf

theorem Spends.keeps (h : Prog.Keeps Spends x) : Prog.Keeps Drains x := fun s => (h s).free

theorem Drains.trans (h : Drains s s1) (h' : Drains s1 s2) : Drains s s2 :=
  List.IsSuffix.trans h' h

theorem Drains.pure (a : α) : Prog.Keeps Drains (pure a : Kernel α) := fun _ => List.suffix_rfl

theorem Drains.bind (hx : Prog.Keeps Drains x) (hf : ∀ a, Prog.Keeps Drains (f a)) :
    Prog.Keeps Drains (x >>= f) := Prog.Keeps.bind Drains.trans hx hf

theorem MemoryOnly.drains (h : Prog.Keeps MemoryOnly x) : Prog.Keeps Drains x :=
  Spends.keeps (MemoryOnly.keeps h)

/-- Without the physical manager. -/
theorem Drains.of_manager (h : ∀ s, (x.run s).2.gPhysicalManager = s.gPhysicalManager) :
    Prog.Keeps Drains x := fun s => by rw [Drains, Machine.freeFrames_congr (h s)]

/-! ### Memory -/

theorem load8_memoryOnly (v : Nat) : Prog.Keeps MemoryOnly (load8 v) := by
  refine MemoryOnly.bind (fun _ => rfl) fun s => ?_
  split <;> exact fun _ => rfl

theorem store8_memoryOnly (v : Nat) (b : UInt8) : Prog.Keeps MemoryOnly (store8 v b) := by
  refine MemoryOnly.bind (fun _ => rfl) fun s => ?_
  split <;> exact fun _ => rfl

theorem loadN_memoryOnly (n v : Nat) : Prog.Keeps MemoryOnly (loadN n v) := by
  induction n generalizing v with
  | zero => exact fun _ => rfl
  | succ n ih => exact MemoryOnly.bind (load8_memoryOnly v) fun b => MemoryOnly.bind (ih _) fun _ _ => rfl

theorem storeN_memoryOnly (n v value : Nat) : Prog.Keeps MemoryOnly (storeN n v value) := by
  induction n generalizing v value with
  | zero => exact fun _ => rfl
  | succ n ih => exact MemoryOnly.bind (store8_memoryOnly v _) fun _ => ih _ _

theorem memset_memoryOnly (v : Nat) (b : UInt8) (n : Nat) :
    Prog.Keeps MemoryOnly (memset v b n) := by
  induction n generalizing v with
  | zero => exact fun _ => rfl
  | succ n ih => exact MemoryOnly.bind (store8_memoryOnly v b) fun _ => ih _

theorem memcpy_memoryOnly (v w n : Nat) : Prog.Keeps MemoryOnly (memcpy v w n) := by
  induction n generalizing v w with
  | zero => exact fun _ => rfl
  | succ n ih =>
    exact MemoryOnly.bind (load8_memoryOnly w) fun _ =>
      MemoryOnly.bind (store8_memoryOnly v _) fun _ => ih _ _

theorem touch_memoryOnly (v n : Nat) : Prog.Keeps MemoryOnly (touch v n) := by
  rw [touch]
  split <;> exact fun _ => rfl

theorem loadDirect_memoryOnly (v : Nat) : Prog.Keeps MemoryOnly (loadDirect v) := by
  rw [loadDirect]
  split
  · exact MemoryOnly.bind (fun _ => rfl) fun _ _ => rfl
  · exact fun _ => rfl

theorem storeDirect_memoryOnly (v value : Nat) : Prog.Keeps MemoryOnly (storeDirect v value) := by
  rw [storeDirect]
  split <;> exact fun _ => rfl

theorem zeroDirect_memoryOnly (v n : Nat) : Prog.Keeps MemoryOnly (zeroDirect v n) := by
  rw [zeroDirect]
  split <;> exact fun _ => rfl

theorem placementKalloc_memoryOnly (size : Nat) (align : Bool) :
    Prog.Keeps MemoryOnly (placementKalloc size align) := fun _ => rfl

theorem placementKallocPaddr_memoryOnly (size : Nat) (align : Bool) :
    Prog.Keeps MemoryOnly (placementKallocPaddr size align) := fun _ => rfl

/-! ### Paging -/

namespace Paging

theorem nextTable_memoryOnly (table index flags : Nat) (make : Bool) :
    Prog.Keeps MemoryOnly (nextTable table index flags make) := by
  apply MemoryOnly.bind (loadDirect_memoryOnly _)
  intro entry
  apply Prog.Keeps.ite
  · exact MemoryOnly.bind (placementKallocPaddr_memoryOnly _ _) fun tmp =>
      MemoryOnly.bind (zeroDirect_memoryOnly _ _) fun _ => MemoryOnly.bind (storeDirect_memoryOnly _ _) fun _ => MemoryOnly.bind (loadDirect_memoryOnly _) fun _ _ => rfl
  · exact Prog.Keeps.ite (fun _ => rfl) fun _ => rfl

theorem getPage_memoryOnly (dir vaddr flags : Nat) (make : Bool) :
    Prog.Keeps MemoryOnly (getPage dir vaddr flags make) := by
  apply MemoryOnly.bind (nextTable_memoryOnly _ _ _ _)
  rintro (_ | pdpt)
  · exact fun _ => rfl
  apply MemoryOnly.bind (nextTable_memoryOnly _ _ _ _)
  rintro (_ | pde)
  · exact fun _ => rfl
  apply MemoryOnly.bind (nextTable_memoryOnly _ _ _ _)
  rintro (_ | pte) <;> exact fun _ => rfl

theorem map_memoryOnly (dir vaddr paddr flags : Nat) :
    Prog.Keeps MemoryOnly (map dir vaddr paddr flags) := by
  apply MemoryOnly.bind (getPage_memoryOnly _ _ _ _)
  intro page
  exact Prog.Keeps.ite (fun _ => rfl) (MemoryOnly.bind (storeDirect_memoryOnly _ _) fun _ _ => rfl)

theorem unmap_memoryOnly (dir vaddr : Nat) : Prog.Keeps MemoryOnly (unmap dir vaddr) := by
  apply MemoryOnly.bind (loadDirect_memoryOnly _)
  intro pml4
  refine Prog.Keeps.ite (fun _ => rfl) (MemoryOnly.bind (loadDirect_memoryOnly _) fun pdpt => ?_)
  refine Prog.Keeps.ite (fun _ => rfl) (MemoryOnly.bind (loadDirect_memoryOnly _) fun pde => ?_)
  refine Prog.Keeps.ite (fun _ => rfl) (MemoryOnly.bind (loadDirect_memoryOnly _) fun pte => ?_)
  exact Prog.Keeps.ite (fun _ => rfl) (storeDirect_memoryOnly _ _)

end Paging

theorem unmapPages_memoryOnly {dir : Kernel Nat} (hdir : Prog.Keeps MemoryOnly dir)
    (start n : Nat) : Prog.Keeps MemoryOnly (unmapPages dir start n) := by
  rw [unmapPages]
  generalize 0 = i
  induction n generalizing i with
  | zero => exact fun _ => rfl
  | succ n ih =>
    refine MemoryOnly.bind (MemoryOnly.bind hdir fun _ => ?_) fun _ => ih _
    exact Paging.unmap_memoryOnly _ _

theorem getCurrentPage_memoryOnly : Prog.Keeps MemoryOnly getCurrentPage :=
  MemoryOnly.bind (fun _ => rfl) fun _ _ => rfl

/-! ### The physical manager -/

theorem Physical.alloc_spends : Prog.Keeps Spends Physical.alloc := by
  intro s
  rcases hm : s.gPhysicalManager with _ | m
  · have hrun : Physical.alloc.run s = (.error (.pageFault 0), s) := by
      rw [Physical.alloc]
      apply Prog.run_bind_error
      rw [Physical.manager, Prog.run_bind_ok (Prog.run_get s)]
      simp only [hm]
      rfl
    rw [hrun]
    exact Spends.refl s
  · rcases hfree : s.freeFrames with _ | ⟨f, fs⟩
    · rw [Physical.alloc_run_nil ⟨m, hm⟩ hfree]
      exact Spends.refl s
    · obtain ⟨m', hrun, hfs⟩ := Physical.alloc_run_cons ⟨m, hm⟩ hfree
      rw [hrun]
      refine ⟨?_, rfl, rfl, rfl⟩
      rw [hfree]
      simp only [Machine.freeFrames, hfs]
      exact List.suffix_cons f fs

/-- A frame that `alloc` returns was the first of the list. -/
theorem Physical.alloc_cases {f : Nat} (h : Physical.alloc.run s = (.ok f, s1)) :
    (∃ m, s1.gPhysicalManager = some m) ∧
      (f = 0 ∧ s1 = s ∨ s.freeFrames = f :: s1.freeFrames) := by
  rcases hm : s.gPhysicalManager with _ | m
  · rw [Physical.alloc, Prog.run_bind_eq_ok] at h
    obtain ⟨m, s2, h1, -⟩ := h
    rw [Physical.manager, Prog.run_bind_ok (Prog.run_get s)] at h1
    simp only [hm] at h1
    cases h1
  · rcases hfree : s.freeFrames with _ | ⟨g, fs⟩
    · rw [Physical.alloc_run_nil ⟨m, hm⟩ hfree] at h
      cases h
      exact ⟨⟨m, hm⟩, .inl ⟨rfl, rfl⟩⟩
    · obtain ⟨m', hrun, hfs⟩ := Physical.alloc_run_cons ⟨m, hm⟩ hfree
      rw [hrun] at h
      cases h
      refine ⟨⟨m', rfl⟩, .inr ?_⟩
      simp only [Machine.freeFrames, hfs]

/-- What `physical::free` does: the frame is put on the list, or not. -/
structure Returned (f : Nat) (s s' : Machine) : Prop where
  free : s'.freeFrames = s.freeFrames ∨ s'.freeFrames = f :: s.freeFrames
  cr3 : s'.cr3 = s.cr3
  virt : s'.gKernelVirtualManager = s.gKernelVirtualManager
  heap : s'.gKernelHeap = s.gKernelHeap

theorem MemoryOnly.returned {f : Nat} (h : MemoryOnly s s') : Returned f s s' :=
  ⟨.inl (Machine.freeFrames_congr h.manager), by rw [h], by rw [h], by rw [h]⟩

theorem Physical.free_returned {m : Physical} {f : Nat} (hm : s.gPhysicalManager = some m) :
    Returned f s ((Physical.free f).run s).2 := by
  rw [Physical.free, Prog.run_bind_ok (Physical.manager_run hm)]
  by_cases hend : (!isAligned f || decide (m.physicalEnd ≤ f)) = true
  · rw [if_pos hend]
    exact MemoryOnly.returned rfl
  rw [if_neg hend]
  -- up to the last step only memory changes
  have hstep : ∀ {α : Type} {x : Kernel α} {k : α → Kernel Unit}, Prog.Keeps MemoryOnly x →
      (∀ a s1, MemoryOnly s s1 → Returned f s ((k a).run s1).2) → ∀ s1, MemoryOnly s s1 →
      Returned f s ((x >>= k).run s1).2 := by
    intro α x k hx hk s1 h1
    rcases hrun : x.run s1 with ⟨e | a, s2⟩
    · rw [Prog.run_bind_error hrun]
      exact (h1.trans (hx.of_run hrun)).returned
    · rw [Prog.run_bind_ok hrun]
      exact hk a s2 (h1.trans (hx.of_run hrun))
  refine hstep (placementKalloc_memoryOnly _ _) (fun newHead s1 h1 => ?_) s rfl
  refine hstep (storeDirect_memoryOnly _ _) (fun _ s2 h2 => ?_) s1 h1
  refine hstep (storeDirect_memoryOnly _ _) (fun _ s3 h3 => ?_) s2 h2
  have hset : (Physical.setManager { m with freeList := ⟨newHead, f⟩ :: m.freeList }).run s3 =
      (.ok (), { s3 with gPhysicalManager := some { m with
        freeList := ⟨newHead, f⟩ :: m.freeList } }) := rfl
  rw [hset]
  refine ⟨.inr ?_, by rw [h3], by rw [h3], by rw [h3]⟩
  simp only [Machine.freeFrames, hm, List.map_cons]

/-- A frame is taken, and given back when its page cannot be mapped. -/
theorem mapFramesFrom_spends {dir : Kernel Nat} {flags start n i : Nat}
    {clear cleanup : Nat → Kernel Unit} (hdir : Prog.Keeps MemoryOnly dir)
    (hclear : ∀ a, Prog.Keeps Spends (clear a)) (hcleanup : ∀ a, Prog.Keeps Spends (cleanup a)) :
    Prog.Keeps Spends (mapFramesFrom dir flags clear cleanup start n i) := by
  induction n generalizing i with
  | zero => exact Spends.pure true
  | succ n ih =>
    intro s
    rw [mapFramesFrom]
    rcases halloc : Physical.alloc.run s with ⟨e | f, s1⟩
    · rw [Prog.run_bind_error halloc]
      exact Physical.alloc_spends.of_run halloc
    rw [Prog.run_bind_ok halloc]
    have h1 := Physical.alloc_spends.of_run halloc
    obtain ⟨⟨m1, hm1⟩, hf⟩ := Physical.alloc_cases halloc
    have hgive : Prog.Keeps Spends (cleanup i >>= fun _ => (pure false : Kernel Bool)) :=
      Spends.bind (hcleanup i) fun _ => Spends.pure false
    by_cases h0 : f = 0
    · rw [if_pos h0]
      exact h1.trans (hgive s1)
    rw [if_neg h0]
    rcases hd : dir.run s1 with ⟨e | d, s1'⟩
    · rw [Prog.run_bind_error hd]
      exact h1.trans (hdir.of_run hd).spends
    rw [Prog.run_bind_ok hd]
    rcases hmap : (Paging.map d (pageAt start i) f flags).run s1' with ⟨e | r, s2⟩
    · rw [Prog.run_bind_error hmap]
      exact h1.trans ((hdir.of_run hd).spends.trans
        ((Paging.map_memoryOnly _ _ _ _).of_run hmap).spends)
    rw [Prog.run_bind_ok hmap]
    have hsame : MemoryOnly s1 s2 :=
      (hdir.of_run hd).trans ((Paging.map_memoryOnly _ _ _ _).of_run hmap)
    by_cases hr : r ≠ 0
    · -- the frame goes back to where it came from
      rw [if_pos hr]
      have hm2 : s2.gPhysicalManager = some m1 := hsame.manager.trans hm1
      have h2 : s2.freeFrames = s1.freeFrames := Machine.freeFrames_congr hsame.manager
      have hfree : s.freeFrames = f :: s1.freeFrames := hf.resolve_left fun h => h0 h.1
      have h12 := h1.trans hsame.spends
      have hback := Physical.free_returned (f := f) hm2
      have h3 : Spends s ((Physical.free f).run s2).2 := by
        refine ⟨?_, hback.cr3.trans h12.cr3, hback.virt.trans h12.virt, hback.heap.trans h12.heap⟩
        rcases hback.free with h | h <;> rw [h, h2, hfree]
        exact List.suffix_cons f _
      rcases hrun : (Physical.free f).run s2 with ⟨e | u, s3⟩
      all_goals rw [hrun] at h3
      · rw [Prog.run_bind_error hrun]
        exact h3
      · rw [Prog.run_bind_ok hrun]
        exact h3.trans (hgive s3)
    · rw [if_neg hr]
      exact (h1.trans hsame.spends).trans (Spends.bind (hclear _) (fun _ => ih) s2)

/-! ### Blocks -/

/-- Headers are in memory only. -/
structure BlockType.OnMemory (T : BlockType) : Prop where
  size : ∀ a, Prog.Keeps MemoryOnly (T.size a)
  setSize : ∀ a v, Prog.Keeps MemoryOnly (T.setSize a v)
  isFree : ∀ a, Prog.Keeps MemoryOnly (T.isFree a)
  setFree : ∀ a v, Prog.Keeps MemoryOnly (T.setFree a v)
  next : ∀ a, Prog.Keeps MemoryOnly (T.next a)
  setNext : ∀ a v, Prog.Keeps MemoryOnly (T.setNext a v)
  prev : ∀ a, Prog.Keeps MemoryOnly (T.prev a)
  setPrev : ∀ a v, Prog.Keeps MemoryOnly (T.setPrev a v)
  isValid : ∀ a, Prog.Keeps MemoryOnly (T.isValid a)
  new : ∀ a v b, Prog.Keeps MemoryOnly (T.new a v b)

namespace BlockType.OnMemory

variable {T : BlockType}

theorem setPrevIf (h : T.OnMemory) (a v : Nat) : Prog.Keeps MemoryOnly (T.setPrevIf a v) :=
  Prog.Keeps.ite (fun _ => rfl) (h.setPrev a v)

theorem findFreeBlock (h : T.OnMemory) (first size : Nat) :
    Prog.Keeps MemoryOnly (T.findFreeBlock first size) := by
  rw [BlockType.findFreeBlock]
  generalize fuel = n
  induction n generalizing first with
  | zero => exact fun _ => rfl
  | succ n ih =>
    refine Prog.Keeps.ite (fun _ => rfl) (MemoryOnly.bind (MemoryOnly.bind (h.isFree _) fun r => ?_)
      fun r => Prog.Keeps.ite (fun _ => rfl) (MemoryOnly.bind (h.next _) fun _ => ih _))
    exact Prog.Keeps.ite (MemoryOnly.bind (h.size _) fun _ _ => rfl) fun _ => rfl

theorem splitBlock (h : T.OnMemory) (block size : Nat) :
    Prog.Keeps MemoryOnly (T.splitBlock block size) := by
  refine MemoryOnly.bind (h.size _) fun k => Prog.Keeps.ite (fun _ => rfl) ?_
  refine MemoryOnly.bind (h.size _) fun k => MemoryOnly.bind (h.new _ _ _) fun _ => ?_
  refine MemoryOnly.bind (h.next _) fun _ => MemoryOnly.bind (h.setNext _ _) fun _ => ?_
  refine MemoryOnly.bind (h.setPrev _ _) fun _ => MemoryOnly.bind (h.next _) fun _ => ?_
  refine MemoryOnly.bind (h.setPrevIf _ _) fun _ => MemoryOnly.bind (h.setNext _ _) fun _ => ?_
  exact MemoryOnly.bind (h.setSize _ _) fun _ _ => rfl

theorem absorb (h : T.OnMemory) (block nextBlock : Nat) :
    Prog.Keeps MemoryOnly (T.absorb block nextBlock) := by
  refine MemoryOnly.bind (h.size _) fun _ => MemoryOnly.bind (h.size _) fun _ => ?_
  refine MemoryOnly.bind (h.setSize _ _) fun _ => MemoryOnly.bind (h.next _) fun _ => ?_
  exact MemoryOnly.bind (h.setNext _ _) fun _ => MemoryOnly.bind (h.next _) fun _ => h.setPrevIf _ _

theorem coalesceNext (h : T.OnMemory) (block : Nat) :
    Prog.Keeps MemoryOnly (T.coalesceNext block) := by
  refine MemoryOnly.bind (h.next _) fun _ => Prog.Keeps.ite (fun _ => rfl) ?_
  refine MemoryOnly.bind (h.next _) fun _ => MemoryOnly.bind (h.isFree _) fun _ => ?_
  refine Prog.Keeps.ite (fun _ => rfl) (MemoryOnly.bind (h.size _) fun _ => ?_)
  refine MemoryOnly.bind (h.next _) fun _ => Prog.Keeps.ite (fun _ => rfl) ?_
  exact MemoryOnly.bind (h.next _) fun _ => MemoryOnly.bind (h.absorb _ _) fun _ _ => rfl

theorem coalescePrev (h : T.OnMemory) (block : Nat) :
    Prog.Keeps MemoryOnly (T.coalescePrev block) := by
  refine MemoryOnly.bind (h.prev _) fun _ => Prog.Keeps.ite (fun _ => rfl) ?_
  refine MemoryOnly.bind (h.prev _) fun _ => MemoryOnly.bind (h.isFree _) fun _ => ?_
  refine Prog.Keeps.ite (fun _ => rfl) (MemoryOnly.bind (h.prev _) fun _ => ?_)
  refine MemoryOnly.bind (h.prev _) fun _ => MemoryOnly.bind (h.size _) fun _ => ?_
  refine Prog.Keeps.ite (fun _ => rfl) (MemoryOnly.bind (h.prev _) fun _ => ?_)
  exact MemoryOnly.bind (h.absorb _ _) fun _ _ => rfl

theorem coalesceBlock (h : T.OnMemory) (block : Nat) :
    Prog.Keeps MemoryOnly (T.coalesceBlock block) := by
  refine MemoryOnly.bind (h.isFree _) fun _ => Prog.Keeps.ite (fun _ => rfl) ?_
  exact MemoryOnly.bind (h.coalesceNext _) fun _ => MemoryOnly.bind (h.coalescePrev _) fun _ _ => rfl

theorem appendBlock (h : T.OnMemory) (first newBlock : Nat) :
    Prog.Keeps MemoryOnly (T.appendBlock first newBlock) := by
  refine MemoryOnly.bind ?_ fun _ => MemoryOnly.bind (h.setNext _ _) fun _ => h.setPrev _ _
  generalize fuel = n
  induction n generalizing first with
  | zero => exact fun _ => rfl
  | succ n ih =>
    exact MemoryOnly.bind (h.next _) fun _ => Prog.Keeps.ite (fun _ => rfl) (ih _)

theorem freeBlock (h : T.OnMemory) (ptr : Nat) : Prog.Keeps MemoryOnly (T.freeBlock ptr) := by
  refine Prog.Keeps.ite (fun _ => rfl) (MemoryOnly.bind (h.isValid _) fun _ => ?_)
  refine Prog.Keeps.ite (fun _ => rfl) (MemoryOnly.bind (h.isFree _) fun _ => ?_)
  refine Prog.Keeps.ite (fun _ => rfl) (MemoryOnly.bind (h.setFree _ _) fun _ => ?_)
  exact MemoryOnly.bind (h.size _) fun _ => MemoryOnly.bind (h.coalesceBlock _) fun _ _ => rfl

end BlockType.OnMemory

/-! ### The allocator -/

theorem userBlock_onMemory : userBlock.OnMemory where
  size _ := loadN_memoryOnly _ _
  setSize _ _ := storeN_memoryOnly _ _ _
  isFree _ := MemoryOnly.bind (loadN_memoryOnly _ _) fun _ _ => rfl
  setFree _ _ := MemoryOnly.bind (loadN_memoryOnly _ _) fun _ =>
    MemoryOnly.bind (storeN_memoryOnly _ _ _) fun _ =>
      MemoryOnly.bind (loadN_memoryOnly _ _) fun _ => storeN_memoryOnly _ _ _
  next _ := loadN_memoryOnly _ _
  setNext _ _ := storeN_memoryOnly _ _ _
  prev _ := loadN_memoryOnly _ _
  setPrev _ _ := storeN_memoryOnly _ _ _
  isValid _ := MemoryOnly.bind (loadN_memoryOnly _ _) fun _ _ => rfl
  new _ _ _ := MemoryOnly.bind (storeN_memoryOnly _ _ _) fun _ =>
    MemoryOnly.bind (storeN_memoryOnly _ _ _) fun _ =>
      MemoryOnly.bind (storeN_memoryOnly _ _ _) fun _ =>
        MemoryOnly.bind (storeN_memoryOnly _ _ _) fun _ =>
          MemoryOnly.bind (loadN_memoryOnly _ _) fun _ => storeN_memoryOnly _ _ _

namespace UserAllocator

variable {self : UserAllocator}

theorem sysRequestMemory_spends (addr size : Nat) :
    Prog.Keeps Spends (sysRequestMemory self addr size) :=
  mapFramesFrom_spends (MemoryOnly.pure _) (fun _ => Spends.pure ()) fun _ =>
    MemoryOnly.keeps (unmapPages_memoryOnly (MemoryOnly.pure _) _ _)

theorem new_spends (d : Nat) : Prog.Keeps Spends (new d) := by
  refine Spends.bind (sysRequestMemory_spends _ _) fun r => ?_
  refine Prog.Keeps.ite (Spends.bind ?_ fun _ => Spends.pure _) (Spends.pure _)
  exact MemoryOnly.keeps (userBlock_onMemory.new _ _ _)

theorem splitBlock_memoryOnly (block size : Nat) :
    Prog.Keeps MemoryOnly (splitBlock self block size) :=
  MemoryOnly.bind (userBlock_onMemory.splitBlock _ _) fun _ =>
    Prog.Keeps.ite (fun _ => rfl) fun _ => rfl

theorem mallocFrom_memoryOnly (block size : Nat) :
    Prog.Keeps MemoryOnly (mallocFrom self block size) :=
  Prog.Keeps.ite (fun _ => rfl) (MemoryOnly.bind (splitBlock_memoryOnly _ _) fun _ =>
    MemoryOnly.bind (userBlock_onMemory.setFree _ _) fun _ _ => rfl)

theorem expandHeap_spends (minSize : Nat) : Prog.Keeps Spends (expandHeap self minSize) := by
  have h := userBlock_onMemory
  refine Prog.Keeps.ite (Spends.pure _) (Spends.bind (sysRequestMemory_spends _ _) fun r => ?_)
  refine Prog.Keeps.ite (Spends.pure _) (MemoryOnly.keeps (MemoryOnly.bind (h.new _ _ _) fun _ => ?_))
  have hrest : ∀ heap : UserAllocator, Prog.Keeps MemoryOnly (do
      return (true, ← coalesceBlock heap self.heapCurrent)) := fun heap =>
    MemoryOnly.bind (MemoryOnly.bind (h.coalesceBlock _) fun _ _ => rfl) fun _ _ => rfl
  exact Prog.Keeps.ite (MemoryOnly.bind (h.appendBlock _ _) fun _ => hrest _) (hrest _)

theorem malloc_spends (size : Nat) : Prog.Keeps Spends (malloc self size) := by
  have hfind : ∀ (heap : UserAllocator) k, Prog.Keeps Spends (findFreeBlock heap k) := fun _ _ =>
    MemoryOnly.keeps (userBlock_onMemory.findFreeBlock _ _)
  refine Prog.Keeps.ite (Spends.pure _) (Prog.Keeps.ite (Spends.pure _) ?_)
  refine Spends.bind (hfind _ _) fun block => Prog.Keeps.ite ?_ ?_
  · refine Spends.bind (expandHeap_spends _) fun r => Prog.Keeps.ite (Spends.pure _) ?_
    exact Spends.bind (hfind _ _) fun _ => MemoryOnly.keeps (mallocFrom_memoryOnly _ _)
  · exact MemoryOnly.keeps (mallocFrom_memoryOnly _ _)

theorem free_memoryOnly (ptr : Nat) : Prog.Keeps MemoryOnly (free self ptr) := by
  refine MemoryOnly.bind (userBlock_onMemory.freeBlock ptr) fun r => ?_
  rcases r with _ | ⟨size, removed⟩ <;> exact fun _ => rfl

theorem realloc_spends (ptr newSize : Nat) : Prog.Keeps Spends (realloc self ptr newSize) := by
  have h := userBlock_onMemory
  have hfree : ∀ heap : UserAllocator, Prog.Keeps Spends (free heap ptr) := fun _ =>
    MemoryOnly.keeps (free_memoryOnly ptr)
  refine Prog.Keeps.ite (malloc_spends _) (Prog.Keeps.ite ?_ ?_)
  · exact Spends.bind (hfree _) fun _ => Spends.pure _
  refine Spends.bind (MemoryOnly.keeps (h.isValid _)) fun _ => Prog.Keeps.ite (Spends.pure _) ?_
  refine Spends.bind (MemoryOnly.keeps (h.isFree _)) fun _ => Prog.Keeps.ite (Spends.pure _) ?_
  refine Spends.bind (MemoryOnly.keeps (h.size _)) fun _ => Prog.Keeps.ite (Prog.Keeps.ite ?_ ?_) ?_
  · exact Spends.bind (MemoryOnly.keeps (splitBlock_memoryOnly _ _)) fun _ => Spends.pure _
  · exact Spends.pure _
  refine Spends.bind (malloc_spends _) fun r => Prog.Keeps.ite (Spends.pure _) ?_
  refine Spends.bind (MemoryOnly.keeps (memcpy_memoryOnly _ _ _)) fun _ => ?_
  exact Spends.bind (hfree _) fun _ => Spends.pure _

theorem calloc_spends (num size : Nat) : Prog.Keeps Spends (calloc self num size) := by
  refine Prog.Keeps.ite (Spends.pure _) (Spends.bind (malloc_spends _) fun r => ?_)
  refine Prog.Keeps.ite (Spends.bind ?_ fun _ => Spends.pure r) (Spends.pure r)
  exact MemoryOnly.keeps (memset_memoryOnly _ _ _)

theorem cleanupOnExit_memoryOnly : Prog.Keeps MemoryOnly (cleanupOnExit self) :=
  Prog.Keeps.ite (unmapPages_memoryOnly (MemoryOnly.pure _) _ _) fun _ => rfl

end UserAllocator

/-! ### The kernel heap -/

theorem heapBlock_onMemory : heapBlock.OnMemory where
  size _ := loadN_memoryOnly _ _
  setSize _ _ := storeN_memoryOnly _ _ _
  isFree _ := MemoryOnly.bind (loadN_memoryOnly _ _) fun _ _ => rfl
  setFree _ _ := MemoryOnly.bind (storeN_memoryOnly _ _ _) fun _ => storeN_memoryOnly _ _ _
  next _ := loadN_memoryOnly _ _
  setNext _ _ := storeN_memoryOnly _ _ _
  prev _ := loadN_memoryOnly _ _
  setPrev _ _ := storeN_memoryOnly _ _ _
  isValid _ := MemoryOnly.bind (loadN_memoryOnly _ _) fun _ _ => rfl
  new _ _ _ := MemoryOnly.bind (storeN_memoryOnly _ _ _) fun _ =>
    MemoryOnly.bind (storeN_memoryOnly _ _ _) fun _ =>
      MemoryOnly.bind (storeN_memoryOnly _ _ _) fun _ =>
        MemoryOnly.bind (storeN_memoryOnly _ _ _) fun _ => storeN_memoryOnly _ _ _

theorem virtManager_memoryOnly : Prog.Keeps MemoryOnly virtManager := by
  refine MemoryOnly.bind (fun _ => rfl) fun s => ?_
  cases s.gKernelVirtualManager with
  | none => exact fun _ => rfl
  | some v => exact fun _ => rfl

theorem setVirtManager_drains (v : Virt) : Prog.Keeps Drains (setVirtManager v) :=
  Drains.of_manager fun _ => rfl

theorem virtAlloc_drains (size : Nat) : Prog.Keeps Drains (virtAlloc size) :=
  Drains.bind (MemoryOnly.drains virtManager_memoryOnly) fun _ =>
    Drains.bind (setVirtManager_drains _) fun _ => Drains.pure _

theorem Virt.pushBack_memoryOnly (self : Virt) (node : VirtNode) :
    Prog.Keeps MemoryOnly (Virt.pushBack self node) :=
  MemoryOnly.bind (placementKalloc_memoryOnly _ _) fun _ =>
    MemoryOnly.bind (touch_memoryOnly _ _) fun _ =>
      MemoryOnly.bind (placementKalloc_memoryOnly _ _) fun _ =>
        MemoryOnly.bind (touch_memoryOnly _ _) fun _ => MemoryOnly.pure _

theorem virtFree_drains (addr size : Nat) : Prog.Keeps Drains (virtFree addr size) := by
  refine Drains.bind (MemoryOnly.drains virtManager_memoryOnly) fun v => ?_
  refine Drains.bind (MemoryOnly.drains ?_) fun v' => setVirtManager_drains v'
  rw [Virt.free]
  split
  · exact MemoryOnly.pure _
  · exact Virt.pushBack_memoryOnly _ _

namespace Heap

variable {self : Heap}

theorem mapPages_drains (start size : Nat) : Prog.Keeps Drains (mapPages start size) :=
  Spends.keeps (mapFramesFrom_spends getCurrentPage_memoryOnly
    (fun _ => MemoryOnly.keeps (memset_memoryOnly _ _ _)) fun _ =>
      MemoryOnly.keeps (unmapPages_memoryOnly getCurrentPage_memoryOnly _ _))

theorem new_drains (start size : Nat) : Prog.Keeps Drains (new start size) := by
  refine Drains.bind (mapPages_drains _ _) fun r => Prog.Keeps.ite (Drains.pure _) ?_
  exact Drains.bind (MemoryOnly.drains (heapBlock_onMemory.new _ _ _)) fun _ => Drains.pure _

theorem destroy_memoryOnly : Prog.Keeps MemoryOnly (destroy self) :=
  unmapPages_memoryOnly getCurrentPage_memoryOnly _ _

theorem splitBlock_memoryOnly (block size : Nat) :
    Prog.Keeps MemoryOnly (splitBlock self block size) :=
  MemoryOnly.bind (heapBlock_onMemory.splitBlock _ _) fun _ =>
    Prog.Keeps.ite (fun _ => rfl) fun _ => rfl

theorem mallocFrom_memoryOnly (block size : Nat) :
    Prog.Keeps MemoryOnly (mallocFrom self block size) :=
  MemoryOnly.bind (splitBlock_memoryOnly _ _) fun _ =>
    MemoryOnly.bind (heapBlock_onMemory.setFree _ _) fun _ _ => rfl

theorem expandHeap_drains (minSize : Nat) : Prog.Keeps Drains (expandHeap self minSize) := by
  have h := heapBlock_onMemory
  refine Drains.bind (virtAlloc_drains _) fun region => ?_
  refine Prog.Keeps.ite (Drains.pure _) (Drains.bind (mapPages_drains _ _) fun r => ?_)
  refine Prog.Keeps.ite ?_ (MemoryOnly.drains ?_)
  · exact Drains.bind (virtFree_drains _ _) fun _ => Drains.pure _
  · refine MemoryOnly.bind (h.new _ _ _) fun _ => MemoryOnly.bind (h.appendBlock _ _) fun _ => ?_
    exact MemoryOnly.bind (MemoryOnly.bind (h.coalesceBlock _) fun _ _ => rfl) fun _ _ => rfl

theorem malloc_drains (size : Nat) : Prog.Keeps Drains (malloc self size) := by
  have hfind : ∀ (heap : Heap) k, Prog.Keeps Drains (findFreeBlock heap k) := fun _ _ =>
    MemoryOnly.drains (heapBlock_onMemory.findFreeBlock _ _)
  refine Prog.Keeps.ite (Drains.pure _) (Drains.bind (hfind _ _) fun block => Prog.Keeps.ite ?_ ?_)
  · exact MemoryOnly.drains (mallocFrom_memoryOnly _ _)
  · refine Drains.bind (expandHeap_drains _) fun r => Prog.Keeps.ite (Drains.pure _) ?_
    refine Drains.bind (hfind _ _) fun _ => Prog.Keeps.ite (Drains.pure _) ?_
    exact MemoryOnly.drains (mallocFrom_memoryOnly _ _)

theorem free_memoryOnly (ptr : Nat) : Prog.Keeps MemoryOnly (free self ptr) := by
  refine MemoryOnly.bind (heapBlock_onMemory.freeBlock ptr) fun r => ?_
  rcases r with _ | ⟨size, removed⟩ <;> exact fun _ => rfl

theorem realloc_drains (ptr newSize : Nat) : Prog.Keeps Drains (realloc self ptr newSize) := by
  have h := heapBlock_onMemory
  have hfree : ∀ heap : Heap, Prog.Keeps Drains (free heap ptr) := fun _ =>
    MemoryOnly.drains (free_memoryOnly ptr)
  refine Prog.Keeps.ite (malloc_drains _) (Prog.Keeps.ite ?_ ?_)
  · exact Drains.bind (hfree _) fun _ => Drains.pure _
  refine Drains.bind (MemoryOnly.drains (h.isValid _)) fun _ => Prog.Keeps.ite (Drains.pure _) ?_
  refine Drains.bind (MemoryOnly.drains (h.isFree _)) fun _ => Prog.Keeps.ite (Drains.pure _) ?_
  refine Drains.bind (MemoryOnly.drains (h.size _)) fun _ => Prog.Keeps.ite (Prog.Keeps.ite ?_ ?_) ?_
  · exact Drains.bind (MemoryOnly.drains (splitBlock_memoryOnly _ _)) fun _ => Drains.pure _
  · exact Drains.pure _
  refine Drains.bind (malloc_drains _) fun r => Prog.Keeps.ite (Drains.pure _) ?_
  refine Drains.bind (MemoryOnly.drains (memcpy_memoryOnly _ _ _)) fun _ => ?_
  exact Drains.bind (hfree _) fun _ => Drains.pure _

theorem calloc_drains (num size : Nat) : Prog.Keeps Drains (calloc self num size) := by
  refine Prog.Keeps.ite (Drains.pure _) (Drains.bind (malloc_drains _) fun r => ?_)
  refine Prog.Keeps.ite (Drains.pure _) (Drains.bind ?_ fun _ => Drains.pure _)
  exact MemoryOnly.drains (memset_memoryOnly _ _ _)

theorem alignedAlloc_drains (alignment size : Nat) :
    Prog.Keeps Drains (alignedAlloc self alignment size) := by
  refine Prog.Keeps.ite (Drains.pure _) (Drains.bind (malloc_drains _) fun r => ?_)
  refine Prog.Keeps.ite (Drains.pure _) (Drains.bind ?_ fun _ => Drains.pure _)
  exact MemoryOnly.drains (storeN_memoryOnly _ _ _)

end Heap

end
end Coronel
