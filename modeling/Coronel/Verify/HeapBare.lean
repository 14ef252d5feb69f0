import Coronel.Verify.HeapRequests

/-!
# A heap without its first pages

When the constructor cannot map the first pages it leaves `first_block_` null, and the object is
published all the same. `find_free_block` takes the empty list as it is. `expand_heap` does not: with
a region and frames for it, it looks for the last block of the list from the null pointer on. Page 0
is not mapped, as `_start64` leaves it, so that this access faults.
-/

namespace Coronel

open Theory Theory.Bytes

namespace Heap

/-- No address of page 0 has a translation. -/
def NullUnmapped (s : Machine) : Prop := ∀ a < 4096, translate s.ram s.cr3 a = none

/-- The heap has neither a block nor a page, only the addresses of its first region. -/
structure Bare (W : Nat) (dirs : List Nat) (heap : Heap) (s : Machine) : Prop where
  space : Space W dirs [] s
  first : heap.firstBlock = 0
  regions : heap.regions = []
  paged : ∃ p n, heap.heapStart = 4096 * p ∧ heap.heapSize = 4096 * n ∧ p + n ≤ 2 ^ 26
  virt : ∃ v others, s.gKernelVirtualManager = some v ∧ Virt.Inv v others
  null : NullUnmapped s

/-- The call has the heap expanded, for which there are a region and frames. -/
def Expands (s : Machine) (call : Call) : Prop :=
  call.bytes ≠ 0 ∧ call.bytes < 2 ^ 64 ∧
    CanGrow s (add64 (alignUp call.bytes) HeapBlock.sizeofHeapBlock)

/-- The call returns null or a block of its size. It follows no null pointer, which would fault. -/
def Sound (W : Nat) (heap : Heap) (s : Machine) (call : Call) : Prop :=
  Prog.Safe (Promise W) Trap.IsDirectMap (heap.call call) s fun r s' =>
    r.1 = 0 ∨ Capacity r.2 s' r.1 call.bytes

/-- The states of a heap whose first pages could not be mapped, when calls are made that meet `ok`.
In between the managers serve others, and frames may come back. -/
inductive BareRun (ok : Machine → Call → Prop) (W : Nat) : Heap → Machine → Prop
  | create {dirs s s' start size self} : Space W dirs [] s → NullUnmapped s → start ≠ 0 →
    (∃ v others, s.gKernelVirtualManager = some v ∧
      Virt.Inv v (⟨start, alignUp size⟩ :: others)) →
    (Heap.new start size).run s = (.ok self, s') → s' ∈ Promise W → self.firstBlock = 0 →
    BareRun ok W self s'
  | call {self s call r self' s'} : BareRun ok W self s → Passed [] call → ok s call →
    (self.call call).run s = (.ok (r, self'), s') → s' ∈ Promise W → BareRun ok W self' s'
  | meanwhile {dirs self s s'} : BareRun ok W self s → Space W dirs [] s' → NullUnmapped s' →
    (∃ v others, s'.gKernelVirtualManager = some v ∧ Virt.Inv v others) → BareRun ok W self s'

section
variable {W : Nat} {dirs : List Nat} {s s' : Machine} {self self' : Heap} {others : List Span}
  {p n size minSize r : Nat} {v : Virt} {call : Call}

/-! ### Page 0 -/

theorem NullUnmapped.of_walk (h : NullUnmapped s) (hcr : s'.cr3 = s.cr3)
    (hw : ∀ a < 4096, walk s'.ram s.cr3 a = walk s.ram s.cr3 a) : NullUnmapped s' := by
  intro a ha
  rw [translate, hcr, hw a ha]
  exact h a ha

/-- Pages behind page 0 are mapped or not. -/
theorem NullUnmapped.kept (h : NullUnmapped s) (hd : s.cr3 ∈ dirs) (hp : 0 < p)
    (hw : WalksKept dirs s.cr3 p n s s') (hcr : s'.cr3 = s.cr3) : NullUnmapped s' :=
  h.of_walk hcr fun a ha => hw _ hd a (by omega)

/-- Reading a null pointer's link faults. -/
theorem NullUnmapped.next_run (h : NullUnmapped s) :
    (HeapBlock.next 0).run s = (.error (.pageFault 16), s) := by
  have h16 : add64 0 16 = 16 := by decide
  have hload : (load8 16).run s = (.error (.pageFault 16), s) := by
    rw [load8, Prog.run_bind_ok (Prog.run_get s)]
    simp only [h 16 (by decide)]
    rfl
  rw [HeapBlock.next, h16, loadN]
  exact Prog.run_bind_error hload

/-- The walk to the last block of an empty list. -/
theorem NullUnmapped.appendBlock_run (h : NullUnmapped s) (block : Nat) :
    (heapBlock.appendBlock 0 block).run s = (.error (.pageFault 16), s) := by
  have hlast : ∀ k, 0 < k → (heapBlock.lastBlockFrom k 0).run s = (.error (.pageFault 16), s) := by
    intro k hk
    cases k with
    | zero => cases hk
    | succ k =>
      rw [BlockType.lastBlockFrom]
      exact Prog.run_bind_error h.next_run
  rw [BlockType.appendBlock]
  exact Prog.run_bind_error (hlast fuel (Nat.two_pow_pos 64))

/-! ### The constructor and expand_heap -/

/-- A region of `virt`, in pages. -/
theorem region_paged {region e : Nat} (h : Virt.Inv v (⟨region, e⟩ :: others))
    (he : e % 4096 = 0) : ∃ p n, region = 4096 * p ∧ e = 4096 * n ∧ p + n ≤ 2 ^ 26 := by
  have hal := h.live_aligned _ List.mem_cons_self
  have htop := h.live_bounded List.mem_cons_self
  simp only [show Virt.vaddrSize = 2 ^ 38 from rfl] at hal htop
  exact ⟨region / 4096, e / 4096, by omega, by omega, by omega⟩

/-- The constructor that could not map its pages leaves a bare heap. -/
theorem Bare.new {start : Nat} (H : Space W dirs [] s) (hnull : NullUnmapped s) (h0 : start ≠ 0)
    (hv : s.gKernelVirtualManager = some v) (hvi : Virt.Inv v (⟨start, alignUp size⟩ :: others))
    (hrun : (Heap.new start size).run s = (.ok self, s')) (hC : s' ∈ Promise W)
    (hfirst : self.firstBlock = 0) : Bare W dirs self s' := by
  have hup : alignUp (alignUp size) = alignUp size :=
    alignUp_of_aligned (by have := hvi.live_bounded List.mem_cons_self
                           simp only [show Virt.vaddrSize = 2 ^ 38 from rfl] at this
                           omega) (alignUp_mod size)
  obtain ⟨p, n, rfl, hn, htop⟩ := region_paged hvi (alignUp_mod size)
  rw [Heap.new] at hrun
  simp only [hn] at hrun
  obtain ⟨mapped, s1, hrun1, hrun2⟩ := Prog.run_bind_eq_ok.mp hrun
  have hC1 := (Promise W).lower (Prog.le_of_run hrun2) hC
  obtain ⟨hsp, hk, hw, -⟩ :=
    (mapPages_safe H (fun _ _ => List.not_mem_nil) (by omega)).ok hrun1 hC1
  cases mapped with
  | false =>
    simp only [Bool.not_false, if_true] at hrun2
    cases hrun2
    exact ⟨hsp, rfl, rfl, ⟨p, n, rfl, rfl, htop⟩, ⟨v, _, hk.virt.trans hv, hvi⟩,
      hnull.kept H.tables.cr3 (by omega) hw hk.cr3⟩
  | true =>
    simp only [Bool.not_true, Bool.false_eq_true, if_false] at hrun2
    obtain ⟨_, s2, -, hrun3⟩ := Prog.run_bind_eq_ok.mp hrun2
    cases hrun3
    exact absurd hfirst h0

/-- An expansion without a region or without frames leaves the heap bare. -/
theorem Bare.expandHeap_safe (H : Bare W dirs self s) (hno : ¬CanGrow s minSize) :
    Prog.Safe (Promise W) Trap.IsDirectMap (expandHeap self minSize) s fun r s' =>
      r = (false, self) ∧ Bare W dirs self s' := by
  obtain ⟨v, others, hv, hvi⟩ := H.virt
  obtain ⟨e, he⟩ : ∃ e, e = alignUp minSize := ⟨_, rfl⟩
  have hmod : e % 4096 = 0 := he ▸ alignUp_mod minSize
  have hlt : e < 2 ^ 64 := he ▸ alignUp_lt minSize
  have hee : alignUp e = e := alignUp_of_aligned (by omega) hmod
  have hno : (v.alloc e).1 ≠ 0 → ¬e / 4096 ≤ s.freeFrames.length := fun h1 h2 =>
    hno ⟨v, hv, he ▸ h1, he ▸ h2⟩
  rw [expandHeap]
  simp only [← he]
  refine Prog.Safe.bind_run (virtAlloc_run hv e) ?_
  by_cases hreg : (v.alloc e).1 = 0
  · -- no region, or the one at address 0
    rw [if_pos hreg]
    refine Prog.Safe.pure ⟨rfl, H.space.setVirt _, H.first, H.regions, H.paged, ?_, H.null⟩
    by_cases hfit : v.HasFit e ∧ e ≠ 0
    · exact ⟨_, _, rfl, hvi.alloc (by omega) (by omega) hfit.1⟩
    · refine ⟨_, others, rfl, ?_⟩
      by_cases h0 : e = 0
      · rwa [h0, virt_alloc_zero hvi]
      · rwa [Virt.alloc_of_not_hasFit fun h => hfit ⟨h, h0⟩]
  have hfew := hno hreg
  rw [if_neg hreg]
  have hfit : v.HasFit e := by
    by_contra h
    exact hreg (by rw [Virt.alloc_of_not_hasFit h])
  have hvi' := hvi.alloc (by omega) (by omega) hfit
  rw [hee] at hvi'
  generalize (v.alloc e).1 = region at hreg hvi' ⊢
  generalize (v.alloc e).2 = v' at hvi' ⊢
  obtain ⟨p, n, rfl, rfl, htop⟩ := region_paged hvi' hmod
  obtain ⟨s1, hs1⟩ : ∃ s1, s1 = { s with gKernelVirtualManager := some v' } := ⟨_, rfl⟩
  rw [← hs1]
  have hsp1 : Space W dirs [] s1 := hs1 ▸ H.space.setVirt _
  have hnull1 : NullUnmapped s1 := by
    rw [hs1]
    exact H.null
  have hfree1 : s1.freeFrames = s.freeFrames := by
    rw [hs1]
    rfl
  refine Prog.Safe.bind (mapPages_safe hsp1 (fun _ _ => List.not_mem_nil) (by omega)) ?_
  rintro r s2 - ⟨hsp2, hk, hw, hr, -⟩
  obtain rfl : r = false := by
    rw [hr, hfree1]
    exact decide_eq_false (by omega)
  simp only [Bool.not_false, if_true]
  have hnull2 := hnull1.kept hsp1.tables.cr3 (by omega) hw hk.cr3
  have hv2 : s2.gKernelVirtualManager = some v' := by rw [hk.virt, hs1]
  refine Prog.Safe.bind (virtFree_safe hsp2 hv2 (by rwa [hee])) ?_
  rintro _ s3 - ⟨hsp3, hcr3, hram3, -, v'', hv3, hvi3⟩
  exact Prog.Safe.pure ⟨rfl, hsp3, H.first, H.regions, H.paged, ⟨v'', _, hv3, hvi3⟩,
    hnull2.of_walk hcr3 fun a _ => by rw [hram3]⟩

/-- With a region, frames and room for the tables, the expansion faults on the empty list. -/
theorem Bare.expandHeap_run (H : Bare W dirs self s) (hcan : CanGrow s minSize)
    (h0 : 0 < alignUp minSize) (hC : s ∈ Promise W)
    (hroom : s.placement + 4 * alignUp minSize ≤ kvirtualAddress + W) (hW : W ≤ directMapSize) :
    ∃ s', (expandHeap self minSize).run s = (.error (.pageFault 16), s') ∧ s' ∈ Promise W := by
  obtain ⟨v, others, hv, hvi⟩ := H.virt
  obtain ⟨u, hu, hreg, hframes⟩ := hcan
  cases hv.symm.trans hu
  have hmod := alignUp_mod minSize
  have hlt := alignUp_lt minSize
  rw [expandHeap]
  simp only
  generalize alignUp minSize = e at *
  have hee : alignUp e = e := alignUp_of_aligned (by omega) hmod
  have hfit : v.HasFit e := by
    by_contra h
    exact hreg (by rw [Virt.alloc_of_not_hasFit h])
  have hvi' := hvi.alloc (by omega) (by omega) hfit
  rw [hee] at hvi'
  rw [Prog.run_bind_ok (virtAlloc_run hv e), if_neg hreg]
  generalize (v.alloc e).1 = region at hreg hvi' ⊢
  generalize (v.alloc e).2 = v' at hvi' ⊢
  obtain ⟨p, n, rfl, rfl, htop⟩ := region_paged hvi' hmod
  obtain ⟨s1, hs1⟩ : ∃ s1, s1 = { s with gKernelVirtualManager := some v' } := ⟨_, rfl⟩
  rw [← hs1]
  have hsp1 : Space W dirs [] s1 := hs1 ▸ H.space.setVirt _
  have hnull1 : NullUnmapped s1 := by
    rw [hs1]
    exact H.null
  have hfree1 : n ≤ s1.freeFrames.length := by
    rw [frameSize, Nat.mul_div_cancel_left n (by decide)] at hframes
    rw [hs1]
    exact hframes
  have hpl1 : s1.placement = s.placement := by rw [hs1]
  have hnot : ∀ pg ∈ pagesOf s1.cr3 p n, pg ∉ ([] : List Page) := fun _ _ => List.not_mem_nil
  obtain ⟨s2, hrun2, hC2, -⟩ := mapPages_ok hsp1 hnot (by omega) (by rw [hs1]; exact hC)
    (by omega) hW
  obtain ⟨hsp2, hk, hw, -⟩ := (mapPages_safe hsp1 hnot (by omega)).ok hrun2 hC2
  rw [decide_eq_true hfree1] at hrun2 hsp2
  simp only [if_true, List.append_nil] at hsp2
  have hcov : Covers (pagesOf s1.cr3 p n) s2.cr3 (4096 * p) 40 := by
    rw [hk.cr3]
    exact (covers_pagesOf (List.Subset.refl _)).mono (Nat.le_refl _) (by omega)
  obtain ⟨s3, m, hrun3, w, -, -⟩ := heapBlock_lawful.new_run true (Wrote.refl hsp2) hcov
    (v := sub64 (4096 * n) HeapBlock.sizeofHeapBlock) (by
      rw [HeapBlock.sizeofHeapBlock, sub64_eq] <;> omega)
  have hnull3 : NullUnmapped s3 :=
    (hnull1.kept hsp1.tables.cr3 (by omega) hw hk.cr3).of_walk w.cr3 fun a _ =>
      w.walks _ hsp2.tables.cr3 a
  refine ⟨s3, ?_, by rw [w.eq]; exact hC2⟩
  rw [Prog.run_bind_ok hrun2]
  simp only [Bool.not_true, Bool.false_eq_true, if_false]
  rw [Prog.run_bind_ok (by exact hrun3), H.first]
  exact Prog.run_bind_error (hnull3.appendBlock_run _)

/-! ### Calls -/

theorem Bare.findFreeBlock_run (H : Bare W dirs self s) (k : Nat) :
    (findFreeBlock self k).run s = (.ok 0, s) := by
  have hfind : ∀ m, 0 < m → (heapBlock.findFreeBlockFrom k m 0).run s = (.ok 0, s) := by
    intro m hm
    cases m with
    | zero => cases hm
    | succ m => rw [BlockType.findFreeBlockFrom, if_pos rfl, Prog.run_pure]
  rw [findFreeBlock, H.first, BlockType.findFreeBlock]
  exact hfind fuel (Nat.two_pow_pos 64)

/-- `malloc` of some bytes is an expansion. -/
theorem Bare.malloc_run (H : Bare W dirs self s) (h0 : size ≠ 0) : (malloc self size).run s =
    (do
      let r ← expandHeap self (add64 (alignUp size) HeapBlock.sizeofHeapBlock)
      if !r.1 then
        return (0, r.2)
      let block ← findFreeBlock r.2 (alignUp size)
      if block = 0 then
        return (0, r.2)
      mallocFrom r.2 block (alignUp size) : Kernel (Nat × Heap)).run s := by
  rw [malloc, if_neg h0, Prog.run_bind_ok (H.findFreeBlock_run _)]
  rfl

theorem Bare.malloc_safe (H : Bare W dirs self s)
    (hno : size ≠ 0 → ¬CanGrow s (add64 (alignUp size) HeapBlock.sizeofHeapBlock)) :
    Prog.Safe (Promise W) Trap.IsDirectMap (malloc self size) s fun r s' =>
      r = (0, self) ∧ Bare W dirs self s' := by
  by_cases h0 : size = 0
  · rw [malloc, if_pos h0]
    exact Prog.Safe.pure ⟨rfl, H⟩
  refine Prog.Safe.of_run_eq (H.malloc_run h0) (Prog.Safe.bind (H.expandHeap_safe (hno h0)) ?_)
  rintro _ s1 - ⟨rfl, H1⟩
  exact Prog.Safe.pure ⟨rfl, H1⟩

/-- What a call with null pointers does: it refuses at once, or it is a `malloc`. -/
theorem null_call_cases (self : Heap) (s : Machine) (hp : Passed [] call) :
    (self.call call).run s = (.ok (0, self), s) ∧ ¬Expands s call ∨
    call.bytes < 2 ^ 64 ∧ ∃ f : Nat × Heap → Kernel (Nat × Heap), (∀ h, f (0, h) = pure (0, h)) ∧
      self.call call = malloc self call.bytes >>= f := by
  cases call with
  | malloc size => exact .inr ⟨hp, pure, fun _ => rfl, (bind_pure _).symm⟩
  | calloc num size =>
    by_cases hlt : num * size < 2 ^ 64
    · refine .inr ⟨hlt, _, fun h => ?_, calloc_eq hlt⟩
      simp only [if_true]
    · exact .inl ⟨calloc_run_wrap (Nat.le_of_not_lt hlt), fun h => hlt h.2.1⟩
  | realloc ptr newSize =>
    obtain ⟨hptr, hsize⟩ := hp
    obtain rfl : ptr = 0 := hptr.resolve_right List.not_mem_nil
    refine .inr ⟨hsize, pure, fun _ => rfl, ?_⟩
    rw [call, realloc, if_pos rfl, bind_pure]
    rfl
  | free ptr =>
    obtain rfl : ptr = 0 := hp.resolve_right List.not_mem_nil
    exact .inl ⟨rfl, fun h => h.1 rfl⟩

/-- A call that does not have the heap expanded returns null, and the heap stays bare. -/
theorem Bare.call_safe (H : Bare W dirs self s) (hp : Passed [] call) (hno : ¬Expands s call) :
    Prog.Safe (Promise W) Trap.IsDirectMap (self.call call) s fun r s' =>
      r = (0, self) ∧ Bare W dirs self s' := by
  rcases null_call_cases self s hp with ⟨hrun, -⟩ | ⟨hlt, f, hf, hcall⟩
  · exact Prog.Safe.of_run hrun fun _ => ⟨rfl, H⟩
  · rw [hcall]
    refine Prog.Safe.bind (H.malloc_safe fun h0 hcan => hno ⟨h0, hlt, hcan⟩) ?_
    rintro _ s1 - ⟨rfl, H1⟩
    rw [hf]
    exact Prog.Safe.pure ⟨rfl, H1⟩

/-- A call that has it expanded follows the null pointer. -/
theorem Bare.call_run (H : Bare W dirs self s) (hp : Passed [] call) (he : Expands s call)
    (hexp : Expandable call.bytes) (hC : s ∈ Promise W)
    (hroom : s.placement + 4 * alignUp (add64 (alignUp call.bytes) HeapBlock.sizeofHeapBlock) ≤
      kvirtualAddress + W) (hW : W ≤ directMapSize) :
    ∃ s', (self.call call).run s = (.error (.pageFault 16), s') ∧ s' ∈ Promise W := by
  rcases null_call_cases self s hp with ⟨-, hno⟩ | ⟨hlt, f, -, hcall⟩
  · exact absurd he hno
  obtain ⟨h0, -, hcan⟩ := he
  have hadd : add64 (alignUp call.bytes) HeapBlock.sizeofHeapBlock = alignUp call.bytes + 40 := by
    unfold Expandable HeapBlock.sizeofHeapBlock at hexp
    rw [HeapBlock.sizeofHeapBlock]
    exact add64_eq (by omega)
  have hpos : 0 < alignUp (add64 (alignUp call.bytes) HeapBlock.sizeofHeapBlock) := by
    rw [hadd]
    exact lt_of_lt_of_le (by omega) (le_alignUp hexp)
  obtain ⟨s', hrun, hC'⟩ := H.expandHeap_run hcan hpos hC hroom hW
  refine ⟨s', ?_, hC'⟩
  rw [hcall]
  refine Prog.run_bind_error ?_
  rw [H.malloc_run h0]
  exact Prog.run_bind_error hrun

/-! ### Runs -/

/-- The calls that do not have the heap expanded. -/
abbrev Stuck (s : Machine) (call : Call) : Prop := ¬Expands s call

/-- When every call does, the heap stays bare. -/
theorem BareRun.bare (h : BareRun Stuck W self s) : ∃ dirs, Bare W dirs self s := by
  induction h with
  | create H hnull h0 hvirt hrun hC hfirst =>
    obtain ⟨v, others, hv, hvi⟩ := hvirt
    exact ⟨_, .new H hnull h0 hv hvi hrun hC hfirst⟩
  | call _ hp hstuck hrun hC ih =>
    obtain ⟨dirs, H⟩ := ih
    obtain ⟨h, H'⟩ := (H.call_safe hp hstuck).ok hrun hC
    cases h
    exact ⟨dirs, H'⟩
  | meanwhile _ hsp hnull hvirt ih =>
    obtain ⟨dirs, H⟩ := ih
    exact ⟨_, hsp, H.first, H.regions, H.paged, hvirt, hnull⟩

/-- **A heap without its first pages.** In every run of calls with null pointers none of which has
the heap expanded, a call is sound, unless it has the heap expanded. One that does is not, when
there is room for the page tables. -/
theorem BareRun.calls_sound (h : BareRun Stuck W self s) (hp : Passed [] call) :
    (¬Expands s call → Sound W self s call) ∧
    (Expands s call → Expandable call.bytes → s ∈ Promise W →
      s.placement + 4 * alignUp (add64 (alignUp call.bytes) HeapBlock.sizeofHeapBlock) ≤
        kvirtualAddress + W → W ≤ directMapSize → ¬Sound W self s call) := by
  obtain ⟨dirs, H⟩ := h.bare
  refine ⟨fun hno => (H.call_safe hp hno).mono fun r s' _ hr => .inl ?_,
    fun he hexp hC hroom hW hsound => ?_⟩
  · rw [hr.1]
  · obtain ⟨s', hrun, hC'⟩ := H.call_run hp he hexp hC hroom hW
    unfold Sound Prog.Safe at hsound
    rw [hrun] at hsound
    exact hsound hC'

/-! ### Frames that come back -/

theorem nullUnmapped_managedMachine (n : Nat) (v : Option Virt) :
    NullUnmapped { managedMachine n with gKernelVirtualManager := v } := by
  have hboot : Booted (bootMachine (mb 5)) :=
    booted_bootMachine (by decide : mb 2 + 515 * 4096 ≤ mb 5) (by decide)
  have hdir : entryFrame (mb 2) = mb 2 := by decide
  have hentry : tableEntry (bootMachine (mb 5)).ram (mb 2) 0 = 0 := hboot.entry 0 (by decide)
  have hnone : childTable (bootMachine (mb 5)).ram (mb 2) 0 = none := by
    rw [childTable, hentry]
    rfl
  intro a ha
  have hidx : pml4Index a = 0 := by
    rw [pml4Index_eq]
    omega
  have hwalk : walk (bootMachine (mb 5)).ram (mb 2) a = none := by
    rw [walk, hdir, hidx, hnone]
    rfl
  exact congrArg (Option.map _) hwalk

/-- Three frames are too few for a heap of four pages. Later there are ten. -/
theorem exists_bareRun : ∃ self s, (∀ ok, BareRun ok (mb 16) self s) ∧ s ∈ Promise (mb 16) ∧
    Expands s (.malloc 8) ∧ s.placement = kvirtualAddress + mb 5 := by
  have hvi : Virt.Inv firstRegions ([⟨4096, alignUp 16384⟩] ++ [⟨0, alignUp 4096⟩]) := by
    have h0 : Virt.Inv ⟨[⟨0, Virt.vaddrSize⟩]⟩ [] := Virt.Inv.new (s := bootMachine (mb 5)) rfl
    have h1 := @Virt.Inv.alloc _ _ 4096 h0 (by decide) (by decide)
        ⟨_, List.mem_cons_self, by decide, by decide⟩
    exact @Virt.Inv.alloc _ _ 16384 h1 (by decide) (by decide)
        ⟨_, List.mem_cons_self, by decide, by decide⟩
  obtain ⟨m, hm⟩ : ∃ m : Nat → Machine, m = fun n =>
      { managedMachine n with gKernelVirtualManager := some firstRegions } := ⟨_, rfl⟩
  have hspace : ∀ n ≤ 2 ^ 20, Space (mb 16) [mb 2] [] (m n) := fun n hn => by
    rw [hm]
    exact (space_managedMachine hn).setVirt _
  have hvirt : ∀ n, (m n).gKernelVirtualManager = some firstRegions := fun n => by rw [hm]
  have hnull : ∀ n, NullUnmapped (m n) := fun n => by
    rw [hm]
    exact nullUnmapped_managedMachine n _
  have hC : ∀ n, m n ∈ Promise (mb 16) := fun n => by
    rw [hm]
    exact promise_managedMachine n
  have hframes : ∀ n, (m n).freeFrames.length = n := fun n => by
    have h1 : (m n).freeFrames = (managedMachine n).freeFrames := by rw [hm]; rfl
    rw [h1, freeFrames_managedMachine, List.length_map, List.length_range]
  have hpl : ∀ n, (m n).placement = kvirtualAddress + mb 5 := fun n => by rw [hm]; rfl
  obtain ⟨s1, hrun1, hC1, -⟩ := mapPages_ok (p := 1) (n := 4) (hspace 3 (by decide))
    (fun _ _ => List.not_mem_nil) (by decide) (hC 3) (by rw [hpl]; decide) (by decide)
  rw [hframes] at hrun1
  obtain ⟨self, hrun, hfirst⟩ : ∃ self, (Heap.new 4096 16384).run (m 3) = (.ok self, s1) ∧
      self.firstBlock = 0 := by
    have hal : alignUp 16384 = 4096 * 4 := by decide
    rw [Heap.new]
    simp only [hal]
    rw [Prog.run_bind_ok hrun1]
    exact ⟨_, rfl, rfl⟩
  refine ⟨self, m 10, fun ok => ?_, hC 10, ⟨by decide, by decide, ?_⟩, hpl 10⟩
  · have hcreate : BareRun ok (mb 16) self s1 := .create (hspace 3 (by decide)) (hnull 3)
      (by decide) ⟨_, _, hvirt 3, hvi⟩ hrun hC1 hfirst
    exact hcreate.meanwhile (hspace 10 (by decide)) (hnull 10) ⟨_, _, hvirt 10, hvi⟩
  · exact ⟨firstRegions, hvirt 10, by decide, by rw [hframes]; decide⟩

/-- With the ten frames, a request for nothing is sound, and one for 8 bytes is not. -/
theorem BareRun.calls_sound_malloc : ∃ self s, s ∈ Promise (mb 16) ∧
    Sound (mb 16) self s (.malloc 0) ∧ ¬Sound (mb 16) self s (.malloc 8) := by
  obtain ⟨self, s, R, hC, he, hpl⟩ := exists_bareRun
  have h0 : Passed [] (.malloc 0) := show 0 < 2 ^ 64 by decide
  have h8 : Passed [] (.malloc 8) := show 8 < 2 ^ 64 by decide
  refine ⟨self, s, hC, (BareRun.calls_sound (R _) h0).1 fun h => h.1 rfl, ?_⟩
  exact (BareRun.calls_sound (R _) h8).2 he (by unfold Expandable; decide) hC (by rw [hpl]; decide)
    (by decide)

/-- Once the frames are there, `malloc(8)` follows the null pointer. -/
theorem not_sound : ¬∀ {W : Nat} {self : Heap} {s : Machine} {call : Call},
    BareRun (fun _ _ => True) W self s → Passed [] call → Sound W self s call := by
  intro hall
  obtain ⟨self, s, R, hC, he, hpl⟩ := exists_bareRun
  obtain ⟨dirs, H⟩ := (R _).bare
  have h8 : Passed [] (.malloc 8) := show 8 < 2 ^ 64 by decide
  obtain ⟨s', hrun, hC'⟩ := H.call_run h8 he (by unfold Expandable; decide) hC
    (by rw [hpl]; decide) (by decide)
  have h := hall (R _) h8
  unfold Sound Prog.Safe at h
  rw [hrun] at h
  exact h hC'

end
end Heap
end Coronel
