import Coronel.Theory.Bump
import Coronel.Verify.MemoryMap
import Coronel.Verify.Heap

/-!
# The heap at boot

`initialize_memory` asks a new `virt` for the addresses of the heap. The region of a new `virt`
starts at address 0, so its first `alloc` returns 0, and `init_kernel_heap` takes 0 for a failure.
-/

namespace Coronel

open Theory

/-- The global heap is as it was. -/
def SameHeap (s s' : Machine) : Prop := s'.gKernelHeap = s.gKernelHeap

theorem SameHeap.trans {s s1 s2 : Machine} (h : SameHeap s s1) (h' : SameHeap s1 s2) :
    SameHeap s s2 := Eq.trans h' h

theorem SameHeap.bind {α β : Type} {x : Kernel α} {f : α → Kernel β} (hx : Prog.Keeps SameHeap x)
    (hf : ∀ a, Prog.Keeps SameHeap (f a)) : Prog.Keeps SameHeap (x >>= f) :=
  Prog.Keeps.bind SameHeap.trans hx hf

/-- Nothing has changed. -/
def Still (s s' : Machine) : Prop := s' = s

theorem Still.bind {α β : Type} {x : Kernel α} {f : α → Kernel β} (hx : Prog.Keeps Still x)
    (hf : ∀ a, Prog.Keeps Still (f a)) : Prog.Keeps Still (x >>= f) :=
  Prog.Keeps.bind (fun h h' => Eq.trans h' h) hx hf

namespace MemoryManager

/-- The kernel's calls for memory. -/
inductive KernelCall
  | kmalloc (size : Nat)
  | kcalloc (num size : Nat)
  | krealloc (ptr newSize : Nat)
  | kmallocAligned (alignment size : Nat)
  | kfree (ptr : Nat)
deriving DecidableEq, Repr

namespace KernelCall

/-- The call; `kfree` returns nothing. -/
def run : KernelCall → Kernel Nat
  | .kmalloc size => Coronel.kmalloc size
  | .kcalloc num size => Coronel.kcalloc num size
  | .krealloc ptr newSize => Coronel.krealloc ptr newSize
  | .kmallocAligned alignment size => Coronel.kmallocAligned alignment size
  | .kfree ptr => do
    Coronel.kfree ptr
    return 0

/-- The watermark does not wrap. -/
def Fits (s : Machine) : KernelCall → Prop
  | .kmalloc size => s.placement + 4096 + size < 2 ^ 64
  | _ => True

/-- The block a `kmalloc` has returned. -/
def block : KernelCall × Nat → Option Span
  | (.kmalloc size, r) => some ⟨r, size⟩
  | _ => none

end KernelCall

/-- The states that calls reach from `s₀`, with the calls and their results, newest first. -/
inductive KernelRun (s₀ : Machine) : Machine → List (KernelCall × Nat) → Prop
  | start : KernelRun s₀ s₀ []
  | call {s s' history call r} : KernelRun s₀ s history → call.Fits s →
    call.run.run s = (.ok r, s') → KernelRun s₀ s' ((call, r) :: history)

/-- There is no heap: the blocks of `kmalloc` are pages of placement memory one behind the other,
and the other calls fail. -/
structure NoHeap (s₀ s : Machine) (history : List (KernelCall × Nat)) : Prop where
  heap : s.gKernelHeap = none
  ram : s.ram = s₀.ram
  failed : ∀ e ∈ history, KernelCall.block e = none → e.2 = 0
  aligned : ∀ b ∈ history.filterMap KernelCall.block, b.start % 4096 = 0
  laid : Laid 4096 s₀.placement (history.filterMap KernelCall.block) s.placement

section
variable {bootinfo : MultibootInfo} {s s' : Machine}

/-! ### Reading the boot information -/

theorem new_returns : Prog.Returns Virt.new fun self => self = ⟨[⟨0, gb 256⟩]⟩ :=
  (Prog.Returns.any _).bind fun _ _ => (Prog.Returns.any _).bind fun _ _ =>
    (Prog.Returns.any _).bind fun _ _ => (Prog.Returns.any _).bind fun _ _ => .pure rfl

/-- `placement_kalloc` never fails. -/
theorem placementKalloc_run (size : Nat) (align : Bool) : (placementKalloc size align).run s =
    (.ok (if align then alignUp s.placement else s.placement), { s with
      placement := add64 (if align then alignUp s.placement else s.placement) size
      reserved := ⟨if align then alignUp s.placement else s.placement, size⟩ :: s.reserved }) := rfl

/-- `kmalloc` without a heap. -/
theorem kmalloc_run {size : Nat} (hnone : s.gKernelHeap = none) : (kmalloc size).run s =
    (.ok (alignUp s.placement), { s with
      placement := add64 (alignUp s.placement) size
      reserved := ⟨alignUp s.placement, size⟩ :: s.reserved }) := by
  rw [kmalloc, Prog.run_bind_ok (Prog.run_get s)]
  split
  · rw [placementKalloc_run, if_pos rfl]
  · next hsome => cases hnone.symm.trans hsome

/-- The gap in front of an aligned block. -/
theorem laid_alignUp {lo hi size : Nat} {rs : List Span} (h : Laid 4096 lo rs hi)
    (hhi : hi + 4095 < 2 ^ 64) :
    Laid 4096 lo (⟨alignUp hi, size⟩ :: rs) (alignUp hi + size) :=
  h.up size (le_alignUp hhi) fun k hk => by
    rw [alignUp_eq hhi]
    omega

section
variable {s₀ : Machine} {history : List (KernelCall × Nat)} {call : KernelCall} {size r : Nat}

/-- A call that fails for want of a heap. -/
theorem NoHeap.fail (H : NoHeap s₀ s history) (hb : KernelCall.block (call, 0) = none) :
    NoHeap s₀ s ((call, 0) :: history) := by
  refine ⟨H.heap, H.ram, List.forall_mem_cons.mpr ⟨fun _ => rfl, H.failed⟩, ?_, ?_⟩
  · rw [List.filterMap_cons_none hb]
    exact H.aligned
  · rw [List.filterMap_cons_none hb]
    exact H.laid

/-- A block of placement memory. -/
theorem NoHeap.place (H : NoHeap s₀ s history) (hs : s.placement + 4096 + size < 2 ^ 64) :
    NoHeap s₀ { s with
      placement := add64 (alignUp s.placement) size
      reserved := ⟨alignUp s.placement, size⟩ :: s.reserved }
      ((.kmalloc size, alignUp s.placement) :: history) := by
  have hup := @alignUp_lt_add s.placement (by omega)
  have hadd : add64 (alignUp s.placement) size = alignUp s.placement + size :=
    add64_eq (by omega)
  have hcons : KernelCall.block (.kmalloc size, alignUp s.placement) =
    some ⟨alignUp s.placement, size⟩ := rfl
  refine ⟨H.heap, H.ram, List.forall_mem_cons.mpr ⟨fun h => (by cases h), H.failed⟩, ?_, ?_⟩
  · rw [List.filterMap_cons_some hcons]
    exact List.forall_mem_cons.mpr ⟨alignUp_mod _, H.aligned⟩
  · rw [List.filterMap_cons_some hcons, hadd]
    exact laid_alignUp H.laid (by omega)

/-- One call. -/
theorem NoHeap.step (H : NoHeap s₀ s history) (hfits : call.Fits s)
    (h : call.run.run s = (.ok r, s')) : NoHeap s₀ s' ((call, r) :: history) := by
  have hnone := H.heap
  cases call with
  | kmalloc size =>
    rw [KernelCall.run, kmalloc_run hnone] at h
    cases h
    exact H.place hfits
  | kcalloc num size =>
    rw [KernelCall.run, kcalloc, Prog.run_bind_ok (Prog.run_get s)] at h
    simp only [hnone] at h
    cases h
    exact H.fail rfl
  | krealloc ptr newSize =>
    rw [KernelCall.run, krealloc, Prog.run_bind_ok (Prog.run_get s)] at h
    simp only [hnone] at h
    cases h
    exact H.fail rfl
  | kmallocAligned alignment size =>
    rw [KernelCall.run, kmallocAligned, Prog.run_bind_ok (Prog.run_get s)] at h
    simp only [hnone] at h
    cases h
    exact H.fail rfl
  | kfree ptr =>
    have hfree : (kfree ptr).run s = (.ok (), s) := by
      rw [kfree, Prog.run_bind_ok (Prog.run_get s)]
      simp only [hnone]
      rfl
    rw [KernelCall.run, Prog.run_bind_ok hfree] at h
    cases h
    exact H.fail rfl

theorem KernelRun.noHeap (hnone : s₀.gKernelHeap = none) (h : KernelRun s₀ s history) :
    NoHeap s₀ s history := by
  induction h with
  | start => exact ⟨hnone, rfl, by simp, by simp, .nil⟩
  | call _ hfits h ih => exact ih.step hfits h

end

/-- How many whole frames a region has. -/
def frameCount (start len : Nat) : Nat := ((start + len) / 4096 * 4096 - alignUp start) / 4096

/-- The nodes of the free list move the watermark. -/
theorem freeFrames_watermark {m : Physical} {n addr : Nat} (hm : s.gPhysicalManager = some m)
    (haddr : addr % 4096 = 0) (hend : addr + 4096 * n ≤ m.physicalEnd)
    (h : (Physical.freeFrames n addr).run s = (.ok (), s')) : s'.placement = s.placement + 16 * n := by
  induction n generalizing addr s m with
  | zero =>
    cases h
    rfl
  | succ n ih =>
    rw [Physical.freeFrames, Prog.run_bind_eq_ok] at h
    obtain ⟨_, s1, h1, h2⟩ := h
    rcases Physical.free_run hm haddr h1 with ⟨hlt, -⟩ | ⟨-, -, -, hpl, hm1⟩
    · omega
    · rw [ih hm1 (by simp only [frameSize]; omega) (by simp only [frameSize]; omega) h2, hpl]
      omega

/-- `setup` takes 16 bytes of placement memory for each of its frames. -/
theorem setup_watermark {start len : Nat} (hm : s.gPhysicalManager = some Physical.new)
    (hend : start + len + 4095 < 2 ^ 64) (h : (Physical.setup start len).run s = (.ok (), s')) :
    s'.placement = s.placement + 16 * frameCount start len := by
  rw [frameCount]
  rw [Physical.setup_eq] at h
  obtain ⟨n, s1, m1, hn, hm1, hend1, -, hpl, h⟩ := Physical.setup_loop hm h
  rw [add64_eq (by omega)] at hend1 hn
  rw [alignDown_eq (by omega)] at hn
  have hfirst := alignUp_mod start
  by_cases hle : alignUp start ≤ (start + len) / 4096 * 4096
  · rw [freeFrames_watermark hm1 hfirst (by omega) h, hpl, hn]
  · obtain rfl : n = 0 := by omega
    cases h
    rw [hpl, ← hn, Nat.mul_zero, Nat.add_zero]

end
end MemoryManager
end Coronel
