import Coronel.Verify.Heap
import Coronel.Verify.Directories

/-!
# Runs of the kernel heap

The states of a heap under any sequence of `malloc`, `calloc`, `realloc` and `free`, with clients
that write their allocations and managers that serve others in between.
-/

namespace Coronel

open Theory Theory.Bytes

namespace Heap

/-! ### Calls -/

/-- The call on the heap `self`: the pointer it returns, 0 for none, and the heap after it. -/
def call (self : Heap) : Call → Kernel (Nat × Heap)
  | .malloc size => malloc self size
  | .calloc num size => calloc self num size
  | .realloc ptr newSize => realloc self ptr newSize
  | .free ptr => do return (0, ← free self ptr)

/-- Pointers are null or live, and sizes round without wrapping. -/
def Allowed (live : List Nat) : Call → Prop
  | .malloc size => Roundable size
  | .calloc num size => num * size < 2 ^ 64 → Roundable (num * size)
  | .realloc ptr newSize => (ptr = 0 ∨ ptr ∈ live) ∧ Roundable newSize
  | .free ptr => ptr = 0 ∨ ptr ∈ live

/-- Pointers are null or live, and `expand_heap` is not asked for zero pages. -/
def Ordinary (live : List Nat) : Call → Prop
  | .malloc size => Expandable size
  | .calloc num size => num * size < 2 ^ 64 → Roundable (num * size)
  | .realloc ptr newSize => (ptr = 0 ∨ ptr ∈ live) ∧ Expandable newSize
  | .free ptr => ptr = 0 ∨ ptr ∈ live

theorem Allowed.ordinary {live : List Nat} {call : Call} (h : Allowed live call) :
    Ordinary live call := by
  cases call with
  | malloc size => exact h.2
  | calloc num size => exact h
  | realloc ptr newSize => exact ⟨h.1, h.2.2⟩
  | free ptr => exact h

/-- The payload behind a pointer, as long as the header in front of it says. -/
def payloadAt (s : Machine) (p : Nat) : Span := ⟨p, load (vmem s.ram s.cr3) 8 (p - 40)⟩

/-- What happens between two calls: clients write their payloads, and the managers serve others. The
heap's pages and regions stay its own. -/
structure Meanwhile (W : Nat) (dirs : List Nat) (heap : Heap) (live : List Nat) (s s' : Machine) :
    Prop where
  space : Space W dirs (heap.pages s.cr3) s'
  cr3 : s'.cr3 = s.cr3
  virt : ∃ v others, s'.gKernelVirtualManager = some v ∧ Virt.Inv v (heap.regions ++ others)
  writes : ∀ a, ⟨s.cr3, a / 4096⟩ ∈ heap.pages s.cr3 → (∀ p ∈ live, a ∉ payloadAt s p) →
    vmem s'.ram s'.cr3 a = vmem s.ram s.cr3 a

/-- The states a heap reaches from its construction when every call meets `ok`, with its live
allocations. `W` separates placement memory from the frames of the physical manager. -/
inductive RunWhere (ok : Heap → Machine → Call → Prop) (W : Nat) :
    List Nat → Heap → Machine → List Nat → Prop
  | create {dirs s s' start size self} : Space W dirs [] s → start ≠ 0 →
    (∃ v others, s.gKernelVirtualManager = some v ∧
      Virt.Inv v (⟨start, alignUp size⟩ :: others)) →
    (Heap.new start size).run s = (.ok self, s') → s' ∈ Promise W → self.firstBlock ≠ 0 →
    RunWhere ok W dirs self s' []
  | call {dirs self s live call r self' s'} : RunWhere ok W dirs self s live → Allowed live call →
    ok self s call → (self.call call).run s = (.ok (r, self'), s') → s' ∈ Promise W →
    RunWhere ok W dirs self' s' (Call.live live r call)
  | meanwhile {dirs dirs' self s live s'} : RunWhere ok W dirs self s live →
    Meanwhile W dirs' self live s s' → RunWhere ok W dirs' self s' live

/-- The states a heap reaches. -/
abbrev Run := RunWhere fun _ _ _ => True

/-- The blocks `bs` are the list of the heap, and their extents are what was mapped for it. -/
structure WellFormed (heap : Heap) (bs : List Block) (s : Machine) : Prop where
  first : heap.firstBlock = headAddr bs 0
  chain : Chain (HeapBlock.node (vmem s.ram s.cr3)) 0 bs 0
  aligned : ∀ e ∈ extents HeapBlock.sizeofHeapBlock bs, e.start % 8 = 0 ∧ e.size % 8 = 0
  apart : (extents HeapBlock.sizeofHeapBlock bs).Pairwise Span.Disjoint
  cover : ∀ a, (∃ e ∈ extents HeapBlock.sizeofHeapBlock bs, a ∈ e) ↔ ∃ r ∈ heap.regions, a ∈ r

/-! ### The invariant of a run -/

section
variable {W : Nat} {dirs dirs' : List Nat} {s s' : Machine} {self self' : Heap}
  {bs bs' : List Block} {others others' : List Span} {live : List Nat} {owned : List Page} {d a p r : Nat}
  {e : Block}

theorem vmem_owned (H : Space W dirs owned s) (h : ⟨d, a / 4096⟩ ∈ owned) :
    vmem s.ram d a = view owned s.ram d a := by
  rw [vmem, H.translate_owned h, view_of_mem h]

namespace Inv

variable (H : Inv W dirs self bs others s)
include H

/-- An address is the header of one block. -/
theorem eq_of_addr {b : Block} (hb : b ∈ bs) (he : e ∈ bs) (h : b.addr = e.addr) : b = e := by
  by_contra hne
  have := H.apart hb he hne
  omega

/-- The bytes of a block, through CR3. -/
theorem vmem_eq (he : e ∈ bs) (h1 : e.addr ≤ a) (h2 : a < e.addr + (40 + e.size)) :
    vmem s.ram s.cr3 a = self.bytes s a := by
  have := H.listed.covers e he (a - e.addr) (by change _ < 40 + e.size; omega)
  rw [Nat.add_sub_cancel' h1] at this
  exact vmem_owned H.space this

theorem payloadAt_eq (he : e ∈ bs) : payloadAt s (e.addr + 40) = e.payload 40 := by
  obtain ⟨nx, pv, hn⟩ := H.listed.blocks.chain.header he
  have hsize := (HeapBlock.node_eq_some.mp hn).size
  have : load (vmem s.ram s.cr3) 8 (e.addr + 40 - 40) = e.size := by
    rw [Nat.add_sub_cancel]
    exact (load_congr fun i hi => H.vmem_eq he (by omega) (by omega)).trans hsize
  rw [payloadAt, this, Block.payload]

theorem wellFormed : WellFormed self bs s := by
  have hcov : ∀ a, Theory.cover self.regions a ≤ 1 := fun a => by
    obtain ⟨v, -, hv⟩ := H.virt
    have h1 := hv.cover a
    have h2 := Span.ind_le_one ⟨0, Virt.vaddrSize⟩ a
    rw [cover_append] at h1
    omega
  refine ⟨H.first, H.listed.blocks.chain.congr fun e he => HeapBlock.node_congr fun i hi =>
    H.vmem_eq he (by omega) (by omega), fun x hx => ?_,
    pairwise_disjoint_of_cover_le_one fun a => ?_, fun a => ?_⟩
  · obtain ⟨e, he, rfl⟩ := List.mem_map.mp hx
    have := H.aligned e he
    simp only [Block.extent, HeapBlock.sizeofHeapBlock]
    omega
  · exact (H.cover a).trans_le (hcov a)
  · have h1 : 0 < Theory.cover (extents 40 bs) a ↔ _ := cover_pos_iff
    have h2 : 0 < Theory.cover self.regions a ↔ _ := cover_pos_iff
    rw [H.cover a] at h1
    exact h1.symm.trans h2

/-- A state shows one list. -/
theorem eq_of_wellFormed (h : WellFormed self bs' s) : bs = bs' := by
  have hne : ∀ b ∈ bs', b.addr ≠ 0 := by
    intro b hb h0
    -- the blocks of both lists cover the same addresses
    have hmem : (0 : Nat) ∈ b.extent 40 := by
      rw [Block.mem_extent]
      omega
    obtain ⟨x, hx, hx0⟩ := (H.wellFormed.cover 0).mpr ((h.cover 0).mp
      ⟨_, List.mem_map_of_mem hb, hmem⟩)
    obtain ⟨e, he, rfl⟩ := List.mem_map.mp hx
    rw [HeapBlock.sizeofHeapBlock, Block.mem_extent] at hx0
    exact H.listed.nonnull e he (by omega)
  exact H.wellFormed.chain.unique h.chain H.listed.nonnull hne (H.first.symm.trans h.first)

end Inv

/-- The payloads of blocks that stay, through CR3. -/
theorem Moves.vmem_eq {es : List Block} (hm : Moves self self' es s s')
    (H : Inv W dirs self bs others s) (H' : Inv W dirs' self' bs' others' s') (he : e ∈ es)
    (hb : e ∈ bs) (hb' : e ∈ bs') (ha : a ∈ payloadAt s (e.addr + 40)) :
    vmem s'.ram s'.cr3 a = vmem s.ram s.cr3 a := by
  rw [H.payloadAt_eq hb] at ha
  obtain ⟨h1, h2⟩ := Block.mem_payload.mp ha
  rw [H.vmem_eq hb (by omega) (by omega), H'.vmem_eq hb' (by omega) (by omega)]
  exact hm.data e he a ha

/-! ### Steps -/

/-- What a call leaves: the list it serves, the counters, and the data of the other live
allocations. -/
def After (W : Nat) (dirs : List Nat) (self : Heap) (bs : List Block) (call : Call) (s : Machine)
    (r : Nat × Heap) (s' : Machine) : Prop :=
  ∃ bs' others, Inv W dirs r.2 bs' others s' ∧ Serves 40 alignUp bs call bs' r.1 ∧
    (call.FitsExactly 40 alignUp bs → Tallied self r.2 bs bs') ∧
    ∀ e ∈ used bs, e.addr + 40 ≠ call.ptr → ∀ a ∈ payloadAt s (e.addr + 40),
      vmem s'.ram s'.cr3 a = vmem s.ram s.cr3 a

/-- Data of blocks that are neither passed nor moved. -/
theorem After.intro {call : Call} {es : List Block} (H : Inv W dirs self bs others s)
    (H' : Inv W dirs self' bs' others' s') (hs : Serves 40 alignUp bs call bs' r)
    (hm : Moves self self' es s s') (ht : call.FitsExactly 40 alignUp bs → Tallied self self' bs bs')
    (hes : ∀ e ∈ used bs, e.addr + 40 ≠ call.ptr → e ∈ es) :
    After W dirs self bs call s (r, self') s' :=
  ⟨bs', others', H', hs, ht, fun e he hne _ ha => hm.vmem_eq H H' (hes e he hne) (mem_used.mp he).1
    (mem_used.mp (hs.mem_used he hne)).1 ha⟩

/-- Every ordinary call keeps the invariant. -/
theorem Inv.call_safe {call : Call} (H : Inv W dirs self bs others s)
    (hl : live.Perm (pointers 40 bs)) (hcall : Ordinary live call) :
    Prog.Safe (Promise W) Trap.IsDirectMap (self.call call) s (After W dirs self bs call s) := by
  have herase : ∀ {b : Block} {ptr : Nat}, ptr = b.addr + 40 → ∀ e ∈ used bs,
      e.addr + 40 ≠ ptr → e ∈ (used bs).erase b := by
    rintro b _ rfl e he hne
    exact (List.mem_erase_of_ne fun h => hne (by rw [h])).mpr he
  cases call with
  | malloc size =>
    refine (malloc_safe H hcall).mono ?_
    rintro ⟨ptr, self'⟩ s' - ⟨bs', others', H', hs, hm, ht, -⟩
    exact .intro H H' (.malloc hs) hm (fun h => ht fun h0 => h _ ⟨h0, rfl⟩) fun e he _ => he
  | calloc num size =>
    refine (calloc_safe H hcall).mono ?_
    rintro ⟨ptr, self'⟩ s' - ⟨bs', others', H', hs, hm, ht⟩
    exact .intro H H' (.calloc hs) hm (fun h => ht fun h0 h1 => h _ ⟨h0, h1, rfl⟩) fun e he _ => he
  | realloc ptr newSize =>
    obtain ⟨hptr, hsize⟩ := hcall
    by_cases h0 : ptr = 0
    · -- `realloc` of nothing is `malloc`
      subst h0
      have hrun : Heap.realloc self 0 newSize = Heap.malloc self newSize := by
        rw [realloc, if_pos rfl]
      rw [call, hrun]
      refine (malloc_safe H hsize).mono ?_
      rintro ⟨ptr, self'⟩ s' - ⟨bs', others', H', hs, hm, ht, -⟩
      exact .intro H H' (.reallocNull hs) hm
        (fun h => ht fun h0 => h _ ⟨h0, rfl, fun b _ hb => by omega⟩) fun e he _ => he
    · obtain ⟨e, he, rfl⟩ := used_of_pointer (hl.subset (hptr.resolve_left h0))
      refine (realloc_safe H he hsize).mono ?_
      rintro ⟨ptr, self'⟩ s' - ⟨bs', others', H', hs, hm, ht⟩
      refine .intro H H' (.realloc he hs) hm.rest (fun h => ht fun h0 hlt => h _ ⟨h0, rfl, ?_⟩)
        (herase rfl)
      intro b hb heq
      rwa [← H.eq_of_addr (mem_used.mp he).1 (mem_used.mp hb).1 (by omega)]
  | free ptr =>
    by_cases h0 : ptr = 0
    · subst h0
      exact Prog.Safe.pure (.intro H H .freeNull (Moves.refl self (used bs) s)
        (fun _ => .refl self bs) fun e he _ => he)
    · obtain ⟨e, he, rfl⟩ := used_of_pointer (hl.subset (hcall.resolve_left h0))
      obtain ⟨hmem, hfree⟩ := mem_used.mp he
      obtain ⟨xs, ys, rfl⟩ := List.append_of_mem hmem
      obtain ⟨self', s', hrun, H', hm, ht, -⟩ := free_run H hfree
      exact Prog.Safe.bind_run hrun
        (Prog.Safe.pure (.intro H H' (.free rfl hfree) hm (fun _ => ht) (herase rfl)))

/-- What happens between calls leaves the headers and the free memory of the heap. -/
theorem Meanwhile.bytes_eq (h : Meanwhile W dirs' self live s s') (H : Inv W dirs self bs others s)
    (hl : live.Perm (pointers 40 bs)) (he : e ∈ bs) (h1 : e.addr ≤ a)
    (h2 : a < e.addr + (40 + e.size)) (hno : e.free = true ∨ a < e.addr + 40) :
    self.bytes s' a = self.bytes s a := by
  have hm := H.listed.covers e he (a - e.addr) (by change _ < 40 + e.size; omega)
  rw [Nat.add_sub_cancel' h1] at hm
  have hcr : s'.cr3 = s.cr3 := h.cr3
  have h3 : vmem s'.ram s'.cr3 a = self.bytes s' a := by
    rw [bytes, hcr]
    exact vmem_owned h.space hm
  rw [← h3, ← H.vmem_eq he h1 h2]
  refine h.writes _ hm fun p hp => ?_
  -- neither a header nor a free block lies in a payload
  obtain ⟨f, hf, rfl⟩ := used_of_pointer (hl.subset hp)
  rw [H.payloadAt_eq (mem_used.mp hf).1, Block.mem_payload]
  by_cases hfe : f = e
  · have hused := (mem_used.mp hf).2
    rw [hfe] at hused ⊢
    have hlt := hno.resolve_left (by rw [hused]; exact Bool.false_ne_true)
    omega
  · have := H.apart (mem_used.mp hf).1 he hfe
    omega

/-- What happens between calls keeps the invariant. -/
theorem Meanwhile.inv (h : Meanwhile W dirs' self live s s') (H : Inv W dirs self bs others s)
    (hl : live.Perm (pointers 40 bs)) : ∃ others', Inv W dirs' self bs others' s' := by
  obtain ⟨v, others', hv, hvi⟩ := h.virt
  exact ⟨others', H.kept h.space h.cr3 (fun e he i hi =>
    h.bytes_eq H hl he (by omega) (by omega) (.inr (by omega))) ⟨v, hv, hvi⟩⟩

/-- A property of the heap and its list that holds at the construction, and that the calls which
meet `ok` keep, holds in every state of a run. -/
theorem RunWhere.inv_of {ok : Heap → Machine → Call → Prop} {P : Heap → List Block → Prop}
    (hnew : ∀ {self size}, 4096 ≤ alignUp size → self.totalAllocated = 0 →
      self.totalFree = alignUp size - 40 → self.regions.length = 1 →
      ∀ {addr}, P self [⟨addr, alignUp size - 40, true⟩])
    (hcall : ∀ {dirs self bs others s live call r self' bs' others' s'},
      Inv W dirs self bs others s → live.Perm (pointers 40 bs) → Allowed live call →
      ok self s call → P self bs → Inv W dirs self' bs' others' s' →
      Serves 40 alignUp bs call bs' r →
      (call.FitsExactly 40 alignUp bs → Tallied self self' bs bs') → P self' bs')
    (h : RunWhere ok W dirs self s live) :
    ∃ bs others, Inv W dirs self bs others s ∧ live.Perm (pointers 40 bs) ∧ P self bs := by
  induction h with
  | create H h0 hvirt hrun hC hfirst =>
    obtain ⟨v, others, hv, hvi⟩ := hvirt
    obtain ⟨-, h⟩ := (new_safe H h0 ⟨v, hv, hvi⟩).ok hrun hC
    obtain ⟨hinv, halloc, hfree, hreg⟩ := h hfirst
    have hal := hvi.live_aligned _ List.mem_cons_self
    simp only at hal
    exact ⟨_, others, hinv, .nil, hnew (by omega) halloc hfree hreg⟩
  | call _ hallowed hok hrun hC ih =>
    obtain ⟨bs, others, H, hl, hP⟩ := ih
    obtain ⟨bs', others', H', hserves, ht, -⟩ := (H.call_safe hl hallowed.ordinary).ok hrun hC
    exact ⟨bs', others', H', hserves.live_perm (by decide) hl,
      hcall H hl hallowed hok hP H' hserves ht⟩
  | meanwhile _ hm ih =>
    obtain ⟨bs, others, H, hl, hP⟩ := ih
    obtain ⟨others', H'⟩ := hm.inv H hl
    exact ⟨bs, others', H', hl, hP⟩

theorem RunWhere.inv {ok : Heap → Machine → Call → Prop} (h : RunWhere ok W dirs self s live) :
    ∃ bs others, Inv W dirs self bs others s ∧ live.Perm (pointers 40 bs) := by
  obtain ⟨bs, others, H, hl, -⟩ := h.inv_of (P := fun _ _ => True)
    (fun _ _ _ _ _ => trivial) fun _ _ _ _ _ _ _ _ => trivial
  exact ⟨bs, others, H, hl⟩

/-- **Heap safety.** In every state a heap reaches, its list is well formed and covers what was
mapped for it, the payloads of the live allocations are disjoint and mapped, and no call changes
a byte of a live allocation that it is not given. -/
theorem Run.safe (h : Run W dirs self s live) :
    (∃ bs, WellFormed self bs s) ∧ (live.map (payloadAt s)).Pairwise Span.Disjoint ∧
    (∀ p ∈ live, ∀ a ∈ payloadAt s p, translate s.ram s.cr3 a ≠ none) ∧
    ∀ call r self' s', Allowed live call → (self.call call).run s = (.ok (r, self'), s') →
      s' ∈ Promise W → ∀ p ∈ live, p ≠ call.ptr → ∀ a ∈ payloadAt s p,
        vmem s'.ram s'.cr3 a = vmem s.ram s.cr3 a := by
  obtain ⟨bs, others, H, hl⟩ := h.inv
  refine ⟨⟨bs, H.wellFormed⟩, ?_, fun p hp a ha => ?_, fun call r self' s' hcall hrun hC => ?_⟩
  · have h1 : ((pointers 40 bs).map (payloadAt s)).Pairwise Span.Disjoint := by
      have h2 : ((used bs).map (Block.payload 40)).Pairwise Span.Disjoint := by
        refine List.pairwise_map.mpr ((H.listed.blocks.apart.sublist List.filter_sublist).imp ?_)
        intro b c hbc a ha
        simp only [Block.mem_payload] at ha
        simp only [HeapBlock.layout_hd] at hbc
        omega
      rw [pointers, List.map_map]
      have h3 : ∀ e ∈ used bs, (payloadAt s ∘ fun b => b.addr + 40) e = e.payload 40 :=
        fun e he => H.payloadAt_eq (mem_used.mp he).1
      rwa [List.map_congr_left h3]
    exact ((hl.map (payloadAt s)).pairwise_iff fun h => Span.Disjoint.symm h).mpr h1
  · obtain ⟨e, he, rfl⟩ := used_of_pointer (hl.subset hp)
    rw [H.payloadAt_eq (mem_used.mp he).1] at ha
    obtain ⟨h1, h2⟩ := Block.mem_payload.mp ha
    have hm := H.listed.covers e (mem_used.mp he).1 (a - e.addr) (by
      change _ < 40 + e.size; omega)
    rw [Nat.add_sub_cancel' (by omega)] at hm
    rw [H.space.translate_owned hm]
    simp
  · obtain ⟨bs', others', H', -, -, hdata⟩ := (H.call_safe hl hcall.ordinary).ok hrun hC
    intro p hp hne
    obtain ⟨e, he, rfl⟩ := used_of_pointer (hl.subset hp)
    exact hdata e he hne

/-! ### A heap of four pages -/

/-- First fit serves `malloc` without growing the heap. -/
theorem Inv.malloc_run {size : Nat} {b : Block} {xs ys : List Block}
    (H : Inv W dirs self bs others s) (h0 : size ≠ 0)
    (hfit : FreeList.firstFit (alignUp size) bs = some (xs, b, ys)) : ∃ self' s',
      (self.call (.malloc size)).run s = (.ok (b.addr + 40, self'), s') ∧
      Inv W dirs self' (xs ++ FreeList.take 40 16 (alignUp size) b ++ ys) others s' ∧
      s' = { s with ram := s'.ram } ∧ SameLists self self' ∧
      (b.size = alignUp size ∨ alignUp size + 56 ≤ b.size →
        Tallied self self' bs (xs ++ FreeList.take 40 16 (alignUp size) b ++ ys)) := by
  have h8 : alignUp size % 8 = 0 := by have := alignUp_mod size; omega
  obtain ⟨hne, self', s', hrun, H', -, heq, hmore⟩ := H.mallocFound_run hfit h8
  refine ⟨self', s', ?_, H', heq, hmore⟩
  rw [call, Heap.malloc, if_neg h0, Prog.run_bind_ok (H.findFreeBlock_run _), hfit]
  simp only [Option.map_some, Option.getD_some, ne_eq, hne, not_false_eq_true, if_true]
  exact hrun

/-- The regions of `virt` once page 0 and the four pages of the heap have been handed out. -/
def firstRegions : Virt := ⟨[⟨20480, Virt.vaddrSize - 20480⟩]⟩

/-- A new heap of four pages at address 4096, with `k` frames left. -/
theorem exists_run_frames {k : Nat} (hk : k ≤ 2 ^ 10) : ∃ self s,
    (∀ ok, RunWhere ok (mb 16) [mb 2] self s []) ∧
    Inv (mb 16) [mb 2] self [⟨4096, 16344, true⟩] [⟨0, 4096⟩] s ∧ s ∈ Promise (mb 16) ∧
    (self.totalAllocated = 0 ∧ self.totalFree = alignUp 16384 - 40 ∧ self.regions.length = 1) ∧
    s.freeFrames.length = k ∧ s.gKernelVirtualManager = some firstRegions ∧
    s.placement ≤ kvirtualAddress + mb 6 := by
  have hvi : Virt.Inv firstRegions ([⟨4096, alignUp 16384⟩] ++ [⟨0, alignUp 4096⟩]) := by
    have h0 : Virt.Inv ⟨[⟨0, Virt.vaddrSize⟩]⟩ [] := Virt.Inv.new (s := bootMachine (mb 5)) rfl
    have h1 := @Virt.Inv.alloc _ _ 4096 h0 (by decide) (by decide)
        ⟨_, List.mem_cons_self, by decide, by decide⟩
    exact @Virt.Inv.alloc _ _ 16384 h1 (by decide) (by decide)
        ⟨_, List.mem_cons_self, by decide, by decide⟩
  obtain ⟨s, hs⟩ : ∃ s, s =
      { managedMachine (4 + k) with gKernelVirtualManager := some firstRegions } := ⟨_, rfl⟩
  have hspace : Space (mb 16) [mb 2] [] s := by
    rw [hs]
    exact (space_managedMachine (by omega)).setVirt _
  have hvirt : s.gKernelVirtualManager = some firstRegions := by rw [hs]
  have hC : s ∈ Promise (mb 16) := by
    rw [hs]
    exact promise_managedMachine (4 + k)
  have hfree : s.freeFrames.length = 4 + k := by
    have h1 : s.freeFrames = (managedMachine (4 + k)).freeFrames := by rw [hs]; rfl
    rw [h1, freeFrames_managedMachine, List.length_map, List.length_range]
  have hpl : s.placement = kvirtualAddress + mb 5 := by rw [hs]; rfl
  obtain ⟨self, s1, hrun1, hC1, hfirst, hpl1, hfree1, hvirt1⟩ := new_ok (p := 1) (n := 4) hspace
    (by decide) (by decide) (by decide) hC (by rw [hpl]; decide) (by decide) (by omega)
  obtain ⟨-, H⟩ := (new_safe hspace (by decide) ⟨_, hvirt, hvi⟩).ok hrun1 hC1
  obtain ⟨H, hcount⟩ := H hfirst
  refine ⟨self, s1, fun ok => .create hspace (by decide) ⟨_, _, hvirt, hvi⟩ hrun1 hC1 hfirst, H,
    hC1, hcount, ?_, hvirt1.trans hvirt, hpl1.trans (by rw [hpl]; decide)⟩
  rw [hfree1, List.length_drop, hfree, Nat.add_sub_cancel_left]

/-- A new heap of four pages at address 4096. -/
theorem exists_run : ∃ self s, (∀ ok, RunWhere ok (mb 16) [mb 2] self s []) ∧
    Inv (mb 16) [mb 2] self [⟨4096, 16344, true⟩] [⟨0, 4096⟩] s ∧ s ∈ Promise (mb 16) ∧
    self.totalAllocated = 0 ∧ self.totalFree = alignUp 16384 - 40 ∧ self.regions.length = 1 := by
  obtain ⟨self, s, R, H, hC, hcount, -⟩ := exists_run_frames (Nat.zero_le _)
  exact ⟨self, s, R, H, hC, hcount⟩

/-- One allocation is made from it. -/
theorem Run.safe_malloc : ∃ self s p, Run (mb 16) [mb 2] self s [p] ∧ p ≠ 0 ∧
    (∃ bs, WellFormed self bs s) ∧ ∀ a ∈ payloadAt s p, translate s.ram s.cr3 a ≠ none := by
  obtain ⟨self, s, R, H, hC, -⟩ := exists_run
  have hfit : FreeList.firstFit (alignUp 8) [⟨4096, 16344, true⟩] =
      some ([], ⟨4096, 16344, true⟩, []) := by decide
  obtain ⟨self', s', hrun, -, heq, -⟩ := H.malloc_run (by decide) hfit
  have hallowed : Allowed [] (.malloc 8) := ⟨by decide, by decide⟩
  have R' : Run (mb 16) [mb 2] self' s' [4096 + 40] :=
    (R _).call hallowed trivial hrun (by rw [heq]; exact hC)
  obtain ⟨h1, -, h3, -⟩ := Run.safe R'
  exact ⟨self', s', _, R', by decide, h1, h3 _ List.mem_cons_self⟩

end
end Heap
end Coronel
