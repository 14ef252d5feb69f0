import Coronel.Verify.HeapRequests
import Coronel.Verify.Regions

/-!
# Expansions that fail

`expand_heap` takes a region from `virt`, then a frame for each page. When the frames run out it
unmaps the pages and gives the region back; `unmap` keeps the frame, so those that were taken are
lost. A region at address 0 is taken for none, and stays taken.
-/

namespace Coronel

open Theory Theory.Bytes

namespace Heap

/-- What `malloc(size)` asks `expand_heap` for, in pages. -/
def expandSize (size : Nat) : Nat := alignUp (add64 (alignUp size) HeapBlock.sizeofHeapBlock)

/-- `malloc(size)` finds no block, and `expand_heap` fails. -/
structure GrowthFails (heap : Heap) (s : Machine) (size : Nat) (heap' : Heap) (s' : Machine) :
    Prop where
  nonzero : size ≠ 0
  noFit : (findFreeBlock heap (alignUp size)).run s = (.ok 0, s)
  expand : (expandHeap heap (add64 (alignUp size) HeapBlock.sizeofHeapBlock)).run s =
    (.ok (false, heap'), s')

/-- The list and the counters, the free addresses of `virt`, the translations of the region and the
free frames are as before. -/
structure NoTrace (heap : Heap) (s : Machine) (region : Span) (heap' : Heap) (s' : Machine) :
    Prop where
  same : heap' = heap
  list : ∀ bs, WellFormed heap bs s → WellFormed heap' bs s'
  virt : ∀ v, s.gKernelVirtualManager = some v → ∃ v', s'.gKernelVirtualManager = some v' ∧
    ∀ a, v'.IsFree a ↔ v.IsFree a
  translations : ∀ a ∈ region, translate s'.ram s'.cr3 a = translate s.ram s.cr3 a
  frames : s'.freeFrames.Perm s.freeFrames

/-- Nothing has been taken when the expansion by `size` bytes fails: no region fits, or the region
is not at address 0 and there is no frame for its first page. -/
def FailsFirst (s : Machine) (v : Virt) (size : Nat) : Prop :=
  v.HasFit size → size ≠ 0 → (v.alloc size).1 ≠ 0 ∧ s.freeFrames = []

section
variable {W : Nat} {dirs : List Nat} {s s' : Machine} {self self' : Heap} {v v' : Virt}
  {bs : List Block} {others spans : List Span} {live : List Nat} {region : Span} {size a : Nat}

theorem GrowthFails.malloc_run (h : GrowthFails self s size self' s') :
    (malloc self size).run s = (.ok (0, self'), s') := by
  rw [malloc, if_neg h.nonzero]
  simp only
  rw [Prog.run_bind_ok h.noFit, if_neg (by simp), Prog.run_bind_ok h.expand]
  rfl

theorem NoTrace.refl (self : Heap) (s : Machine) (region : Span) : NoTrace self s region self s :=
  ⟨rfl, fun _ h => h, fun v hv => ⟨v, hv, fun _ => Iff.rfl⟩, fun _ _ => rfl, .refl _⟩

/-- The live regions determine the free addresses. -/
theorem isFree_iff_of_inv (h : Virt.Inv v spans) (h' : Virt.Inv v' spans) :
    v'.IsFree a ↔ v.IsFree a := by
  rw [Virt.isFree_iff_cover, Virt.isFree_iff_cover]
  have h1 := h.cover a
  have h2 := h'.cover a
  omega

/-- A region that is handed out is no longer free. -/
theorem not_isFree_alloc (h : Virt.Inv v spans) (h0 : size ≠ 0) (hmod : size % 4096 = 0)
    (hlt : size < 2 ^ 64) (hfit : v.HasFit size) :
    v.IsFree (v.alloc size).1 ∧ ¬(v.alloc size).2.IsFree (v.alloc size).1 := by
  have hal : alignUp size = size := alignUp_of_aligned (by omega) hmod
  have h1 := (h.alloc (by omega) (by omega) hfit).cover (v.alloc size).1
  have h2 := h.cover (v.alloc size).1
  rw [hal, cover_cons, Span.ind_eq_one_iff.mpr (by simp only [Span.mem_mk]; omega)] at h1
  have h3 := Span.ind_le_one ⟨0, Virt.vaddrSize⟩ (v.alloc size).1
  rw [Virt.isFree_iff_cover, Virt.isFree_iff_cover]
  omega

/-- When the first page finds no frame, the region goes back and nothing else has happened. -/
theorem Inv.noTrace_of_nil {p n : Nat} (H : Inv W dirs self bs others s)
    (hv : s.gKernelVirtualManager = some v) (hvi : Virt.Inv v (self.regions ++ others))
    (hn : 0 < n) (htop : p + n ≤ 2 ^ 27)
    (hvi' : Virt.Inv v' (⟨4096 * p, 4096 * n⟩ :: (self.regions ++ others)))
    (hfree : s.freeFrames = []) {s1 s2 s3 : Machine}
    (hs1 : s1 = { s with gKernelVirtualManager := some v' }) {r : Bool}
    (hrun : (mapPages (4096 * p) (4096 * n)).run s1 = (.ok r, s2))
    (hrun' : (virtFree (4096 * p) (4096 * n)).run s2 = (.ok (), s3)) (hC : s3 ∈ Promise W) :
    NoTrace self s region self s3 := by
  have hal : alignUp (4096 * n) = 4096 * n := alignUp_of_aligned (by omega) (by omega)
  have hspace : Space W dirs (self.pages s1.cr3) s1 := by
    rw [hs1]
    exact H.space.setVirt _
  have hfree1 : s1.freeFrames = [] := by
    rw [hs1]
    exact hfree
  cases hrun.symm.trans (mapPages_run_nil hspace hfree1 hn htop)
  obtain ⟨-, hcr, hram, hfree3, v'', hv'', hvi''⟩ :=
    (virtFree_safe hspace (by rw [hs1]) (by rwa [hal])).ok hrun' hC
  rw [hs1] at hcr hram
  refine ⟨rfl, fun bs h => ⟨h.first, ?_, h.aligned, h.apart, h.cover⟩, fun u hu => ?_,
    fun a _ => by rw [hram, hcr], by rw [hfree3, hfree1, hfree]⟩
  · rw [hram, hcr]
    exact h.chain
  · cases hv.symm.trans hu
    exact ⟨v'', hv'', fun a => isFree_iff_of_inv hvi hvi''⟩

/-- When a later page finds no frame, none of those taken before comes back. -/
theorem Inv.freeFrames_lost {p n : Nat} (H : Inv W dirs self bs others s) (htop : p + n ≤ 2 ^ 27)
    (hvi' : Virt.Inv v' (⟨4096 * p, 4096 * n⟩ :: (self.regions ++ others)))
    {s1 s2 s3 : Machine} (hs1 : s1 = { s with gKernelVirtualManager := some v' })
    (hrun : (mapPages (4096 * p) (4096 * n)).run s1 = (.ok false, s2))
    (hrun' : (virtFree (4096 * p) (4096 * n)).run s2 = (.ok (), s3)) (hC : s3 ∈ Promise W) :
    s3.freeFrames = [] := by
  have hal : alignUp (4096 * n) = 4096 * n := alignUp_of_aligned (by omega) (by omega)
  have hspace : Space W dirs (self.pages s1.cr3) s1 := by
    rw [hs1]
    exact H.space.setVirt _
  obtain ⟨hsp, hk, -, hr, hfree⟩ := (mapPages_safe hspace (region_pages hvi') htop).ok hrun
    ((Promise W).lower (Prog.le_of_run hrun') hC)
  have hlt : ¬n ≤ s1.freeFrames.length := of_decide_eq_false hr.symm
  have hvirt : s2.gKernelVirtualManager = some v' := by rw [hk.virt, hs1]
  obtain ⟨-, -, -, hfree3, -⟩ := (virtFree_safe hsp hvirt (by rwa [hal])).ok hrun' hC
  rw [hfree3, hfree, List.drop_eq_nil_of_le (by omega)]

/-- **A failed expansion leaves no trace** exactly when it has taken nothing. -/
theorem Inv.noTrace_iff_failsFirst (H : Inv W dirs self bs others s) (hv : s.gKernelVirtualManager = some v)
    {minSize : Nat} (hrun : (expandHeap self minSize).run s = (.ok (false, self'), s'))
    (hC : s' ∈ Promise W) :
    NoTrace self s ⟨(v.alloc (alignUp minSize)).1, alignUp minSize⟩ self' s' ↔
      FailsFirst s v (alignUp minSize) := by
  obtain ⟨u, hu, hvi⟩ := H.virt
  cases hv.symm.trans hu
  have hmod := alignUp_mod minSize
  have hlt := alignUp_lt minSize
  rw [expandHeap] at hrun
  simp only at hrun
  generalize alignUp minSize = e at hrun hmod hlt ⊢
  have hee : alignUp e = e := alignUp_of_aligned (by omega) hmod
  have hset : { s with gKernelVirtualManager := some v } = s := by rw [← hv]
  rw [Prog.run_bind_ok (virtAlloc_run hv e)] at hrun
  by_cases hfit : v.HasFit e
  swap
  · -- no region fits
    rw [Virt.alloc_of_not_hasFit hfit, if_pos rfl, hset] at hrun
    cases hrun
    exact ⟨fun _ h => absurd h hfit, fun _ => .refl ..⟩
  by_cases hreg : (v.alloc e).1 = 0
  · -- the region at address 0 is taken for none
    rw [if_pos hreg] at hrun
    cases hrun
    by_cases h0 : e = 0
    · subst h0
      rw [virt_alloc_zero hvi, hset]
      exact ⟨fun _ _ h => absurd rfl h, fun _ => .refl ..⟩
    · refine ⟨fun h => ?_, fun h => absurd hreg (h hfit h0).1⟩
      obtain ⟨v', hv', hiff⟩ := h.virt v hv
      cases hv'
      obtain ⟨h1, h2⟩ := not_isFree_alloc hvi h0 hmod hlt hfit
      exact absurd ((hiff _).mpr h1) h2
  rw [if_neg hreg] at hrun
  obtain ⟨r, s2, hrun2, hrun3⟩ := Prog.run_bind_eq_ok.mp hrun
  cases r with
  | true =>
    -- a region that is mapped is not given back
    simp only [Bool.not_true, Bool.false_eq_true, if_false] at hrun3
    obtain ⟨_, s3, -, hrun3⟩ := Prog.run_bind_eq_ok.mp hrun3
    obtain ⟨_, s4, -, hrun3⟩ := Prog.run_bind_eq_ok.mp hrun3
    obtain ⟨_, s5, -, hrun3⟩ := Prog.run_bind_eq_ok.mp hrun3
    cases hrun3
  | false =>
    simp only [Bool.not_false, if_true] at hrun3
    obtain ⟨_, s3, hrun4, hrun5⟩ := Prog.run_bind_eq_ok.mp hrun3
    cases hrun5
    have h0 : e ≠ 0 := by
      rintro rfl
      cases hrun2
    have hvi' := hvi.alloc (by omega) (by omega) hfit
    rw [hee] at hvi'
    have hfirst : FailsFirst s v e ↔ s.freeFrames = [] :=
      ⟨fun h => (h hfit h0).2, fun h _ _ => ⟨hreg, h⟩⟩
    rw [hfirst]
    generalize (v.alloc e).1 = start at hrun2 hrun4 hreg hvi' ⊢
    generalize (v.alloc e).2 = v' at hrun2 hrun4 hvi'
    have hal := hvi'.live_aligned _ List.mem_cons_self
    have htop := hvi'.live_bounded List.mem_cons_self
    simp only [show Virt.vaddrSize = 2 ^ 38 from rfl] at hal htop
    obtain ⟨p, rfl⟩ : ∃ p, start = 4096 * p := ⟨start / 4096, by omega⟩
    obtain ⟨n, rfl⟩ : ∃ n, e = 4096 * n := ⟨e / 4096, by omega⟩
    refine ⟨fun h => ?_, fun h => H.noTrace_of_nil hv hvi (by omega) (by omega) hvi' h rfl hrun2
      hrun4 hC⟩
    have := h.frames
    rw [H.freeFrames_lost (by omega) hvi' rfl hrun2 hrun4 hC] at this
    exact List.nil_perm.mp this

/-- **A `malloc` that fails with its expansion leaves no trace** exactly when the expansion has
taken nothing, in every state that harmless calls reach. -/
theorem Reached.noTrace_iff (h : Reached W dirs self s live)
    (hv : s.gKernelVirtualManager = some v) (hfail : GrowthFails self s size self' s')
    (hC : s' ∈ Promise W) : (malloc self size).run s = (.ok (0, self'), s') ∧
      (NoTrace self s ⟨(v.alloc (expandSize size)).1, expandSize size⟩ self' s' ↔
        FailsFirst s v (expandSize size)) := by
  obtain ⟨bs, others, H, -⟩ := h.inv
  exact ⟨hfail.malloc_run, H.noTrace_iff_failsFirst hv hfail.expand hC⟩

/-! ### A heap with too few frames -/

theorem virtFree_run {addr : Nat} {nodes : List VirtNode} (hv : s.gKernelVirtualManager = some v)
    (h : Virt.merge addr (alignUp size) [] v.freeMemList = some nodes) :
    (virtFree addr size).run s = (.ok (), { s with gKernelVirtualManager := some ⟨nodes⟩ }) := by
  have hfree : (v.free addr size).run s = (.ok ⟨nodes⟩, s) := by
    rw [Virt.free, h]
    rfl
  rw [virtFree, Prog.run_bind_ok (virtManager_run hv), Prog.run_bind_ok hfree]
  rfl

/-- Four more pages than a new heap has, with `k` frames left for the five that they take. -/
theorem exists_growthFails {k : Nat} (hk : k < 5) : ∃ self s self' s',
    Reached (mb 16) [mb 2] self s [] ∧ s.gKernelVirtualManager = some firstRegions ∧
    s.freeFrames.length = k ∧ GrowthFails self s 16384 self' s' ∧ s' ∈ Promise (mb 16) := by
  obtain ⟨self, s, R, H, hC, -, hfree, hv, hpl⟩ := exists_run_frames (k := k) (by omega)
  have hnone : FreeList.firstFit (alignUp 16384) [⟨4096, 16344, true⟩] = none := by decide
  have halloc : firstRegions.alloc (4096 * 5) =
      (4096 * 5, ⟨[⟨40960, Virt.vaddrSize - 40960⟩]⟩) := by decide
  obtain ⟨s1, hs1⟩ : ∃ s1, s1 = { s with
      gKernelVirtualManager := some ⟨[⟨40960, Virt.vaddrSize - 40960⟩]⟩ } := ⟨_, rfl⟩
  have hrun1 : (virtAlloc (4096 * 5)).run s = (.ok (4096 * 5), s1) := by
    rw [virtAlloc_run hv, halloc, hs1]
  obtain ⟨u, hu, hvi⟩ := H.virt
  cases hv.symm.trans hu
  have hvi' := @Virt.Inv.alloc _ _ (4096 * 5) hvi (by decide) (by decide)
      ⟨_, List.mem_cons_self, by decide, by decide⟩
  rw [halloc] at hvi'
  have hspace : Space (mb 16) [mb 2] (self.pages s1.cr3) s1 := by
    rw [hs1]
    exact H.space.setVirt _
  have hpl1 : s1.placement = s.placement := by rw [hs1]
  have hfree1 : s1.freeFrames.length = k := by rw [hs1]; exact hfree
  obtain ⟨s2, hrun2, hC2, -, -⟩ := mapPages_ok (p := 5) (n := 5) hspace (region_pages hvi')
    (by decide) (by rw [hs1]; exact hC)
    (by have : kvirtualAddress + mb 6 + 16384 * 5 ≤ kvirtualAddress + mb 16 := by decide
        omega) (by decide)
  rw [decide_eq_false (by omega)] at hrun2
  obtain ⟨-, hk2, -⟩ := (mapPages_safe hspace (region_pages hvi') (by decide)).ok hrun2 hC2
  have hv2 : s2.gKernelVirtualManager = some ⟨[⟨40960, Virt.vaddrSize - 40960⟩]⟩ := by
    rw [hk2.virt, hs1]
  obtain ⟨s3, hs3⟩ : ∃ s3, s3 = { s2 with gKernelVirtualManager := some firstRegions } := ⟨_, rfl⟩
  have hrun3 : (virtFree (4096 * 5) (4096 * 5)).run s2 = (.ok (), s3) := by
    rw [@virtFree_run _ _ _ _ [⟨20480, Virt.vaddrSize - 20480⟩] hv2 (by decide), hs3]
    rfl
  refine ⟨self, s, self, s3, .run (R _), hv, hfree, ⟨by decide, ?_, ?_⟩, by rw [hs3]; exact hC2⟩
  · rw [H.findFreeBlock_run, hnone]
    rfl
  · have hal : alignUp (add64 (alignUp 16384) HeapBlock.sizeofHeapBlock) = 4096 * 5 := by decide
    rw [expandHeap]
    simp only [hal]
    rw [Prog.run_bind_ok hrun1, if_neg (by decide), Prog.run_bind_ok hrun2]
    simp only [Bool.not_false, if_true]
    rw [Prog.run_bind_ok hrun3]
    rfl

/-- With no frame left, the heap fails first. -/
theorem Reached.noTrace_iff_nil : ∃ self s self' s',
    (malloc self 16384).run s = (.ok (0, self'), s') ∧
    NoTrace self s ⟨20480, 20480⟩ self' s' := by
  obtain ⟨self, s, self', s', R, hv, hfree, hfail, hC⟩ := exists_growthFails (k := 0) (by decide)
  obtain ⟨h1, h2⟩ := Reached.noTrace_iff R hv hfail hC
  have h3 : firstRegions.alloc (expandSize 16384) =
      (20480, ⟨[⟨40960, Virt.vaddrSize - 40960⟩]⟩) := by decide
  have h4 : expandSize 16384 = 20480 := by decide
  rw [h3, h4] at h2
  refine ⟨self, s, self', s', h1, h2.mpr fun _ _ => ⟨?_, List.length_eq_zero_iff.mp hfree⟩⟩
  decide

/-- With one frame left, that frame is lost. -/
theorem not_noTrace_one : ¬∀ {W dirs self s live v size self' s'}, Reached W dirs self s live →
    s.gKernelVirtualManager = some v → GrowthFails self s size self' s' → s' ∈ Promise W →
    NoTrace self s ⟨(v.alloc (expandSize size)).1, expandSize size⟩ self' s' := by
  intro hall
  obtain ⟨self, s, self', s', R, hv, hfree, hfail, hC⟩ := exists_growthFails (k := 1) (by decide)
  obtain ⟨bs, others, H, -⟩ := R.inv
  have h1 := (H.noTrace_iff_failsFirst hv hfail.expand hC).mp (hall R hv hfail hC)
  have h2 : firstRegions.HasFit (expandSize 16384) :=
    ⟨_, List.mem_cons_self, by decide, by decide⟩
  obtain ⟨-, h3⟩ := h1 h2 (by decide)
  rw [h3] at hfree
  cases hfree

end
end Heap
end Coronel
