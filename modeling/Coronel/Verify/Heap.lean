import Coronel.Verify.Calls
import Coronel.Verify.Frames
import Coronel.Verify.HeapBlocks
import Coronel.Verify.Virtual

/-!
# The kernel heap keeps its list

`Heap.Inv`: the block list of a heap tiles the regions mapped for it, block by block, and `virt`
holds these regions as live. Every method keeps it, moves no data of a block in use, and hands out
or takes back exactly one block.
-/

namespace Coronel

open Theory Theory.Bytes

namespace Heap

/-- The pages of the heap's regions in the directory `d`. -/
def pages (self : Heap) (d : Nat) : List Page :=
  self.regions.flatMap fun r => pagesOf d (r.start / 4096) (r.size / 4096)

/-- What the current directory shows on the pages of the heap. -/
def bytes (self : Heap) (s : Machine) : Mem := view (self.pages s.cr3) s.ram s.cr3

/-- The blocks `bs` are the list of `heap`. They cover its regions, which `virt` holds as live
beside the regions `others` of other owners. -/
structure Inv (W : Nat) (dirs : List Nat) (heap : Heap) (bs : List Block) (others : List Span)
    (s : Machine) : Prop where
  space : Space W dirs (heap.pages s.cr3) s
  listed : Listed HeapBlock.layout (2 ^ 39) (heap.pages s.cr3) s.cr3 (heap.bytes s) bs
  first : heap.firstBlock = headAddr bs 0
  nonempty : bs ≠ []
  cover : ∀ a, cover (extents 40 bs) a = cover heap.regions a
  aligned : Aligned8 bs
  virt : ∃ v, s.gKernelVirtualManager = some v ∧ Virt.Inv v (heap.regions ++ others)

/-- The list and the regions are the same; the statistics may differ. -/
structure SameLists (heap heap' : Heap) : Prop where
  firstBlock : heap'.firstBlock = heap.firstBlock
  regions : heap'.regions = heap.regions

/-- The counters follow the list, but each header that appears adds 80 bytes too many to
`total_free_`, and each one that disappears takes 80 too many from it. The headers of new regions
count as they should. -/
structure Tallied (heap heap' : Heap) (bs bs' : List Block) : Prop where
  allocated : (heap'.totalAllocated + usedSize bs) % 2 ^ 64 =
    (heap.totalAllocated + usedSize bs') % 2 ^ 64
  free : (heap'.totalFree + freeSize bs + 80 * bs.length + 80 * heap'.regions.length) % 2 ^ 64 =
    (heap.totalFree + freeSize bs' + 80 * bs'.length + 80 * heap.regions.length) % 2 ^ 64
  small : heap.totalAllocated < 2 ^ 64 ∧ heap.totalFree < 2 ^ 64 →
    heap'.totalAllocated < 2 ^ 64 ∧ heap'.totalFree < 2 ^ 64

/-- Sizes for which rounding to pages, adding the header and rounding again does not wrap. -/
def Roundable (size : Nat) : Prop :=
  size + 4095 < 2 ^ 64 ∧ alignUp size + HeapBlock.sizeofHeapBlock + 4095 < 2 ^ 64

/-- Sizes for which `expand_heap` is not asked for zero pages: the rounded size, which may have
wrapped, takes a header and rounds again without wrapping. -/
def Expandable (size : Nat) : Prop := alignUp size + HeapBlock.sizeofHeapBlock + 4095 < 2 ^ 64

end Heap

section
variable {W : Nat} {dirs : List Nat} {owned owned' : List Page} {s s' : Machine} {m m' : Mem}
  {self self' : Heap} {bs bs' xs ys : List Block} {others : List Span} {d a k : Nat}

theorem Heap.SameLists.refl (self : Heap) : SameLists self self := ⟨rfl, rfl⟩

theorem Heap.Tallied.refl (self : Heap) (bs : List Block) : Tallied self self bs bs :=
  ⟨rfl, rfl, id⟩

theorem Heap.Tallied.trans {self'' : Heap} {bs'' : List Block} (h : Tallied self self' bs bs')
    (h' : Tallied self' self'' bs' bs'') : Tallied self self'' bs bs'' := by
  obtain ⟨h1, h2, h3⟩ := h
  obtain ⟨h4, h5, h6⟩ := h'
  exact ⟨by omega, by omega, fun h => h6 (h3 h)⟩

theorem Heap.SameLists.pages_eq (h : SameLists self self') : self'.pages d = self.pages d := by
  rw [pages, h.regions, pages]

/-- A list stays when memory outside its headers changes and more pages are owned. -/
theorem Listed.extend {L : Layout} {limit : Nat} (hl : Listed L limit owned d m bs)
    (hm : ∀ e ∈ bs, ∀ i < L.hd, m' (e.addr + i) = m (e.addr + i)) (hs : owned ⊆ owned') :
    Listed L limit owned' d m' bs :=
  ⟨hl.blocks.congr hm, fun e he => (hl.covers e he).subset hs, hl.nonnull, hl.top⟩

theorem view_eq_of_subset {ram : Mem} (h : ⟨d, a / 4096⟩ ∈ owned) (hs : owned ⊆ owned') :
    view owned' ram d a = view owned ram d a := by
  rw [view_of_mem (hs h), view_of_mem h]

/-! ### The region manager -/

theorem Space.setVirt (H : Space W dirs owned s) (v : Option Virt) :
    Space W dirs owned { s with gKernelVirtualManager := v } :=
  ⟨⟨H.tables.forest, H.tables.base, H.tables.cr3⟩, H.bound, H.manager, H.dir, H.low, H.mapped,
    H.nodup, H.frame⟩

/-- The global heap is no part of the address space. -/
theorem Space.setHeap (H : Space W dirs owned s) (g : Option Heap) :
    Space W dirs owned { s with gKernelHeap := g } :=
  ⟨⟨H.tables.forest, H.tables.base, H.tables.cr3⟩, H.bound, H.manager, H.dir, H.low, H.mapped,
    H.nodup, H.frame⟩

theorem virtManager_run {v : Virt} (h : s.gKernelVirtualManager = some v) :
    virtManager.run s = (.ok v, s) := by
  rw [virtManager, Prog.run_bind_ok (Prog.run_get s)]
  simp only [h]
  rfl

theorem virtAlloc_run {v : Virt} (h : s.gKernelVirtualManager = some v) (size : Nat) :
    (virtAlloc size).run s =
      (.ok (v.alloc size).1, { s with gKernelVirtualManager := some (v.alloc size).2 }) := by
  rw [virtAlloc, Prog.run_bind_ok (virtManager_run h)]
  rfl

/-- A small object is placed, and written through the window. -/
theorem placementObject_safe {β : Type} {f : Nat → Kernel β} {Q : β → Machine → Prop}
    (H : Space W dirs owned s) {size : Nat} (hs : size ≤ 4096)
    (h : ∀ place s', Space W dirs owned s' →
      s' = { s with placement := s'.placement, reserved := s'.reserved } →
      Prog.Safe (Promise W) Trap.IsDirectMap (f place) s' Q) :
    Prog.Safe (Promise W) Trap.IsDirectMap
      (do let place ← placementKalloc size; touch place size; f place) s Q := by
  have hb := H.tables.bound
  have hbase := H.tables.base
  have hgb := directMapSize_eq
  have hkv := kvirtualAddress_eq
  have hadd : add64 s.placement size = s.placement + size := add64_eq (by omega)
  obtain ⟨s1, hs1⟩ : ∃ s1, s1 = { s with
      placement := s.placement + size
      reserved := ⟨s.placement, size⟩ :: s.reserved } := ⟨_, rfl⟩
  have hrun : (placementKalloc size).run s = (.ok s.placement, s1) := by
    rw [hs1, ← hadd]
    rfl
  refine Prog.Safe.bind_run hrun ?_
  unfold touch
  by_cases hfit : s.placement + size ≤ kvirtualAddress + directMapSize
  · have hw : window s.placement size = some (s.placement - kvirtualAddress) := by
      rw [window, if_pos ⟨hbase, hfit⟩]
    rw [hw]
    refine Prog.Safe.bind (Q := fun _ s' => s' = s1 ∧ s1 ∈ Promise W)
      (Prog.Safe.of_run (Prog.run_pure () s1) fun hC => ⟨rfl, hC⟩) ?_
    rintro _ _ - ⟨rfl, hC⟩
    have hpl := hC ⟨s.placement, size⟩ (by rw [hs1]; exact List.mem_cons_self)
    simp only at hpl
    refine h _ _ ⟨⟨?_, ?_, ?_⟩, ?_, ?_, H.dir, H.low, ?_, ?_, ?_⟩ ?_ <;> rw [hs1]
    · exact H.tables.forest.mono (by simp only; omega) (by simp only; omega)
    · simp only; omega
    · exact H.tables.cr3
    · exact hpl
    · exact H.manager
    · exact H.mapped
    · exact H.nodup
    · exact H.frame
  · rw [window_eq_none (by omega)]
    exact Prog.Safe.bind (Q := fun _ _ => False) (Prog.Safe.throw trivial) fun _ _ _ h => h.elim

/-- A region is given back to `virt`. -/
theorem virtFree_safe {v : Virt} {addr size : Nat} {live : List Span} (H : Space W dirs owned s)
    (h : s.gKernelVirtualManager = some v) (hv : Virt.Inv v (⟨addr, alignUp size⟩ :: live)) :
    Prog.Safe (Promise W) Trap.IsDirectMap (virtFree addr size) s fun _ s' =>
      Space W dirs owned s' ∧ s'.cr3 = s.cr3 ∧ s'.ram = s.ram ∧ s'.freeFrames = s.freeFrames ∧
        ∃ v', s'.gKernelVirtualManager = some v' ∧ Virt.Inv v' live := by
  have hfree : Prog.Safe (Promise W) Trap.IsDirectMap (v.free addr size) s fun _ s' =>
      Space W dirs owned s' ∧
        s' = { s with placement := s'.placement, reserved := s'.reserved } := by
    unfold Virt.free
    split
    · exact Prog.Safe.pure ⟨H, rfl⟩
    · unfold Virt.pushBack
      have h16 : Virt.sizeofNode ≤ 4096 := by decide
      refine placementObject_safe H h16 fun _ s1 h1 h2 =>
        placementObject_safe h1 h16 fun _ s2 h3 h4 => Prog.Safe.pure ⟨h3, ?_⟩
      rw [h4, h2]
  rw [virtFree]
  refine Prog.Safe.bind_run (virtManager_run h) (Prog.Safe.bind hfree.and_run ?_)
  rintro v' s1 - ⟨⟨h1, h2⟩, hrun⟩
  exact Prog.Safe.of_run (run_modifyMachine _ _ s1) fun _ =>
    ⟨h1.setVirt _, by rw [h2], by rw [h2], by rw [h2]; rfl, v', rfl, hv.free hrun⟩

/-! ### Pages -/

/-- `lib::memset` clears a page of the current directory. -/
theorem clearsPage_memset (c : Nat) :
    ClearsPage W dirs c c fun page => memset page 0 frameSize := by
  rintro owned s n H rfl hn
  have hcov : Covers owned s.cr3 (4096 * n) frameSize := fun i hi => by
    rw [frameSize] at hi
    rwa [show (4096 * n + i) / 4096 = n by omega]
  obtain ⟨s', hrun, w⟩ := memset_run H hcov 0
  refine ⟨s', hrun, w.space, w.eq, w.walks, fun d v hv => ?_⟩
  by_cases hd : d = s.cr3
  · subst hd
    have hv : ¬(4096 * n ≤ v ∧ v < 4096 * n + 4096) := fun hc => hv ⟨rfl, by omega⟩
    rw [w.shows, fill_of_not_mem (by rw [frameSize]; omega)]
  · rw [w.other d hd]

/-- `map_pages` makes all pages of the range owned pages, or none. -/
theorem Heap.mapPages_safe {p n : Nat} (H : Space W dirs owned s)
    (hnot : ∀ pg ∈ pagesOf s.cr3 p n, pg ∉ owned) (hp : p + n ≤ 2 ^ 27) :
    Prog.Safe (Promise W) Trap.IsDirectMap (mapPages (4096 * p) (4096 * n)) s fun r s' =>
      Space W dirs (if r then pagesOf s.cr3 p n ++ owned else owned) s' ∧ Kept owned s s' ∧
        WalksKept dirs s.cr3 p n s s' ∧ r = decide (n ≤ s.freeFrames.length) ∧
        s'.freeFrames = s.freeFrames.drop n := by
  have hn : alignUp (4096 * n) / frameSize = n := by
    rw [alignUp_of_aligned (by omega) (by omega), frameSize]
    omega
  have := @mapFramesFrom_safe _ _ owned _ s.cr3 p n 0 s.cr3 getCurrentPage _ 0x03 H H.tables.cr3
      rfl (fun s' hs' => by
      rw [run_getCurrentPage, hs']) (clearsPage_memset s.cr3) (by decide) (by rwa [Nat.zero_add])
      hp
  rw [Nat.zero_add] at this
  rw [mapPages, hn]
  exact this

/-- Without a free frame, `map_pages` fails on its first page. -/
theorem Heap.mapPages_run_nil {p n : Nat} (H : Space W dirs owned s) (hfree : s.freeFrames = [])
    (hn : 0 < n) (hp : p + n ≤ 2 ^ 27) :
    (mapPages (4096 * p) (4096 * n)).run s = (.ok false, s) := by
  obtain ⟨n, rfl⟩ : ∃ k, n = k + 1 := ⟨n - 1, by omega⟩
  have hn : alignUp (4096 * (n + 1)) / frameSize = n + 1 := by
    rw [alignUp_of_aligned (by omega) (by omega), frameSize]
    omega
  rw [mapPages, hn, mapFramesFrom, Prog.run_bind_ok (Physical.alloc_run_nil H.manager hfree)]
  rfl

/-- With room for the tables, `map_pages` ends: it succeeds when there are frames enough. -/
theorem Heap.mapPages_ok {p n : Nat} (H : Space W dirs owned s)
    (hnot : ∀ pg ∈ pagesOf s.cr3 p n, pg ∉ owned) (hp : p + n ≤ 2 ^ 27) (hC : s ∈ Promise W)
    (hroom : s.placement + 16384 * n ≤ kvirtualAddress + W) (hW : W ≤ directMapSize) :
    ∃ s', (mapPages (4096 * p) (4096 * n)).run s =
        (.ok (decide (n ≤ s.freeFrames.length)), s') ∧ s' ∈ Promise W ∧
      s'.placement ≤ s.placement + 16384 * n ∧ s'.freeFrames = s.freeFrames.drop n := by
  have hn : alignUp (4096 * n) / frameSize = n := by
    rw [alignUp_of_aligned (by omega) (by omega), frameSize]
    omega
  obtain ⟨s', hrun, h⟩ := @mapFramesFrom_ok _ _ owned _ s.cr3 p n 0 s.cr3 getCurrentPage _ 0x03 H
      H.tables.cr3 rfl (fun s' hs' => by rw [run_getCurrentPage, hs']) (clearsPage_memset s.cr3)
      (by decide) (by rwa [Nat.zero_add]) hp hC hroom hW
  rw [mapPages, hn]
  exact ⟨s', hrun, h⟩

namespace Heap

theorem mem_pages {n : Nat} {d' : Nat} : ⟨d', n⟩ ∈ self.pages d ↔ d' = d ∧ ∃ r ∈ self.regions,
    r.start / 4096 ≤ n ∧ n < r.start / 4096 + r.size / 4096 := by
  simp only [pages, List.mem_flatMap, mem_pagesOf]
  constructor
  · rintro ⟨r, hr, h1, h2, h3⟩
    exact ⟨h1, r, hr, h2, h3⟩
  · rintro ⟨h1, r, hr, h2, h3⟩
    exact ⟨r, hr, h1, h2, h3⟩

/-! ### The invariant -/

/-- The data of the blocks `es` is the same before and after. -/
structure Moves (heap heap' : Heap) (es : List Block) (s s' : Machine) : Prop where
  cr3 : s'.cr3 = s.cr3
  data : HeapBlock.layout.SameData es (heap.bytes s) (heap'.bytes s')

variable {es es' : List Block} {self'' : Heap} {s'' : Machine}

theorem Moves.refl (self : Heap) (es : List Block) (s : Machine) : Moves self self es s s :=
  ⟨rfl, Layout.SameData.refl⟩

theorem Moves.trans (h : Moves self self' es s s') (h' : Moves self' self'' es s' s'') :
    Moves self self'' es s s'' := ⟨h'.cr3.trans h.cr3, h.data.trans h'.data⟩

theorem Moves.subset (h : Moves self self' es s s') (hs : es' ⊆ es) : Moves self self' es' s s' :=
  ⟨h.cr3, h.data.subset hs⟩

/-- After writes to the heap's pages that leave a list of the same extents. -/
theorem Inv.wrote (H : Inv W dirs self bs others s) (hself : SameLists self self')
    (w : Wrote W dirs (self.pages s.cr3) m s s')
    (l : Listed HeapBlock.layout (2 ^ 39) (self.pages s.cr3) s.cr3 m bs')
    (hfirst : headAddr bs' 0 = headAddr bs 0)
    (hcover : ∀ a, Theory.cover (extents 40 bs') a = Theory.cover (extents 40 bs) a)
    (hal : Aligned8 bs') : Inv W dirs self' bs' others s' ∧ self'.bytes s' = m := by
  have hbytes : self'.bytes s' = m := by rw [bytes, w.cr3, hself.pages_eq, w.shows]
  refine ⟨⟨?_, ?_, ?_, ?_, fun a => ?_, hal, ?_⟩, hbytes⟩
  · rw [w.cr3, hself.pages_eq]
    exact w.space
  · rw [hbytes, w.cr3, hself.pages_eq]
    exact l
  · rw [hself.firstBlock, H.first, hfirst]
  · rintro rfl
    obtain ⟨b, bs, rfl⟩ := List.exists_cons_of_ne_nil H.nonempty
    exact H.listed.nonnull b List.mem_cons_self hfirst.symm
  · rw [hcover, H.cover, hself.regions]
  · rw [w.eq, hself.regions]
    exact H.virt

theorem SameLists.bytes_eq (h : SameLists self self') (s : Machine) :
    self'.bytes s = self.bytes s := by
  rw [bytes, h.pages_eq, bytes]

/-- The statistics do not matter. -/
theorem Inv.sameLists (H : Inv W dirs self bs others s) (h : SameLists self self') :
    Inv W dirs self' bs others s := by
  refine ⟨?_, ?_, ?_, H.nonempty, fun a => ?_, H.aligned, ?_⟩
  · rw [h.pages_eq]; exact H.space
  · rw [h.pages_eq, h.bytes_eq]; exact H.listed
  · rw [h.firstBlock]; exact H.first
  · rw [h.regions]; exact H.cover a
  · rw [h.regions]; exact H.virt

theorem Moves.sameLists (h : Moves self self' es s s') (h' : SameLists self' self'') :
    Moves self self'' es s s' := ⟨h.cr3, by rw [h'.bytes_eq]; exact h.data⟩

/-! ### malloc -/

theorem splitBlock_run {b : Block} {r : Bool} (h : (heapBlock.splitBlock b.addr k).run s = (.ok r, s')) :
    ∃ self', (splitBlock self b.addr k).run s = (.ok self', s') ∧ SameLists self self' ∧
      self'.totalAllocated = self.totalAllocated ∧
      self'.totalFree = if r then add64 self.totalFree 40 else self.totalFree := by
  rw [splitBlock, Prog.run_bind_ok h]
  cases r
  · exact ⟨self, rfl, SameLists.refl self, rfl, rfl⟩
  · exact ⟨_, rfl, ⟨rfl, rfl⟩, rfl, rfl⟩

/-- The block found is handed out. -/
theorem mallocFrom_run {b : Block} (H : Inv W dirs self (xs ++ b :: ys) others s)
    (hk : k ≤ b.size) (hk8 : k % 8 = 0) :
    ∃ self' s', (mallocFrom self b.addr k).run s = (.ok (b.addr + 40, self'), s') ∧
      Inv W dirs self' (xs ++ FreeList.take 40 16 k b ++ ys) others s' ∧
      Moves self self' (xs ++ ys) s s' ∧ s' = { s with ram := s'.ram } ∧ SameLists self self' ∧
      (b.free = true → b.size = k ∨ k + 56 ≤ b.size →
        Tallied self self' (xs ++ b :: ys) (xs ++ FreeList.take 40 16 k b ++ ys)) := by
  obtain ⟨s1, s2, m, r1, r2, w, l, hd⟩ :=
    heapBlock_lawful.takeBlock_run (Wrote.refl H.space) H.listed hk
  obtain ⟨self1, hrun1, hsame, halloc, hsplit⟩ := @splitBlock_run _ _ self _ _ _ r1
  have hdata := heapBlock_lawful.data_eq H.listed (e := b) (by simp)
  obtain ⟨self2, hself2⟩ : ∃ self2, self2 = { self1 with
      totalAllocated := add64 self1.totalAllocated k
      totalFree := sub64 self1.totalFree k
      numAllocations := add64 self1.numAllocations 1 } := ⟨_, rfl⟩
  have hlists : SameLists self self2 := by
    rw [hself2]
    exact ⟨hsame.firstBlock, hsame.regions⟩
  obtain ⟨h1, h2⟩ := H.wrote hlists w l (headAddr_take 0) cover_take
    (H.aligned.take (by decide) hk8)
  have ha : self2.totalAllocated = add64 self.totalAllocated k := by rw [hself2, halloc]
  have hf : self2.totalFree =
      sub64 (if k + 56 ≤ b.size then add64 self.totalFree 40 else self.totalFree) k := by
    rw [hself2]
    simp only [hsplit, decide_eq_true_eq]
    rfl
  refine ⟨self2, s2, ?_, h1, ⟨w.cr3, by rw [h2]; exact hd⟩, w.eq, hlists,
    fun hfree hexact => ?_⟩
  · rw [mallocFrom, Prog.run_bind_ok hrun1, Prog.run_bind_ok (by exact r2), Prog.run_pure, hdata,
      hself2]
    rfl
  · have h3 := @usedSize_take 40 16 _ xs ys _ hfree hexact
    have h4 := @freeSize_take 40 16 _ xs ys _ hfree hexact
    have h5 := @length_take 40 16 k xs ys b
    have h6 : self2.regions.length = self.regions.length := by rw [hlists.regions]
    refine ⟨?_, ?_, fun _ => ⟨ha ▸ add64_lt .., hf ▸ sub64_lt ..⟩⟩
    · rw [ha, h3]
      unfold add64
      omega
    · rw [hf, h6]
      generalize (xs ++ FreeList.take 40 16 k b ++ ys) = bs' at h4 h5 ⊢
      generalize (xs ++ b :: ys) = bs at h4 h5 ⊢
      unfold sub64 add64
      by_cases hroom : k + 56 ≤ b.size
      · rw [if_pos hroom] at h5 ⊢
        omega
      · rw [if_neg hroom] at h5 ⊢
        omega

/-! ### The constructor -/

/-- A new heap whose pages could be mapped has one block, all of its region. -/
theorem new_safe {start size : Nat} (H : Space W dirs [] s) (h0 : start ≠ 0)
    (hvirt : ∃ v, s.gKernelVirtualManager = some v ∧
      Virt.Inv v (⟨start, alignUp size⟩ :: others)) :
    Prog.Safe (Promise W) Trap.IsDirectMap (new start size) s fun self s' =>
      s'.cr3 = s.cr3 ∧ (self.firstBlock ≠ 0 →
        Inv W dirs self [⟨start, alignUp size - 40, true⟩] others s' ∧
          self.totalAllocated = 0 ∧ self.totalFree = alignUp size - 40 ∧
          self.regions.length = 1) := by
  obtain ⟨v, hv, hvi⟩ := hvirt
  obtain ⟨e, he⟩ : ∃ e, e = alignUp size := ⟨_, rfl⟩
  have hmod : e % 4096 = 0 := he ▸ alignUp_mod size
  rw [← he] at hvi ⊢
  have hreg := hvi.live_aligned _ List.mem_cons_self
  have htop := hvi.live_bounded List.mem_cons_self
  simp only [show Virt.vaddrSize = 2 ^ 38 from rfl] at hreg htop
  obtain ⟨p, rfl⟩ : ∃ p, start = 4096 * p := ⟨start / 4096, by omega⟩
  obtain ⟨n, rfl⟩ : ∃ n, e = 4096 * n := ⟨e / 4096, by omega⟩
  rw [new]
  simp only [← he]
  refine Prog.Safe.bind (mapPages_safe (p := p) (n := n) H (fun _ _ => List.not_mem_nil) (by omega))
    ?_
  rintro r s1 - ⟨hsp, hk, -⟩
  cases r with
  | false =>
    exact Prog.Safe.pure ⟨hk.cr3, fun h => absurd rfl h⟩
  | true =>
    simp only [if_true, List.append_nil, Bool.not_true, Bool.false_eq_true, if_false] at hsp ⊢
    have hsub : sub64 (4096 * n) HeapBlock.sizeofHeapBlock = 4096 * n - 40 := by
      rw [HeapBlock.sizeofHeapBlock]
      exact sub64_eq (by omega) (by omega)
    rw [hsub]
    obtain ⟨c, hc⟩ : ∃ c : Block, c = ⟨4096 * p, 4096 * n - 40, true⟩ := ⟨_, rfl⟩
    have hca : c.addr = 4096 * p := by rw [hc]
    have hcs : 40 + c.size = 4096 * n := by rw [hc]; simp only; omega
    obtain ⟨s2, m, hrun, w, hl⟩ := heapBlock_lawful.newBlock_run (Wrote.refl hsp) (by rw [hc])
      (c := c) (by
        change Covers _ _ c.addr (40 + c.size)
        rw [hca, hcs, hk.cr3]
        exact covers_pagesOf (List.Subset.refl _)) (by omega)
      (by change c.addr + (40 + c.size) ≤ _; omega)
    rw [hc] at hrun hl
    refine Prog.Safe.bind_run hrun (Prog.Safe.pure ⟨w.cr3.trans hk.cr3, fun _ => ?_⟩)
    -- the object that is built
    generalize hself : Heap.mk _ _ _ _ _ _ _ _ _ = self
    have hfirst : self.firstBlock = 4096 * p := by rw [← hself]
    have hregions : self.regions = [⟨4096 * p, 4096 * n⟩] := by rw [← hself]
    have hpages : ∀ d, self.pages d = pagesOf d p n := by
      intro d
      rw [pages, hregions, List.flatMap_singleton]
      simp only [Nat.mul_div_cancel_left _ (show 0 < 4096 by decide)]
    have hbytes : self.bytes s2 = m := by rw [bytes, w.cr3, hpages, hk.cr3, ← w.shows, hk.cr3]
    refine ⟨⟨?_, ?_, by rw [hfirst]; rfl, by simp, fun a => ?_, ?_, v, ?_, ?_⟩, by rw [← hself],
      by rw [← hself], by rw [← hself]; rfl⟩
    · rw [hpages, w.cr3, hk.cr3]
      exact w.space
    · rw [hpages, w.cr3, hbytes, hk.cr3]
      rw [hk.cr3] at hl
      exact hl
    · rw [hregions, extents, List.map_singleton, Block.extent]
      simp only [show 40 + (4096 * n - 40) = 4096 * n by omega]
    · intro b hb
      rw [List.mem_singleton.mp hb]
      simp only
      omega
    · rw [w.eq]
      simp only [hk.virt, hv]
    · rw [hregions]
      exact hvi

/-- With room for the tables and frames enough, the pages of a new heap are mapped. -/
theorem new_ok {p n : Nat} (H : Space W dirs [] s) (hp : 0 < p) (hn : 0 < n)
    (htop : p + n ≤ 2 ^ 27) (hC : s ∈ Promise W)
    (hroom : s.placement + 16384 * n ≤ kvirtualAddress + W) (hW : W ≤ directMapSize)
    (hfree : n ≤ s.freeFrames.length) :
    ∃ self s', (new (4096 * p) (4096 * n)).run s = (.ok self, s') ∧ s' ∈ Promise W ∧
      self.firstBlock ≠ 0 ∧ s'.placement ≤ s.placement + 16384 * n ∧
      s'.freeFrames = s.freeFrames.drop n ∧
      s'.gKernelVirtualManager = s.gKernelVirtualManager := by
  have hal : alignUp (4096 * n) = 4096 * n := alignUp_of_aligned (by omega) (by omega)
  have hnot : ∀ pg ∈ pagesOf s.cr3 p n, pg ∉ ([] : List Page) := fun _ _ => List.not_mem_nil
  obtain ⟨s1, hrun1, hC1, hpl1, hfree1⟩ := mapPages_ok H hnot htop hC hroom hW
  rw [decide_eq_true hfree] at hrun1
  obtain ⟨hsp, hk, -⟩ := (mapPages_safe H hnot htop).ok hrun1 hC1
  simp only [if_true, List.append_nil] at hsp
  have hcov : Covers (pagesOf s.cr3 p n) s1.cr3 (4096 * p) 40 := by
    rw [hk.cr3]
    exact (covers_pagesOf (List.Subset.refl _)).mono (Nat.le_refl _) (by omega)
  obtain ⟨s2, m, hrun2, w, -, -⟩ := heapBlock_lawful.new_run true (Wrote.refl hsp) hcov
    (v := sub64 (4096 * n) HeapBlock.sizeofHeapBlock) (by
      rw [HeapBlock.sizeofHeapBlock, sub64_eq] <;> omega)
  have hrun : ∃ self, (new (4096 * p) (4096 * n)).run s = (.ok self, s2) ∧
      self.firstBlock = 4096 * p := by
    rw [new]
    simp only [hal]
    rw [Prog.run_bind_ok hrun1]
    simp only [Bool.not_true, Bool.false_eq_true, if_false]
    rw [Prog.run_bind_ok (by exact hrun2), Prog.run_pure]
    exact ⟨_, rfl, rfl⟩
  obtain ⟨self, hrun, hfirst⟩ := hrun
  refine ⟨self, s2, hrun, by rw [w.eq]; exact hC1, by omega, by rw [w.eq]; exact hpl1, ?_,
    by rw [w.eq]; exact hk.virt⟩
  rw [← hfree1, Machine.freeFrames_congr (s := s1) (by rw [w.eq])]

/-! ### expand_heap -/

/-- What others do beside the heap: its headers stay, and `virt` keeps its regions. -/
theorem Inv.kept {dirs' : List Nat} {others' : List Span} (H : Inv W dirs self bs others s)
    (hs : Space W dirs' (self.pages s.cr3) s') (hcr : s'.cr3 = s.cr3)
    (hhead : ∀ e ∈ bs, ∀ i < 40, self.bytes s' (e.addr + i) = self.bytes s (e.addr + i))
    (hvirt : ∃ v, s'.gKernelVirtualManager = some v ∧ Virt.Inv v (self.regions ++ others')) :
    Inv W dirs' self bs others' s' :=
  ⟨hcr ▸ hs, hcr ▸ H.listed.extend hhead (List.Subset.refl _), H.first, H.nonempty, H.cover,
    H.aligned, hvirt⟩

/-- The end of `expand_heap`, on a new region `[4096 * p, 4096 * (p + n))`. -/
theorem Inv.grow_run {p n : Nat} (H : Inv W dirs self bs others s)
    (hs : Space W dirs (pagesOf s.cr3 p n ++ self.pages s.cr3) s') (hcr : s'.cr3 = s.cr3)
    (hbytes : self.bytes s' = self.bytes s) (hp : 0 < p) (hn : 0 < n) (htop : p + n ≤ 2 ^ 27)
    (hnew : ∀ r ∈ self.regions, Span.Disjoint ⟨4096 * p, 4096 * n⟩ r)
    (hvirt : ∃ v, s'.gKernelVirtualManager = some v ∧
      Virt.Inv v (⟨4096 * p, 4096 * n⟩ :: self.regions ++ others))
    (hself : self'.firstBlock = self.firstBlock)
    (hreg : self'.regions = ⟨4096 * p, 4096 * n⟩ :: self.regions)
    (halloc : self'.totalAllocated = self.totalAllocated)
    (hfree : self'.totalFree = add64 self.totalFree (4096 * n - 40)) :
    ∃ s1 s2 s3 self'', (HeapBlock.new (4096 * p) (4096 * n - 40) true).run s' = (.ok (), s1) ∧
      (heapBlock.appendBlock self.firstBlock (4096 * p)).run s1 = (.ok (), s2) ∧
      (coalesceBlock self' (4096 * p)).run s2 = (.ok self'', s3) ∧
      Inv W dirs self'' (FreeList.coalesce 40 bs ⟨4096 * p, 4096 * n - 40, true⟩ []) others s3 ∧
      Moves self self'' (used bs) s s3 ∧
      Tallied self self'' bs (FreeList.coalesce 40 bs ⟨4096 * p, 4096 * n - 40, true⟩ []) ∧
      SameLists self' self'' ∧ s3 = { s' with ram := s3.ram } := by
  obtain ⟨c, hc⟩ : ∃ c : Block, c = ⟨4096 * p, 4096 * n - 40, true⟩ := ⟨_, rfl⟩
  have hca : c.addr = 4096 * p := by rw [hc]
  have hcs : 40 + c.size = 4096 * n := by rw [hc]; simp only; omega
  have hpages : ∀ d, self'.pages d = pagesOf d p n ++ self.pages d := by
    intro d
    rw [pages, hreg, List.flatMap_cons, pages]
    simp only [Nat.mul_div_cancel_left _ (show 0 < 4096 by decide)]
  have hsp : Space W dirs (self'.pages s'.cr3) s' := by
    rw [hpages, hcr]
    exact hs
  have hsub : self.pages s.cr3 ⊆ self'.pages s'.cr3 := by
    rw [hpages, hcr]
    exact List.subset_append_right _ _
  -- the old blocks, on the larger set of pages
  have hold : ∀ e ∈ bs, ∀ i < 40 + e.size,
      self'.bytes s' (e.addr + i) = self.bytes s (e.addr + i) := by
    intro e he i hi
    have hm := H.listed.covers e he i hi
    rw [← hbytes, bytes, bytes, hcr] at *
    exact view_eq_of_subset hm hsub
  have hl : Listed HeapBlock.layout (2 ^ 39) (self'.pages s'.cr3) s'.cr3 (self'.bytes s') bs := by
    have hl := H.listed.extend (fun e he i hi => hold e he i (Nat.lt_add_right _ hi)) hsub
    rwa [← hcr] at hl
  have hap : ∀ x ∈ bs, x.addr + 40 + x.size ≤ c.addr ∨ c.addr + 40 + c.size ≤ x.addr := by
    intro x hx
    have hdis : Span.Disjoint (x.extent 40) ⟨4096 * p, 4096 * n⟩ := by
      rintro a ⟨h1, h2⟩
      have h3 : 0 < Theory.cover (extents 40 bs) a :=
        cover_pos_iff.mpr ⟨_, List.mem_map_of_mem hx, h1⟩
      rw [H.cover] at h3
      obtain ⟨r, hr, h4⟩ := cover_pos_iff.mp h3
      exact hnew r hr a ⟨h2, h4⟩
    have := hdis.le_or_le (by simp only [Block.extent]; omega) (by simp only; omega)
    simp only [Block.extent] at this
    omega
  have hcov : Covers (self'.pages s'.cr3) s'.cr3 c.addr (40 + c.size) := by
    rw [hca, hcs]
    exact covers_pagesOf (by rw [hpages]; exact List.subset_append_left _ _)
  obtain ⟨r, s1, s2, s3, m, r1, r2, r3, w, l, hd, hlen⟩ := heapBlock_lawful.growBlock_run
    (Wrote.refl hsp) hl H.nonempty (by rw [hc]) hcov (by omega)
    (by change c.addr + (40 + c.size) ≤ _; omega) hap
  obtain ⟨self2, hself2⟩ : ∃ self2, self2 = { self' with
      totalFree := sub64 self'.totalFree (r * HeapBlock.sizeofHeapBlock) } := ⟨_, rfl⟩
  have hlists : SameLists self' self2 := by
    rw [hself2]
    exact ⟨rfl, rfl⟩
  have hb2 : self2.bytes s3 = m := by rw [bytes, w.cr3, hlists.pages_eq, w.shows]
  have hal : Aligned8 (bs ++ [c]) := by
    intro e he
    rcases List.mem_append.mp he with he | he
    · exact H.aligned e he
    · rw [List.mem_singleton.mp he]
      omega
  rw [← hc]
  refine ⟨s1, s2, s3, self2, ?_, ?_, ?_, ⟨?_, ?_, ?_, ?_, fun a => ?_,
    hal.coalesce (by decide), ?_⟩, ⟨w.cr3.trans hcr, ?_⟩, ⟨?_, ?_, fun h => ?_⟩, hlists, w.eq⟩
  · rw [hc] at r1
    exact r1
  · rw [H.first, ← hca]
    exact r2
  · rw [coalesceBlock, Prog.run_bind_ok (by rw [← hca]; exact r3), Prog.run_pure, hself2]
  · rw [w.cr3, hlists.pages_eq]
    exact w.space
  · rw [w.cr3, hb2, hlists.pages_eq]
    exact l
  · rw [hlists.firstBlock, hself, H.first, headAddr_coalesce, headAddr_append]
    obtain ⟨b, bs, rfl⟩ := List.exists_cons_of_ne_nil H.nonempty
    rfl
  · intro hnil
    have := @headAddr_coalesce 40 bs [] c 0
    rw [hnil, headAddr_append] at this
    obtain ⟨b, bs, rfl⟩ := List.exists_cons_of_ne_nil H.nonempty
    exact H.listed.nonnull b List.mem_cons_self this.symm
  · have h1 : Theory.cover (extents 40 (FreeList.coalesce 40 bs c [])) a = _ :=
      cover_coalesce a
    have h2 : c.extent 40 = ⟨4096 * p, 4096 * n⟩ := by rw [Block.extent, hca, hcs]
    rw [h1, extents, List.map_append, cover_append, ← extents, H.cover, List.map_singleton, h2,
      hlists.regions, hreg, cover_cons, cover_cons, cover_nil]
    omega
  · rw [w.eq, hlists.regions, hreg]
    exact hvirt
  · intro e he a ha
    have h1 : e.addr + 40 ≤ a ∧ a < e.addr + 40 + e.size := ha
    have h3 := hold e (mem_used.mp he).1 (a - e.addr) (by omega)
    rw [Nat.add_sub_cancel' (by omega)] at h3
    rw [hb2, hd e he a ha]
    exact h3
  · have h1 : self2.totalAllocated = self.totalAllocated := by rw [hself2, ← halloc]
    rw [h1, usedSize_coalesce (by rw [hc])]
    rfl
  · have h1 : self2.totalFree = sub64 (add64 self.totalFree c.size) (r * 40) := by
      rw [hself2, hc, ← hfree]
      rfl
    have h2 : self2.regions.length = self.regions.length + 1 := by
      rw [hlists.regions, hreg, List.length_cons]
    have h3 := @freeSize_coalesce 40 bs [] c (by rw [hc])
    have h4 : (FreeList.coalesce 40 bs c []).length + r = bs.length + 1 := hlen
    have h5 : freeSize [] = 0 := rfl
    rw [List.length_nil] at h3
    rw [h1, h2]
    unfold sub64 add64
    omega
  · have h1 : self2.totalAllocated = self.totalAllocated := by rw [hself2, ← halloc]
    rw [h1, hself2]
    exact ⟨h.1, sub64_lt ..⟩

/-- `virt` keeps the regions of the heap, whatever it adds. -/
theorem Inv.setVirt {v : Virt} {others' : List Span} (H : Inv W dirs self bs others s)
    (hv : Virt.Inv v (self.regions ++ others')) :
    Inv W dirs self bs others' { s with gKernelVirtualManager := some v } :=
  ⟨H.space.setVirt _, H.listed, H.first, H.nonempty, H.cover, H.aligned, v, rfl, hv⟩

/-- `expand_heap(minSize)` gets a region, and frames for all of it. -/
def CanGrow (s : Machine) (minSize : Nat) : Prop :=
  ∃ v, s.gKernelVirtualManager = some v ∧ (v.alloc (alignUp minSize)).1 ≠ 0 ∧
    alignUp minSize / frameSize ≤ s.freeFrames.length

/-- What `expand_heap` leaves: a list that has grown, by the region that `virt` names, or the same
list and heap. -/
def Grown (s : Machine) (minSize : Nat) (bs bs' : List Block) (self self' : Heap) (r : Bool) :
    Prop :=
  r = true ∧ CanGrow s minSize ∧ (∃ c : Block, c.free = true ∧ 40 + c.size = alignUp minSize ∧
    (∀ v, s.gKernelVirtualManager = some v → c.addr = (v.alloc (alignUp minSize)).1) ∧
    bs' = FreeList.coalesce 40 bs c []) ∨ r = false ∧ ¬CanGrow s minSize ∧ bs' = bs ∧ self' = self

/-- A region that `virt` hands out meets none of the heap's. -/
theorem region_disjoint {v : Virt} {new : Span} (h : Virt.Inv v (new :: (self.regions ++ others))) :
    ∀ r ∈ self.regions, Span.Disjoint new r := fun r hr =>
  @disjoint_of_cover_le_one _ _ [] (self.regions ++ others) (fun a => by
      have h1 := h.cover a
      have h2 := Span.ind_le_one ⟨0, Virt.vaddrSize⟩ a
      rw [List.nil_append]
      omega) (by simp [hr])

theorem region_pages {v : Virt} {p n : Nat}
    (h : Virt.Inv v (⟨4096 * p, 4096 * n⟩ :: (self.regions ++ others))) :
    ∀ pg ∈ pagesOf d p n, pg ∉ self.pages d := by
  rintro ⟨d, q⟩ hq hm
  obtain ⟨-, hq1, hq2⟩ := mem_pagesOf.mp hq
  obtain ⟨-, r, hr, hm1, hm2⟩ := mem_pages.mp hm
  have hral := h.live_aligned r (by simp [hr])
  exact region_disjoint h r hr (4096 * q) ⟨by simp only [Span.mem_mk] at *; omega, by
    rw [Span.mem_iff]; omega⟩

/-- `expand_heap` adds a region to the list, or leaves the list alone. -/
theorem expandHeap_safe (H : Inv W dirs self bs others s) {minSize : Nat} (h1 : 40 ≤ minSize)
    (h2 : minSize + 4095 < 2 ^ 64) :
    Prog.Safe (Promise W) Trap.IsDirectMap (expandHeap self minSize) s fun r s' =>
      ∃ bs' others', Inv W dirs r.2 bs' others' s' ∧ Grown s minSize bs bs' self r.2 r.1 ∧
        Moves self r.2 (used bs) s s' ∧ Tallied self r.2 bs bs' := by
  obtain ⟨v, hv, hvi⟩ := H.virt
  obtain ⟨e, he⟩ : ∃ e, e = alignUp minSize := ⟨_, rfl⟩
  have hle : minSize ≤ e := he ▸ le_alignUp h2
  have hmod : e % 4096 = 0 := he ▸ alignUp_mod minSize
  have hlt : e < 2 ^ 64 := he ▸ alignUp_lt minSize
  have hee : alignUp e = e := alignUp_of_aligned (by omega) hmod
  have hgrow : CanGrow s minSize ↔ (v.alloc e).1 ≠ 0 ∧ e / 4096 ≤ s.freeFrames.length := by
    rw [CanGrow, ← he]
    exact ⟨fun ⟨v', h1, h2⟩ => Option.some.inj (hv.symm.trans h1) ▸ h2, fun h => ⟨v, hv, h⟩⟩
  rw [expandHeap]
  simp only [← he]
  refine Prog.Safe.bind_run (virtAlloc_run hv e) ?_
  by_cases hfit : v.HasFit e
  swap
  · rw [Virt.alloc_of_not_hasFit hfit, if_pos rfl]
    have hno : ¬CanGrow s minSize := fun h => (hgrow.mp h).1 (by rw [Virt.alloc_of_not_hasFit hfit])
    exact Prog.Safe.pure ⟨bs, others, H.setVirt hvi, .inr ⟨rfl, hno, rfl, rfl⟩,
      ⟨rfl, Layout.SameData.refl⟩, .refl self bs⟩
  have hvi' := hvi.alloc (by omega) (by omega) hfit
  rw [hee] at hvi'
  generalize hr : (v.alloc e).1 = region at hvi'
  generalize (v.alloc e).2 = v' at hvi'
  have hperm : (⟨region, e⟩ :: (self.regions ++ others)).Perm
      (self.regions ++ ⟨region, e⟩ :: others) := List.perm_middle.symm
  have H1 := H.setVirt (hvi'.perm hperm)
  by_cases h0 : region = 0
  · rw [if_pos h0]
    exact Prog.Safe.pure ⟨bs, _, H1, .inr ⟨rfl, fun h => (hgrow.mp h).1 (hr.trans h0), rfl, rfl⟩,
      ⟨rfl, Layout.SameData.refl⟩, .refl self bs⟩
  rw [if_neg h0]
  -- the region, in pages
  have hreg := hvi'.live_aligned _ List.mem_cons_self
  have htop := hvi'.live_bounded List.mem_cons_self
  simp only [show Virt.vaddrSize = 2 ^ 38 from rfl] at hreg htop
  obtain ⟨p, rfl⟩ : ∃ p, region = 4096 * p := ⟨region / 4096, by omega⟩
  obtain ⟨n, rfl⟩ : ∃ n, e = 4096 * n := ⟨e / 4096, by omega⟩
  have hnew := region_disjoint hvi'
  obtain ⟨s1, hs1⟩ : ∃ s1, s1 = { s with gKernelVirtualManager := some v' } := ⟨_, rfl⟩
  rw [← hs1] at H1 ⊢
  have hcr1 : s1.cr3 = s.cr3 := by rw [hs1]
  have hb1 : self.bytes s1 = self.bytes s := by rw [hs1]; rfl
  refine Prog.Safe.bind (mapPages_safe H1.space (region_pages hvi') (by omega)) ?_
  rintro r s2 - ⟨hsp, hk, -, hr2, -⟩
  rw [hr] at hgrow
  have hgrow : CanGrow s minSize ↔ r = true := by
    have hfree : s1.freeFrames = s.freeFrames := by rw [hs1]; rfl
    rw [hgrow, hr2, hfree, decide_eq_true_iff, Nat.mul_div_cancel_left _ (by decide)]
    exact and_iff_right h0
  have hcr2 : s2.cr3 = s.cr3 := hk.cr3.trans hcr1
  have hb2 : self.bytes s2 = self.bytes s := by
    rw [← hb1, bytes, bytes, hk.cr3, hk.shows]
  have hvirt2 : s2.gKernelVirtualManager = some v' := by rw [hk.virt, hs1]
  cases r with
  | false =>
    simp only [Bool.false_eq_true, if_false, Bool.not_false, if_true] at hsp ⊢
    refine Prog.Safe.bind (virtFree_safe hsp hvirt2 (by rwa [hee])) ?_
    rintro _ s3 - ⟨h3, h4, h5, -, hvirt3⟩
    have hb3 : self.bytes s3 = self.bytes s := by rw [← hb2, bytes, h4, h5, bytes]
    rw [hcr1] at h3
    refine Prog.Safe.pure ⟨bs, others, H.kept h3 (h4.trans hcr2) (fun e he i hi => by rw [hb3])
      hvirt3, .inr ⟨rfl, by simp [hgrow], rfl, rfl⟩, ⟨h4.trans hcr2, ?_⟩, .refl self bs⟩
    rw [hb3]
    exact Layout.SameData.refl
  | true =>
    simp only [if_true, Bool.not_true, Bool.false_eq_true, if_false] at hsp ⊢
    have hsub : sub64 (4096 * n) HeapBlock.sizeofHeapBlock = 4096 * n - 40 := by
      rw [HeapBlock.sizeofHeapBlock]
      exact sub64_eq (by omega) (by omega)
    rw [hsub]
    rw [hcr1] at hsp
    obtain ⟨s3, s4, s5, self'', r1, r2, r3, hinv, hmoves, htally, -⟩ := @Inv.grow_run _ _ _ _ _
        { self with
        heapSize := add64 self.heapSize (4096 * n)
        totalFree := add64 self.totalFree (4096 * n - 40)
        regions := ⟨4096 * p, 4096 * n⟩ :: self.regions } _ _ _ _ H hsp hcr2 hb2 (by omega)
        (by omega) (by omega) hnew ⟨v', hvirt2, hvi'⟩ rfl rfl rfl rfl
    refine Prog.Safe.bind_run r1 (Prog.Safe.bind_run r2 (Prog.Safe.bind_run r3 ?_))
    refine Prog.Safe.pure ⟨_, others, hinv, .inl ⟨rfl, hgrow.mpr rfl, _, rfl, ?_, fun u hu => ?_,
      rfl⟩, hmoves, htally⟩
    · rw [← he]
      simp only
      omega
    · cases hv.symm.trans hu
      rw [← he, hr]

/-- With room for the tables it ends, and the heap grows if it can. -/
theorem Inv.expandHeap_ok {v : Virt} (H : Inv W dirs self bs others s)
    (hv : s.gKernelVirtualManager = some v) {minSize : Nat} (h1 : 40 ≤ minSize)
    (h2 : minSize + 4095 < 2 ^ 64) (hcan : CanGrow s minSize) (hC : s ∈ Promise W)
    (hroom : s.placement + 4 * alignUp minSize ≤ kvirtualAddress + W) (hW : W ≤ directMapSize) :
    ∃ self' s', (expandHeap self minSize).run s = (.ok (true, self'), s') ∧ s' ∈ Promise W ∧
      self'.regions = ⟨(v.alloc (alignUp minSize)).1, alignUp minSize⟩ :: self.regions := by
  obtain ⟨u, hu, hvi⟩ := H.virt
  cases hv.symm.trans hu
  obtain ⟨u, hu, hreg, hframes⟩ := hcan
  cases hv.symm.trans hu
  have hle : minSize ≤ alignUp minSize := le_alignUp h2
  have hmod := alignUp_mod minSize
  have hlt := alignUp_lt minSize
  rw [expandHeap]
  simp only
  generalize alignUp minSize = e at *
  have hee : alignUp e = e := alignUp_of_aligned (by omega) hmod
  have hfit : v.HasFit e := by
    by_contra h
    exact hreg (by rw [Virt.alloc_of_not_hasFit h])
  have hvi' := hvi.alloc (by omega) (by omega) hfit
  rw [hee] at hvi'
  rw [Prog.run_bind_ok (virtAlloc_run hv e), if_neg hreg]
  generalize (v.alloc e).1 = region at hreg hvi' ⊢
  generalize (v.alloc e).2 = v' at hvi' ⊢
  have hal := hvi'.live_aligned _ List.mem_cons_self
  have htop := hvi'.live_bounded List.mem_cons_self
  simp only [show Virt.vaddrSize = 2 ^ 38 from rfl] at hal htop
  obtain ⟨p, rfl⟩ : ∃ p, region = 4096 * p := ⟨region / 4096, by omega⟩
  obtain ⟨n, rfl⟩ : ∃ n, e = 4096 * n := ⟨e / 4096, by omega⟩
  obtain ⟨s1, hs1⟩ : ∃ s1, s1 = { s with gKernelVirtualManager := some v' } := ⟨_, rfl⟩
  rw [← hs1]
  have hsp1 : Space W dirs (self.pages s1.cr3) s1 := hs1 ▸ H.space.setVirt _
  have hfree1 : n ≤ s1.freeFrames.length := by
    rw [frameSize, Nat.mul_div_cancel_left n (by decide)] at hframes
    rw [hs1]
    exact hframes
  have hcr1 : s1.cr3 = s.cr3 := by rw [hs1]
  have hpl1 : s1.placement = s.placement := by rw [hs1]
  have hb1 : self.bytes s1 = self.bytes s := by rw [hs1]; rfl
  obtain ⟨s2, hrun2, hC2, -⟩ := mapPages_ok hsp1 (region_pages hvi') (by omega)
    (by rw [hs1]; exact hC) (by omega) hW
  obtain ⟨hsp2, hk, -⟩ := (mapPages_safe hsp1 (region_pages hvi') (by omega)).ok hrun2 hC2
  rw [decide_eq_true hfree1] at hrun2 hsp2
  rw [if_pos rfl, hcr1] at hsp2
  have hb2 : self.bytes s2 = self.bytes s := by
    rw [← hb1, bytes, bytes, hk.cr3, hk.shows]
  have hvirt2 : s2.gKernelVirtualManager = some v' := by rw [hk.virt, hs1]
  obtain ⟨self1, hself1⟩ : ∃ self1, self1 = { self with
      heapSize := add64 self.heapSize (4096 * n)
      totalFree := add64 self.totalFree (4096 * n - 40)
      regions := ⟨4096 * p, 4096 * n⟩ :: self.regions } := ⟨_, rfl⟩
  obtain ⟨s3, s4, s5, self2, r1, r2, r3, -, -, -, hlists, heq⟩ := H.grow_run hsp2
    (hk.cr3.trans hcr1) hb2 (by omega) (by omega) (by omega) (region_disjoint hvi')
    ⟨v', hvirt2, hvi'⟩ (show self1.firstBlock = self.firstBlock by rw [hself1])
    (by rw [hself1]) (by rw [hself1]) (by rw [hself1])
  have hsub : sub64 (4096 * n) HeapBlock.sizeofHeapBlock = 4096 * n - 40 := by
    rw [HeapBlock.sizeofHeapBlock]
    exact sub64_eq (by omega) (by omega)
  refine ⟨self2, s5, ?_, by rw [heq]; exact hC2, by rw [hlists.regions, hself1]⟩
  rw [hself1] at r3
  rw [Prog.run_bind_ok hrun2, hsub]
  simp only [Bool.not_true, Bool.false_eq_true, if_false]
  rw [Prog.run_bind_ok r1, Prog.run_bind_ok r2, Prog.run_bind_ok r3]
  rfl

/-! ### malloc and free -/

/-- First fit, then the end of `malloc`. -/
theorem Inv.mallocFound_run {b : Block} (H : Inv W dirs self bs others s)
    (hr : FreeList.firstFit k bs = some (xs, b, ys)) (hk8 : k % 8 = 0) :
    b.addr ≠ 0 ∧ ∃ self' s', (mallocFrom self b.addr k).run s = (.ok (b.addr + 40, self'), s') ∧
      Inv W dirs self' (xs ++ FreeList.take 40 16 k b ++ ys) others s' ∧
      Moves self self' (used bs) s s' ∧ s' = { s with ram := s'.ram } ∧ SameLists self self' ∧
      (b.size = k ∨ k + 56 ≤ b.size →
        Tallied self self' bs (xs ++ FreeList.take 40 16 k b ++ ys)) := by
  obtain ⟨rfl, hfree, hk, -⟩ := firstFit_eq_some hr
  refine ⟨H.listed.nonnull b (by simp), ?_⟩
  obtain ⟨self', s', hrun, hinv, hmoves, heq, hlists, htally⟩ := mallocFrom_run H hk hk8
  have hused : used (xs ++ b :: ys) = used xs ++ used ys := by
    rw [used_append, used_cons_of_free hfree]
  refine ⟨self', s', hrun, hinv, hmoves.subset ?_, heq, hlists, htally hfree⟩
  rw [hused]
  exact List.append_subset.mpr ⟨fun e he => by simp [(mem_used.mp he).1],
    fun e he => by simp [(mem_used.mp he).1]⟩

theorem Inv.findFreeBlock_run (H : Inv W dirs self bs others s) (k : Nat) :
    (findFreeBlock self k).run s =
      (.ok (((FreeList.firstFit k bs).map (·.2.1.addr)).getD 0), s) := by
  rw [findFreeBlock, H.first]
  exact heapBlock_lawful.findFreeBlock_run (Wrote.refl H.space) H.listed

/-- A request that `malloc` refuses: for no bytes, or for more than the list has when the heap
cannot grow. -/
def Refused (s : Machine) (bs : List Block) (size : Nat) : Prop :=
  size = 0 ∨ FreeList.firstFit (alignUp size) bs = none ∧
    ¬CanGrow s (alignUp size + HeapBlock.sizeofHeapBlock)

/-- `malloc` hands out one more block, or nothing. -/
theorem malloc_safe (H : Inv W dirs self bs others s) {size : Nat} (hs : Expandable size) :
    Prog.Safe (Promise W) Trap.IsDirectMap (malloc self size) s fun r s' =>
      ∃ bs' others', Inv W dirs r.2 bs' others' s' ∧ Served 40 (alignUp size) bs bs' r.1 ∧
        Moves self r.2 (used bs) s s' ∧
        ((size ≠ 0 → FitsExactly 40 16 (alignUp size) bs) → Tallied self r.2 bs bs') ∧
        (r.1 = 0 ↔ Refused s bs size) := by
  have h8 : alignUp size % 8 = 0 := by have := alignUp_mod size; omega
  have h1 : alignUp size + 40 + 4095 < 2 ^ 64 := hs
  rw [malloc]
  by_cases h0 : size = 0
  · rw [if_pos h0]
    exact Prog.Safe.pure ⟨bs, others, H, .refused, Moves.refl .., fun _ => .refl self bs,
      fun _ => .inl h0, fun _ => rfl⟩
  rw [if_neg h0]
  refine Prog.Safe.bind_run (H.findFreeBlock_run _) ?_
  rcases hf : FreeList.firstFit (alignUp size) bs with _ | ⟨xs, b, ys⟩
  · -- nothing fits: the heap is expanded
    simp only [Option.map_none, Option.getD_none, ne_eq, not_true_eq_false, if_false]
    have hadd : add64 (alignUp size) HeapBlock.sizeofHeapBlock = alignUp size + 40 := by
      rw [HeapBlock.sizeofHeapBlock]
      exact add64_eq (by omega)
    rw [hadd]
    refine Prog.Safe.bind (expandHeap_safe H (by omega) h1) ?_
    rintro ⟨grown, self1⟩ s1 - ⟨bs1, others1, H1, hgrown, hmoves, htally⟩
    rcases hgrown with ⟨h, hcan, c, hc, hcs, -, rfl⟩ | ⟨h, hcan, rfl, -⟩
    · simp only at h H1 hmoves htally
      subst h
      simp only [Bool.not_true, Bool.false_eq_true, if_false]
      have hused : used (FreeList.coalesce 40 bs c []) = used bs := by
        rw [used_coalesce hc, used_nil, List.append_nil]
      have hle := le_alignUp h1
      have hmod := alignUp_mod (alignUp size + 40)
      have hc0 : 0 < c.size := by omega
      refine Prog.Safe.bind_run (H1.findFreeBlock_run _) ?_
      rcases hf1 : FreeList.firstFit (alignUp size) (FreeList.coalesce 40 bs c []) with
        _ | ⟨xs, b, ys⟩
      · exact absurd hf1 (firstFit_grown hc (by omega))
      · obtain ⟨hne, self2, s2, hrun, H2, hmoves2, -, -, htally2⟩ := H1.mallocFound_run hf1 h8
        simp only [Option.map_some, Option.getD_some, if_neg hne]
        rw [hused] at hmoves2
        refine Prog.Safe.of_run hrun fun _ => ⟨_, others1, H2, .grown hf hc hc0 hf1,
          hmoves.trans hmoves2, fun _ => htally.trans (htally2 (.inr ?_)),
          fun h => by simp only at h; omega, fun h => absurd hcan (h.resolve_left h0).2⟩
        -- the new region is more than a header larger than the request
        have h2 := le_firstFit_grown hf hf1
        have h3 := alignUp_mod (alignUp size + 40)
        have h4 := alignUp_mod size
        omega
    · simp only at h H1 hmoves htally
      subst h
      exact Prog.Safe.pure ⟨bs1, others1, H1, .refused, hmoves, fun _ => htally,
        fun _ => .inr ⟨hf, hcan⟩, fun _ => rfl⟩
  · obtain ⟨hne, self2, s2, hrun, H2, hmoves, -, -, htally⟩ := H.mallocFound_run hf h8
    simp only [Option.map_some, Option.getD_some, ne_eq, hne, not_false_eq_true, if_true]
    refine Prog.Safe.of_run hrun fun _ => ⟨_, others, H2, .found hf, hmoves, fun hexact =>
      htally (hexact h0 _ hf), fun h => by simp only at h; omega, fun h => ?_⟩
    rw [(h.resolve_left h0).1] at hf
    cases hf

/-- `free` takes one block back. -/
theorem free_run {b : Block} (H : Inv W dirs self (xs ++ b :: ys) others s)
    (hb : b.free = false) :
    ∃ self' s', (free self (b.addr + 40)).run s = (.ok self', s') ∧
      Inv W dirs self' (FreeList.coalesce 40 xs ⟨b.addr, b.size, true⟩ ys) others s' ∧
      Moves self self' ((used (xs ++ b :: ys)).erase b) s s' ∧
      Tallied self self' (xs ++ b :: ys) (FreeList.coalesce 40 xs ⟨b.addr, b.size, true⟩ ys) ∧
      SameLists self self' ∧ s' = { s with ram := s'.ram } ∧
      HeapBlock.layout.KeepsFree (xs ++ b :: ys) (self.bytes s) (self'.bytes s') ∧
      HeapBlock.layout.FreeAt (self'.bytes s') b.addr := by
  obtain ⟨n, s1, m, hrun, w, l, hd, hn, hkeeps, hfreed⟩ :=
    heapBlock_lawful.freeBlock_run (Wrote.refl H.space) H.listed hb
  obtain ⟨self', hself'⟩ : ∃ self', self' = { self with
      totalAllocated := sub64 self.totalAllocated b.size
      totalFree := sub64 (add64 self.totalFree b.size) (n * HeapBlock.sizeofHeapBlock)
      numFrees := add64 self.numFrees 1 } := ⟨_, rfl⟩
  have hlists : SameLists self self' := by
    rw [hself']
    exact ⟨rfl, rfl⟩
  have hal : Aligned8 (xs ++ ⟨b.addr, b.size, true⟩ :: ys) := by
    have := Aligned8.append_cons.mp H.aligned
    exact Aligned8.append_cons.mpr this
  obtain ⟨h1, h2⟩ := H.wrote hlists w l
    (by rw [headAddr_coalesce, headAddr_append, headAddr_append]; rfl)
    (fun a => by
      rw [@cover_extents_mark _ _ _ _ _ _ true]
      exact cover_coalesce a)
    (@Aligned8.coalesce 40 _ _ _ hal (by decide))
  refine ⟨self', s1, ?_, h1, ⟨w.cr3, ?_⟩, ⟨?_, ?_, fun _ => ?_⟩, hlists, w.eq,
    by rw [h2]; exact hkeeps, by rw [h2]; exact hfreed⟩
  · rw [free, Prog.run_bind_ok (by exact hrun)]
    simp only [Prog.run_pure, hself']
  · rw [h2]
    exact hd.subset (used_erase_perm hb).subset
  · have h3 : self'.totalAllocated = sub64 self.totalAllocated b.size := by rw [hself']
    rw [h3, usedSize_coalesce rfl, usedSize_append, usedSize_cons, hb, if_neg (by decide)]
    unfold sub64
    omega
  · have h3 : self'.totalFree = sub64 (add64 self.totalFree b.size) (n * 40) := by
      rw [hself']
      rfl
    have h4 := @freeSize_coalesce 40 xs ys ⟨b.addr, b.size, true⟩ rfl
    have h5 : (FreeList.coalesce 40 xs ⟨b.addr, b.size, true⟩ ys).length + n =
      xs.length + ys.length + 1 := hn
    have h6 : freeSize (xs ++ b :: ys) = freeSize xs + freeSize ys := by
      rw [freeSize_append, freeSize_cons, hb, if_neg (by decide), Nat.zero_add]
    simp only at h4
    rw [h3, hlists.regions, h6, List.length_append, List.length_cons]
    unfold sub64 add64
    omega
  · rw [hself']
    exact ⟨sub64_lt .., sub64_lt ..⟩

/-! ### realloc and calloc -/

theorem nodup_used (H : Inv W dirs self bs others s) : (used bs).Nodup :=
  (H.listed.nodup.of_map _).filter _

/-- Two blocks in use have disjoint data. -/
theorem Inv.apart {b e : Block} (H : Inv W dirs self bs others s) (hb : b ∈ bs) (he : e ∈ bs)
    (hne : b ≠ e) : b.addr + 40 + b.size ≤ e.addr ∨ e.addr + 40 + e.size ≤ b.addr :=
  H.listed.blocks.apart_of_ne hb he hne

/-- Writing the data of a block changes neither the list nor the data of another block. -/
theorem Inv.payload {b : Block} (H : Inv W dirs self bs others s) (hb : b ∈ bs)
    (w : Wrote W dirs (self.pages s.cr3) m s s')
    (hm : ∀ a, a ∉ b.payload 40 → m a = self.bytes s a) :
    Inv W dirs self bs others s' ∧ ∀ es ⊆ bs, b ∉ es → Moves self self es s s' := by
  have hl : Listed HeapBlock.layout (2 ^ 39) (self.pages s.cr3) s.cr3 m bs := by
    refine H.listed.extend (fun e he i hi => hm _ ?_) (List.Subset.refl _)
    have hi : i < 40 := hi
    rw [Block.mem_payload]
    by_cases hne : b = e
    · rw [hne]; omega
    · have := H.apart hb he hne
      omega
  obtain ⟨h1, h2⟩ := H.wrote (SameLists.refl self) w hl rfl (fun _ => rfl) H.aligned
  refine ⟨h1, fun es hes hnot => ⟨w.cr3, fun e he a ha => ?_⟩⟩
  have ha : e.addr + 40 ≤ a ∧ a < e.addr + 40 + e.size := ha
  have := H.apart hb (hes he) fun hc => hnot (hc ▸ he)
  rw [h2]
  refine hm a ?_
  rw [Block.mem_payload]
  omega

/-- The data of a block lies on owned pages. -/
theorem Inv.covers_payload {b : Block} (H : Inv W dirs self bs others s) (hb : b ∈ bs)
    (hk : k ≤ b.size) : Covers (self.pages s.cr3) s.cr3 (b.addr + 40) k :=
  (H.listed.covers b hb).mono (by omega) (by change _ ≤ b.addr + (40 + b.size); omega)

/-- What `realloc` of the block `b` to `k` bytes leaves of the data. -/
structure Carried (heap heap' : Heap) (bs bs' : List Block) (b : Block) (k newSize r : Nat)
    (s s' : Machine) : Prop where
  rest : Moves heap heap' ((used bs).erase b) s s'
  holds : r ≠ 0 → ∃ c ∈ used bs', r = c.addr + 40 ∧ k ≤ c.size
  copied : r ≠ 0 → ∀ i < min b.size k, heap'.bytes s' (r + i) = heap.bytes s (b.addr + 40 + i)
  refused : r = 0 → newSize ≠ 0 → bs' = bs ∧ Moves heap heap' (used bs) s s'

/-- A block in use is cut by `realloc`. -/
theorem reallocCut_run {b : Block} (H : Inv W dirs self (xs ++ b :: ys) others s)
    (hfree : b.free = false) (hk : k + 56 < b.size) (hk8 : k % 8 = 0) :
    ∃ self' s', (splitBlock self b.addr k).run s = (.ok self', s') ∧
      Inv W dirs self' (xs ++ FreeList.split 40 16 k b ++ ys) others s' ∧
      Moves self self' (⟨b.addr, k, false⟩ :: (used (xs ++ b :: ys)).erase b) s s' ∧
      s' = { s with ram := s'.ram } ∧ SameLists self self' ∧
      self'.totalAllocated = self.totalAllocated ∧
      self'.totalFree = add64 self.totalFree 40 := by
  obtain ⟨s1, m, hrun, w, l, hd⟩ :=
    heapBlock_lawful.splitBlock_run (Wrote.refl H.space) H.listed (k := k) (by omega)
  obtain ⟨self', hrun', hlists, halloc, hfreeN⟩ := @splitBlock_run _ _ self _ _ _ hrun
  rw [decide_eq_true (by rw [HeapBlock.layout_hd]; omega), if_pos rfl] at hfreeN
  obtain ⟨h1, h2⟩ := H.wrote hlists w l (headAddr_split 0) cover_split
    (H.aligned.split (by decide) hk8)
  refine ⟨self', s1, hrun', h1, ⟨w.cr3, ?_⟩, w.eq, hlists, halloc, hfreeN⟩
  rw [h2]
  refine hd.subset (List.cons_subset_cons _ fun e he => ?_)
  have he := (used_erase_perm hfree).subset he
  exact List.mem_append.mpr ((List.mem_append.mp he).imp (fun he => (mem_used.mp he).1)
    fun he => (mem_used.mp he).1)

/-- `realloc` of a block in use, after its checks. -/
theorem realloc_run_used {b : Block} (H : Inv W dirs self bs others s) (hb : b ∈ used bs)
    {newSize : Nat} (h0 : newSize ≠ 0) :
    (realloc self (b.addr + 40) newSize).run s =
      (if alignUp newSize ≤ b.size then
        if add64 (alignUp newSize) minBlockSize < b.size then do
          let self ← splitBlock self b.addr (alignUp newSize)
          return (b.addr + 40, { self with
            totalAllocated := sub64 self.totalAllocated (sub64 b.size (alignUp newSize))
            totalFree := add64 self.totalFree (sub64 b.size (alignUp newSize)) })
        else return (b.addr + 40, self)
      else do
        let r ← malloc self (alignUp newSize)
        if r.1 = 0 then
          return (0, r.2)
        memcpy r.1 (b.addr + 40) b.size
        let self ← free r.2 (b.addr + 40)
        return (r.1, self)).run s := by
  obtain ⟨hmem, hfree⟩ := mem_used.mp hb
  have hw := Wrote.refl H.space
  obtain ⟨nx, pv, hnode⟩ := H.listed.blocks.chain.header hmem
  have hcov := H.listed.header hmem
  have hfrom : heapBlock.fromData (b.addr + 40) = b.addr :=
    heapBlock_lawful.fromData_eq H.listed hmem
  have hvalid : (HeapBlock.isValid b.addr).run s = (.ok true, s) :=
    heapBlock_lawful.isValid_run hw hcov hnode
  have hisFree : (HeapBlock.isFree b.addr).run s = (.ok b.free, s) :=
    heapBlock_lawful.isFree_run hw hcov hnode
  have hsize : (HeapBlock.size b.addr).run s = (.ok b.size, s) :=
    heapBlock_lawful.size_run hw hcov hnode
  rw [realloc, if_neg (by omega), if_neg h0]
  simp only [hfrom]
  exact (Prog.run_bind_to hvalid (if_neg (by decide))).trans
    ((Prog.run_bind_to hisFree (if_neg (by rw [hfree]; decide))).trans
      (Prog.run_bind_to hsize rfl))

/-- The counters of a block that is cut. -/
theorem Tallied.cut {self1 : Heap} {b : Block} (hfree : b.free = false) (hk : k + 56 < b.size)
    (hlists : SameLists self self1) (halloc : self1.totalAllocated = self.totalAllocated)
    (hfreeN : self1.totalFree = add64 self.totalFree 40) (hsame : SameLists self1 self')
    (ha : self'.totalAllocated = sub64 self1.totalAllocated (b.size - k))
    (hf : self'.totalFree = add64 self1.totalFree (b.size - k)) :
    Tallied self self' (xs ++ b :: ys) (xs ++ FreeList.split 40 16 k b ++ ys) := by
  have h1 := @usedSize_split 40 16 k xs ys _ hfree (by omega)
  have h2 := @freeSize_split 40 16 k xs ys _ hfree (by omega)
  have h3 : (xs ++ FreeList.split 40 16 k b ++ ys).length = (xs ++ b :: ys).length + 1 := by
    rw [FreeList.split, if_neg (by omega)]
    simp
    omega
  refine ⟨?_, ?_, fun _ => ⟨ha ▸ sub64_lt .., hf ▸ add64_lt ..⟩⟩
  · rw [ha, halloc]
    unfold sub64
    omega
  · rw [hf, hfreeN, hsame.regions, hlists.regions]
    unfold add64
    omega

/-- `realloc` to a size that the block holds returns the same pointer; the block is cut when that
leaves one. -/
theorem reallocInPlace_run {b : Block} (H : Inv W dirs self (xs ++ b :: ys) others s)
    (hfree : b.free = false) {newSize : Nat} (h0 : newSize ≠ 0) (hfit : alignUp newSize ≤ b.size) :
    ∃ bs' self' s', (realloc self (b.addr + 40) newSize).run s = (.ok (b.addr + 40, self'), s') ∧
      bs' = (if alignUp newSize + 56 < b.size then
        xs ++ FreeList.split 40 16 (alignUp newSize) b ++ ys else xs ++ b :: ys) ∧
      Inv W dirs self' bs' others s' ∧
      Moves self self' (⟨b.addr, alignUp newSize, false⟩ :: (used (xs ++ b :: ys)).erase b) s s' ∧
      s' = { s with ram := s'.ram } ∧ Tallied self self' (xs ++ b :: ys) bs' := by
  have hmod := alignUp_mod newSize
  have hmem : b ∈ xs ++ b :: ys := by simp
  have htop := H.listed.top b hmem
  have hadd : add64 (alignUp newSize) minBlockSize = alignUp newSize + 56 := by
    have h2 : minBlockSize = 56 := rfl
    exact add64_eq (by omega)
  rw [realloc_run_used H (mem_used.mpr ⟨hmem, hfree⟩) h0, if_pos hfit, hadd]
  generalize alignUp newSize = k at hmod hfit ⊢
  by_cases hcut : k + 56 < b.size
  · rw [if_pos hcut, if_pos hcut]
    obtain ⟨self1, s', hrun, hinv, hmoves, heq, hlists, halloc, hfreeN⟩ :=
      reallocCut_run H hfree hcut (by omega)
    rw [sub64_eq hfit (by omega), Prog.run_bind_ok hrun]
    obtain ⟨self', hself'⟩ : ∃ self', self' = { self1 with
        totalAllocated := sub64 self1.totalAllocated (b.size - k)
        totalFree := add64 self1.totalFree (b.size - k) } := ⟨_, rfl⟩
    have hsame : SameLists self1 self' := by
      rw [hself']
      exact ⟨rfl, rfl⟩
    refine ⟨_, self', s', ?_, rfl, hinv.sameLists hsame, hmoves.sameLists hsame, heq,
      .cut hfree hcut hlists halloc hfreeN hsame (by rw [hself']) (by rw [hself'])⟩
    rw [Prog.run_pure, hself']
  · rw [if_neg hcut, if_neg hcut]
    exact ⟨_, self, s, Prog.run_pure _ s, rfl, H, Moves.refl .., rfl, .refl ..⟩

/-- `realloc` to more bytes than the block holds: a new block, a copy, and the old block freed. -/
theorem reallocMove_safe {b : Block} (H : Inv W dirs self bs others s) (hb : b ∈ used bs)
    {newSize : Nat} (h0 : newSize ≠ 0) (hlt : b.size < alignUp newSize)
    (hs : Expandable newSize) :
    Prog.Safe (Promise W) Trap.IsDirectMap (realloc self (b.addr + 40) newSize) s fun r s' =>
      ∃ bs' others', Inv W dirs r.2 bs' others' s' ∧
        Resized 40 (alignUp newSize) newSize bs b bs' r.1 ∧
        Carried self r.2 bs bs' b (alignUp newSize) newSize r.1 s s' ∧
        (FitsExactly 40 16 (alignUp newSize) bs → Tallied self r.2 bs bs') := by
  obtain ⟨hmem, hfree⟩ := mem_used.mp hb
  have hup : alignUp (alignUp newSize) = alignUp newSize :=
    alignUp_of_aligned (by unfold Expandable at hs; omega) (alignUp_mod newSize)
  refine Prog.Safe.of_run_eq (realloc_run_used H hb h0) ?_
  rw [if_neg (by omega)]
  refine Prog.Safe.bind (@malloc_safe _ _ _ _ _ _ H (alignUp newSize)
      (by rw [Expandable, hup]; exact hs)) ?_
  rintro ⟨ptr, self1⟩ s1 - ⟨bs1, others1, H1, hserved, hmoves, htally, -⟩
  rw [hup] at hserved htally
  have herase : (used bs).erase b ⊆ used bs := List.erase_subset
  simp only at H1 hmoves hserved htally ⊢
  by_cases hptr : ptr = 0
  · rw [if_pos hptr]
    rcases hserved.used_cases with ⟨-, rfl⟩ | ⟨_, c, _, -, -, hc, -⟩
    · exact Prog.Safe.pure ⟨bs1, others1, H1, .refused h0,
        ⟨hmoves.subset herase, fun h => absurd rfl h, fun h => absurd rfl h,
          fun _ _ => ⟨rfl, hmoves⟩⟩,
        fun hexact => htally fun _ => hexact⟩
    · omega
  rw [if_neg hptr]
  obtain ⟨c, rfl, hck, hperm1⟩ := hserved.exists_block hptr
  have hcnot : c ∉ used bs := (List.nodup_cons.mp (hperm1.nodup_iff.mp (nodup_used H1))).1
  have hc1 : c ∈ used bs1 := hperm1.symm.subset List.mem_cons_self
  have hb1 := hserved.used_subset hb
  have hbc : b ≠ c := fun h => hcnot (h ▸ hb)
  have hcm := (mem_used.mp hc1).1
  have hbm := (mem_used.mp hb1).1
  have hap := H1.apart hbm hcm hbc
  obtain ⟨s2, hrun2, w2⟩ := memcpy_run H1.space (H1.covers_payload hcm (k := b.size) (by omega))
    (H1.covers_payload hbm (Nat.le_refl _)) (by omega)
  obtain ⟨H2, hm2⟩ := H1.payload hcm w2 fun a ha => by
    rw [Block.mem_payload] at ha
    exact copy_of_not_mem (by omega)
  have hbytes2 : self1.bytes s2 = copy (self1.bytes s1) (c.addr + 40) (b.addr + 40) b.size := by
    rw [bytes, w2.cr3, w2.shows, bytes]
  refine Prog.Safe.bind_run hrun2 ?_
  obtain ⟨us, vs, rfl⟩ := List.append_of_mem hbm
  obtain ⟨self3, s3, hrun3, H3, hmoves3, htally3, -⟩ := free_run H2 hfree
  have hc3 : c ∈ (used (us ++ b :: vs)).erase b :=
    (List.mem_erase_of_ne fun h => hbc h.symm).mpr hc1
  refine Prog.Safe.bind_run hrun3 (Prog.Safe.pure ⟨_, others1, H3, .moved h0 hserved hptr rfl,
    ⟨?_, fun _ => ⟨c, (used_free hfree).symm.subset hc3, rfl, by omega⟩, fun _ i hi => ?_,
      fun h => absurd h hptr⟩,
    fun hexact => (htally fun _ => hexact).trans htally3⟩)
  · have hsub1 : (used bs).erase b ⊆ used (us ++ b :: vs) :=
      fun e he => hserved.used_subset (herase he)
    have hmv2 := hm2 ((used bs).erase b) (fun e he => (mem_used.mp (hsub1 he)).1)
      fun hc => hcnot (herase hc)
    refine ((hmoves.subset herase).trans hmv2).trans (hmoves3.subset fun e he => ?_)
    have hne : e ≠ b := fun h => by
      have := (nodup_used H).mem_erase_iff.mp he
      exact this.1 h
    exact (List.mem_erase_of_ne hne).mpr (hsub1 he)
  · -- the copy survives the `free`, and its source the `malloc`
    have hi : i < b.size := lt_of_lt_of_le hi (Nat.min_le_left ..)
    have h1 : self3.bytes s3 (c.addr + 40 + i) = self1.bytes s2 (c.addr + 40 + i) :=
      hmoves3.data c hc3 _ (Block.mem_payload.mpr
        ⟨Nat.le_add_right .., Nat.add_lt_add_left (by omega) _⟩)
    have h2 : self1.bytes s1 (b.addr + 40 + i) = self.bytes s (b.addr + 40 + i) :=
      hmoves.data b hb _ (Block.mem_payload.mpr
        ⟨Nat.le_add_right .., Nat.add_lt_add_left hi _⟩)
    rw [h1, hbytes2, copy_of_mem (by omega) (by omega), ← h2]
    congr 1
    omega

theorem realloc_safe {b : Block} (H : Inv W dirs self bs others s) (hb : b ∈ used bs)
    {newSize : Nat} (hs : Expandable newSize) :
    Prog.Safe (Promise W) Trap.IsDirectMap (realloc self (b.addr + 40) newSize) s fun r s' =>
      ∃ bs' others', Inv W dirs r.2 bs' others' s' ∧
        Resized 40 (alignUp newSize) newSize bs b bs' r.1 ∧
        Carried self r.2 bs bs' b (alignUp newSize) newSize r.1 s s' ∧
        ((newSize ≠ 0 → b.size < alignUp newSize → FitsExactly 40 16 (alignUp newSize) bs) →
          Tallied self r.2 bs bs') := by
  obtain ⟨hmem, hfree⟩ := mem_used.mp hb
  obtain ⟨xs, ys, hbs⟩ := List.append_of_mem hmem
  by_cases h0 : newSize = 0
  · rw [realloc, if_neg (by omega), if_pos h0]
    subst hbs
    obtain ⟨self', s', hrun, hinv, hmoves, htally, -⟩ := free_run H hfree
    exact Prog.Safe.bind_run hrun (Prog.Safe.pure ⟨_, others, hinv, .freed h0 rfl,
      ⟨hmoves, fun h => absurd rfl h, fun h => absurd rfl h, fun _ h => absurd h0 h⟩,
      fun _ => htally⟩)
  by_cases hfit : alignUp newSize ≤ b.size
  · -- the block is kept
    subst hbs
    obtain ⟨bs', self', s', hrun, hbs', hinv, hmoves, -, htally⟩ :=
      reallocInPlace_run H hfree h0 hfit
    refine Prog.Safe.of_run hrun fun _ => ⟨bs', others, hinv, ?_,
      ⟨hmoves.subset (List.subset_cons_self _ _), fun _ => ?_, fun _ i hi => ?_,
        fun h => by simp only at h; omega⟩, fun _ => htally⟩
    · by_cases hcut : alignUp newSize + 56 < b.size
      · rw [if_pos hcut] at hbs'
        exact hbs' ▸ .cut h0 hcut rfl
      · rw [if_neg hcut] at hbs'
        exact hbs' ▸ .kept h0
    · by_cases hcut : alignUp newSize + 56 < b.size
      · rw [if_pos hcut] at hbs'
        refine ⟨⟨b.addr, alignUp newSize, false⟩, ?_, rfl, Nat.le_refl _⟩
        rw [hbs', used_split hfree, if_neg (by omega)]
        simp
      · rw [if_neg hcut] at hbs'
        exact ⟨b, hbs' ▸ hb, rfl, hfit⟩
    · have hi : i < alignUp newSize := lt_of_lt_of_le hi (Nat.min_le_right ..)
      exact hmoves.data _ List.mem_cons_self _ (Block.mem_payload.mpr
        ⟨Nat.le_add_right .., Nat.add_lt_add_left hi _⟩)
  · exact (reallocMove_safe H hb h0 (by omega) hs).mono fun _ _ _ ⟨bs', others', h1, h2, h3, h4⟩ =>
      ⟨bs', others', h1, h2, h3, fun hexact => h4 (hexact h0 (by omega))⟩

/-- A product that wraps is refused. -/
theorem calloc_run_wrap {num size : Nat} (h : 2 ^ 64 ≤ num * size) :
    (calloc self num size).run s = (.ok (0, self), s) := by
  have hnum : 0 < num := Nat.pos_of_ne_zero fun h0 => by simp [h0] at h
  have hlt : mul64 num size < 2 ^ 64 := mul64_lt num size
  rw [calloc, if_pos ⟨hnum, Nat.ne_of_lt (Nat.div_lt_of_lt_mul (by omega))⟩, Prog.run_pure]

/-- `calloc` is `malloc` of a product that does not wrap, cleared. -/
theorem calloc_eq {num size : Nat} (h : num * size < 2 ^ 64) :
    calloc self num size = (do
      let r ← malloc self (num * size)
      if r.1 = 0 then
        return r
      memset r.1 0 (num * size)
      return r) := by
  rw [calloc, mul64_eq h, if_neg]
  rintro ⟨h0, h1⟩
  exact h1 (Nat.mul_div_cancel_left size h0)

/-- `calloc` is `malloc` of the product, cleared; a product that wraps is refused. -/
theorem calloc_safe (H : Inv W dirs self bs others s) {num size : Nat}
    (hs : num * size < 2 ^ 64 → Roundable (num * size)) :
    Prog.Safe (Promise W) Trap.IsDirectMap (calloc self num size) s fun r s' =>
      ∃ bs' others', Inv W dirs r.2 bs' others' s' ∧
        Served 40 (alignUp (num * size)) bs bs' r.1 ∧ Moves self r.2 (used bs) s s' ∧
        ((num * size ≠ 0 → num * size < 2 ^ 64 → FitsExactly 40 16 (alignUp (num * size)) bs) →
          Tallied self r.2 bs bs') := by
  by_cases hlt : num * size < 2 ^ 64
  swap
  · exact Prog.Safe.of_run (calloc_run_wrap (Nat.le_of_not_lt hlt)) fun _ =>
      ⟨bs, others, H, .refused, Moves.refl .., fun _ => .refl self bs⟩
  have hs := hs hlt
  rw [calloc_eq hlt]
  refine Prog.Safe.bind (malloc_safe H hs.2) ?_
  rintro ⟨ptr, self1⟩ s1 - ⟨bs1, others1, H1, hserved, hmoves, htally, -⟩
  simp only at H1 hmoves hserved htally ⊢
  have htally := fun hexact : num * size ≠ 0 → num * size < 2 ^ 64 →
    FitsExactly 40 16 (alignUp (num * size)) bs => htally fun h => hexact h hlt
  by_cases hptr : ptr = 0
  · rw [if_pos hptr]
    exact Prog.Safe.pure ⟨bs1, others1, H1, hserved, hmoves, htally⟩
  rw [if_neg hptr]
  have hle := le_alignUp hs.1
  obtain ⟨c, rfl, hck, hperm1⟩ := hserved.exists_block hptr
  have hcnot : c ∉ used bs := (List.nodup_cons.mp (hperm1.nodup_iff.mp (nodup_used H1))).1
  have hc1 : c ∈ used bs1 := hperm1.symm.subset List.mem_cons_self
  have hcm := (mem_used.mp hc1).1
  obtain ⟨s2, hrun2, w2⟩ := memset_run H1.space (H1.covers_payload hcm (k := num * size)
    (by omega)) 0
  obtain ⟨H2, hm2⟩ := H1.payload hcm w2 fun a ha => by
    rw [Block.mem_payload] at ha
    exact fill_of_not_mem (by omega)
  have hmv2 := hm2 (used bs) (fun e he => (mem_used.mp (hserved.used_subset he)).1) hcnot
  exact Prog.Safe.bind_run hrun2 (Prog.Safe.pure
    ⟨bs1, others1, H2, hserved, hmoves.trans hmv2, htally⟩)

end Heap
end
end Coronel
