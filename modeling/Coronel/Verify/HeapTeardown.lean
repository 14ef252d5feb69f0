import Coronel.Verify.HeapBare

/-!
# Destroying a heap

`~heap` unmaps `heap_size_` bytes from `heap_start_`. The regions of later expansions count in
`heap_size_`, but they lie where `virt` found room for them. What the destructor unmaps is what was
mapped for the heap exactly when all its regions lie in that one range.
-/

namespace Coronel

open Theory Theory.Bytes

namespace Heap

/-- From `s` to `s'` the pages of the heap have gone, and no other translation has changed. -/
structure TornDown (dirs : List Nat) (heap : Heap) (s s' : Machine) : Prop where
  absent : ∀ pg ∈ heap.pages s.cr3, walk s'.ram pg.dir (4096 * pg.number) = none
  others : ∀ d ∈ dirs, ∀ a, ⟨d, a % 2 ^ 48 / 4096⟩ ∉ heap.pages s.cr3 →
    translate s'.ram d a = translate s.ram d a

/-- The regions of the heap lie in the range that is unmapped. -/
def Contained (heap : Heap) : Prop := ∀ r ∈ heap.regions,
  heap.heapStart ≤ r.start ∧ r.start + r.size ≤ heap.heapStart + heap.heapSize

/-- No page of the range that is unmapped is present. -/
def Absent (heap : Heap) (s : Machine) : Prop := ∀ n, heap.heapStart ≤ 4096 * n →
  4096 * n < heap.heapStart + heap.heapSize → walk s.ram s.cr3 (4096 * n) = none

/-- `heap_size_` is the size of all regions, and `heap_start_` the start of one. -/
structure Sized (heap : Heap) : Prop where
  total : heap.heapSize = (heap.regions.map (·.size)).sum % 2 ^ 64
  start : ∃ r ∈ heap.regions, r.start = heap.heapStart

/-- A heap that has been built, and the calls after it: its first pages were mapped, or they were
not. -/
inductive Standing (W : Nat) (dirs : List Nat) (heap : Heap) (s : Machine) : Prop
  | reached {live} : Reached W dirs heap s live → Standing W dirs heap s
  | bare : BareRun Stuck W heap s → Space W dirs [] s → Standing W dirs heap s

/-- The two heaps have the same extent. -/
structure SameExtent (heap heap' : Heap) : Prop where
  heapStart : heap'.heapStart = heap.heapStart
  heapSize : heap'.heapSize = heap.heapSize
  regions : heap'.regions = heap.regions

section
variable {W : Nat} {dirs : List Nat} {owned : List Page} {s s' : Machine} {self self' : Heap}
  {bs : List Block} {others : List Span} {live : List Nat} {p n size minSize ptr newSize block : Nat}
  {call : Call}

/-! ### The size of a heap -/

theorem SameExtent.sized (h : SameExtent self self') (hs : Sized self) : Sized self' :=
  ⟨by rw [h.heapSize, h.regions, hs.total], by rw [h.regions, h.heapStart]; exact hs.start⟩

theorem splitBlock_returns :
    Prog.Returns (splitBlock self block size) (SameExtent self) := by
  rw [splitBlock]
  exact .bind (.any _) fun _ _ => .ite (.pure ⟨rfl, rfl, rfl⟩) (.pure ⟨rfl, rfl, rfl⟩)

theorem coalesceBlock_returns : Prog.Returns (coalesceBlock self block) (SameExtent self) := by
  rw [coalesceBlock]
  exact .bind (.any _) fun _ _ => .pure ⟨rfl, rfl, rfl⟩

theorem free_returns : Prog.Returns (free self ptr) (SameExtent self) := by
  rw [free]
  refine .bind (.any _) fun o _ => ?_
  cases o with
  | none => exact .pure ⟨rfl, rfl, rfl⟩
  | some r => exact .pure ⟨rfl, rfl, rfl⟩

theorem mallocFrom_returns :
    Prog.Returns (mallocFrom self block size) fun r => SameExtent self r.2 := by
  rw [mallocFrom]
  exact .bind splitBlock_returns fun _ h => .bind (.any _) fun _ _ =>
    .pure ⟨h.heapStart, h.heapSize, h.regions⟩

/-- A new region counts in the size. -/
theorem Sized.expandHeap (hs : Sized self) :
    Prog.Returns (expandHeap self minSize) fun r => Sized r.2 := by
  rw [Heap.expandHeap]
  refine .bind (.any _) fun region _ => .ite (.pure hs) (.bind (.any _) fun mapped _ =>
    .ite (.bind (.any _) fun _ _ => .pure hs) (.bind (.any _) fun _ _ => .bind (.any _) fun _ _ =>
      .bind coalesceBlock_returns fun _ h => .pure (h.sized ⟨?_, ?_⟩)))
  · have htotal := hs.total
    simp only [List.map_cons, List.sum_cons]
    unfold add64
    omega
  · obtain ⟨r, hr, hstart⟩ := hs.start
    exact ⟨r, List.mem_cons_of_mem _ hr, hstart⟩

theorem Sized.malloc (hs : Sized self) : Prog.Returns (malloc self size) fun r => Sized r.2 := by
  rw [Heap.malloc]
  refine .ite (.pure hs) (.bind (.any _) fun block _ => .ite ?_ (.bind hs.expandHeap fun r hr => ?_))
  · exact mallocFrom_returns.mono fun _ h => h.sized hs
  · refine .ite (.pure hr) (.bind (.any _) fun block _ => .ite (.pure hr) ?_)
    exact mallocFrom_returns.mono fun _ h => h.sized hr

theorem Sized.calloc {num : Nat} (hs : Sized self) :
    Prog.Returns (calloc self num size) fun r => Sized r.2 := by
  rw [Heap.calloc]
  exact .ite (.pure hs) (.bind hs.malloc fun _ h => .ite (.pure h) (.bind (.any _) fun _ _ => .pure h))

theorem Sized.realloc (hs : Sized self) :
    Prog.Returns (realloc self ptr newSize) fun r => Sized r.2 := by
  rw [Heap.realloc]
  refine .ite hs.malloc (.ite (.bind free_returns fun _ h => .pure (h.sized hs)) ?_)
  refine .bind (.any _) fun valid _ => .ite (.pure hs) ?_
  refine .bind (.any _) fun isFree _ => .ite (.pure hs) ?_
  refine .bind (.any _) fun oldSize _ => .ite (.ite ?_ (.pure hs)) ?_
  · refine .bind splitBlock_returns fun self' h => .pure ?_
    dsimp only
    refine SameExtent.sized ?_ hs
    exact ⟨h.heapStart, h.heapSize, h.regions⟩
  · refine .bind hs.malloc fun _ h => .ite (.pure h) ?_
    exact .bind (.any _) fun _ _ => .bind free_returns fun _ h' => .pure (h'.sized h)

theorem Sized.call_returns (hs : Sized self) : Prog.Returns (self.call call) fun r => Sized r.2 := by
  cases call with
  | malloc size => exact hs.malloc
  | calloc num size => exact hs.calloc
  | realloc ptr newSize => exact hs.realloc
  | free ptr => exact .bind free_returns fun _ h => .pure (h.sized hs)

/-- The constructor that has mapped its pages. -/
theorem new_returns {start : Nat} : Prog.Returns (Heap.new start size) fun self =>
    self.firstBlock ≠ 0 → Sized self := by
  rw [Heap.new]
  refine .bind (.any _) fun mapped _ => .ite (.pure fun h => absurd rfl h) ?_
  refine .bind (.any _) fun _ _ => .pure fun _ => ?_
  have hlt := alignUp_lt size
  dsimp only
  generalize alignUp size = e at hlt ⊢
  refine ⟨?_, ⟨start, e⟩, List.mem_singleton.mpr rfl, rfl⟩
  rw [List.map_singleton, List.sum_singleton]
  exact (Nat.mod_eq_of_lt hlt).symm

theorem RunWhere.sized {ok : Heap → Machine → Call → Prop} (h : RunWhere ok W dirs self s live) :
    Sized self := by
  induction h with
  | create _ _ _ hrun _ hfirst => exact new_returns _ _ _ hrun hfirst
  | call _ _ _ hrun _ ih => exact ih.call_returns _ _ _ hrun
  | meanwhile _ _ ih => exact ih

theorem Reached.sized (h : Reached W dirs self s live) : Sized self := by
  induction h with
  | run h => exact h.sized
  | call _ _ _ hrun _ ih => exact ih.call_returns _ _ _ hrun
  | meanwhile _ _ ih => exact ih

/-! ### The range and the regions -/

/-- The regions of a heap are disjoint. -/
theorem Inv.cover_le_one (H : Inv W dirs self bs others s) (a : Nat) :
    Theory.cover self.regions a ≤ 1 := by
  obtain ⟨v, -, hvi⟩ := H.virt
  have h1 := hvi.cover a
  have h2 := Span.ind_le_one ⟨0, Virt.vaddrSize⟩ a
  rw [cover_append] at h1
  omega

theorem mod_sum_size {rs : List Span} (h : ∀ r ∈ rs, r.size % 4096 = 0) :
    (rs.map (·.size)).sum % 4096 = 0 := by
  induction rs with
  | nil => rfl
  | cons r rs ih =>
    obtain ⟨h1, h2⟩ := List.forall_mem_cons.mp h
    have := ih h2
    rw [List.map_cons, List.sum_cons]
    omega

/-- The range that is unmapped, in pages. -/
theorem Inv.paged (H : Inv W dirs self bs others s) (hs : Sized self) :
    self.heapSize = (self.regions.map (·.size)).sum ∧
    ∃ p n, self.heapStart = 4096 * p ∧ self.heapSize = 4096 * n ∧ p + n ≤ 2 ^ 27 := by
  obtain ⟨v, -, hvi⟩ := H.virt
  have hal : ∀ r ∈ self.regions, r.start % 4096 = 0 ∧ r.size % 4096 = 0 ∧ 0 < r.size :=
    fun r hr => hvi.live_aligned r (List.mem_append_left _ hr)
  have htop : ∀ r ∈ self.regions, r.start + r.size ≤ 2 ^ 38 :=
    fun r hr => hvi.live_bounded (List.mem_append_left _ hr)
  have hsum := sum_size_le htop H.cover_le_one
  have hmod := mod_sum_size fun r hr => (hal r hr).2.1
  have htotal := hs.total
  obtain ⟨r, hr, hstart⟩ := hs.start
  have h1 := hal r hr
  have h2 := htop r hr
  have heq : self.heapSize = (self.regions.map (·.size)).sum := by omega
  exact ⟨heq, self.heapStart / 4096, self.heapSize / 4096, by omega, by omega, by omega⟩

/-! ### The destructor -/

/-- The destructor unmaps the pages of its range, in the current directory. -/
theorem destroy_run (H : Space W dirs [] s) (hstart : self.heapStart = 4096 * p)
    (hsize : self.heapSize = 4096 * n) (hp : p + n ≤ 2 ^ 27) :
    ∃ s', (destroy self).run s = (.ok (), s') ∧ WalksKept dirs s.cr3 p n s s' ∧
      ∀ q, p ≤ q → q < p + n → walk s'.ram s.cr3 (4096 * q) = none := by
  have hn : alignUp (4096 * n) / frameSize = n := by
    rw [alignUp_of_aligned (by omega) (by omega), frameSize]
    omega
  have hdir : ∀ s' : Machine, s'.cr3 = s.cr3 → getCurrentPage.run s' = (.ok s.cr3, s') :=
    fun s' hs' => by rw [run_getCurrentPage, hs']
  obtain ⟨s', hrun, -, -, hw⟩ := unmapPages_run (i := 0) (n := n) (p := p) H H.tables.cr3 hdir
    (fun _ _ => List.not_mem_nil) (by omega)
  refine ⟨s', ?_, hw, unmapPages_absent (i := 0) H H.tables.cr3 hdir (by omega) hrun⟩
  rw [destroy, hstart, hsize, hn]
  exact hrun

/-- What is left is right exactly when the pages of the heap lie in the range, and no other page of
the range was present. -/
theorem tornDown_iff_pages (H : Space W dirs (self.pages s.cr3) s)
    (hw : WalksKept dirs s.cr3 p n s s')
    (habsent : ∀ q, p ≤ q → q < p + n → walk s'.ram s.cr3 (4096 * q) = none)
    (hp : p + n ≤ 2 ^ 27) : TornDown dirs self s s' ↔
      (∀ pg ∈ self.pages s.cr3, p ≤ pg.number ∧ pg.number < p + n) ∧
      ∀ q, p ≤ q → q < p + n → ⟨s.cr3, q⟩ ∉ self.pages s.cr3 →
        walk s.ram s.cr3 (4096 * q) = none := by
  have hcr := H.tables.cr3
  constructor
  · intro h
    refine ⟨fun pg hpg => ?_, fun q hq1 hq2 hq => ?_⟩
    · -- a page outside the range is still mapped
      by_contra hout
      have hlow := H.low pg hpg
      have hkept := hw pg.dir (H.dir pg hpg) (4096 * pg.number) (by omega)
      exact H.mapped pg hpg (hkept.symm.trans (h.absent pg hpg))
    · have hpage : 4096 * q % 2 ^ 48 / 4096 = q := by omega
      have h1 := h.others s.cr3 hcr (4096 * q) (by rwa [hpage])
      rw [translate, habsent q hq1 hq2] at h1
      exact Option.map_eq_none_iff.mp h1.symm
  · rintro ⟨hin, hrest⟩
    refine ⟨fun pg hpg => ?_, fun d hd a ha => ?_⟩
    · obtain ⟨h1, h2⟩ := hin pg hpg
      obtain ⟨hdir, -⟩ := mem_pages.mp hpg
      rw [hdir]
      exact habsent pg.number h1 h2
    · by_cases hq : d = s.cr3 ∧ p ≤ a % 2 ^ 48 / 4096 ∧ a % 2 ^ 48 / 4096 < p + n
      · obtain ⟨rfl, h1, h2⟩ := hq
        have hpage : ∀ ram, walk ram s.cr3 a = walk ram s.cr3 (4096 * (a % 2 ^ 48 / 4096)) :=
          fun ram => walk_congr_page (by omega)
        rw [translate, translate, hpage, hpage, habsent _ h1 h2, hrest _ h1 h2 ha]
      · rw [translate, translate, hw d hd a hq]

/-- The regions lie in the range exactly when their pages do. -/
theorem Inv.contained_iff (H : Inv W dirs self bs others s) (hstart : self.heapStart = 4096 * p)
    (hsize : self.heapSize = 4096 * n) : Contained self ↔
      ∀ pg ∈ self.pages s.cr3, p ≤ pg.number ∧ pg.number < p + n := by
  obtain ⟨v, -, hvi⟩ := H.virt
  constructor
  · intro h pg hpg
    obtain ⟨-, r, hr, h1, h2⟩ := mem_pages.mp hpg
    have h3 := hvi.live_aligned r (List.mem_append_left _ hr)
    have h4 := h r hr
    omega
  · intro h r hr
    have h3 := hvi.live_aligned r (List.mem_append_left _ hr)
    have hfirst := h ⟨s.cr3, r.start / 4096⟩ (mem_pages.mpr ⟨rfl, r, hr, Nat.le_refl _, by omega⟩)
    have hlast := h ⟨s.cr3, r.start / 4096 + r.size / 4096 - 1⟩
      (mem_pages.mpr ⟨rfl, r, hr, by omega, by omega⟩)
    simp only at hfirst hlast
    omega

/-- Regions that lie in the range fill it, since they are as large together. -/
theorem Inv.mem_pages_of_contained (H : Inv W dirs self bs others s) (h : Contained self)
    (htotal : self.heapSize = (self.regions.map (·.size)).sum)
    (hstart : self.heapStart = 4096 * p) (hsize : self.heapSize = 4096 * n) :
    ∀ q, p ≤ q → q < p + n → ⟨s.cr3, q⟩ ∈ self.pages s.cr3 := by
  obtain ⟨v, -, hvi⟩ := H.virt
  intro q hq1 hq2
  have hcover := cover_eq_ind (r := ⟨self.heapStart, self.heapSize⟩) (a := 4096 * q)
    H.cover_le_one h htotal.symm
  rw [Span.ind_eq_one_iff.mpr (by simp only [Span.mem_mk]; omega)] at hcover
  obtain ⟨r, hr, hmem⟩ := cover_pos_iff.mp (show 0 < Theory.cover self.regions (4096 * q) by omega)
  have h3 := hvi.live_aligned r (List.mem_append_left _ hr)
  rw [Span.mem_iff] at hmem
  exact mem_pages.mpr ⟨rfl, r, hr, by omega, by omega⟩

/-- A heap with its first pages. -/
theorem Inv.destroy_iff (H : Inv W dirs self bs others s) (hs : Sized self) :
    ∃ s', (destroy self).run s = (.ok (), s') ∧ (TornDown dirs self s s' ↔ Contained self) := by
  obtain ⟨htotal, p, n, hstart, hsize, hp⟩ := H.paged hs
  obtain ⟨s', hrun, hw, habsent⟩ :=
    destroy_run (H.space.sublist (List.nil_sublist _)) hstart hsize hp
  refine ⟨s', hrun, ?_⟩
  rw [tornDown_iff_pages H.space hw habsent hp, H.contained_iff hstart hsize]
  refine and_iff_left_of_imp fun hin q hq1 hq2 hq => ?_
  have hcont := (H.contained_iff hstart hsize).mpr hin
  exact absurd (H.mem_pages_of_contained hcont htotal hstart hsize q hq1 hq2) hq

/-- A heap without them. -/
theorem Bare.destroy_iff {dirs' : List Nat} (H : Bare W dirs' self s) (hsp : Space W dirs [] s) :
    ∃ s', (destroy self).run s = (.ok (), s') ∧ (TornDown dirs self s s' ↔ Absent self s) := by
  obtain ⟨p, n, hstart, hsize, hp⟩ := H.paged
  have hpages : ∀ d, self.pages d = [] := fun d => by
    rw [pages, H.regions]
    rfl
  obtain ⟨s', hrun, hw, habsent⟩ := destroy_run hsp hstart hsize (by omega)
  refine ⟨s', hrun, ?_⟩
  rw [tornDown_iff_pages (by rw [hpages]; exact hsp) hw habsent (by omega), hpages]
  constructor
  · rintro ⟨-, h⟩ q hq1 hq2
    exact h q (by omega) (by omega) List.not_mem_nil
  · intro h
    exact ⟨fun _ hpg => absurd hpg List.not_mem_nil,
      fun q hq1 hq2 _ => h q (by omega) (by omega)⟩

/-- **Teardown.** In every state of a heap, destroying it removes its pages and changes no other
translation if and only if all its regions lie in the `heap_size_` bytes from `heap_start_`. A heap
for which nothing was mapped has no regions. There it is that no page of the range is present. -/
theorem Standing.tornDown_iff (h : Standing W dirs self s) :
    ∃ s', (destroy self).run s = (.ok (), s') ∧ (TornDown dirs self s s' ↔
      Contained self ∧ (self.regions = [] → Absent self s)) := by
  cases h with
  | reached h =>
    obtain ⟨bs, others, H, -⟩ := h.inv
    obtain ⟨s', hrun, hiff⟩ := H.destroy_iff h.sized
    refine ⟨s', hrun, hiff.trans (and_iff_left fun hnil => ?_).symm⟩
    obtain ⟨r, hr, -⟩ := h.sized.start
    rw [hnil] at hr
    exact absurd hr List.not_mem_nil
  | bare h hsp =>
    obtain ⟨dirs', H⟩ := h.bare
    obtain ⟨s', hrun, hiff⟩ := H.destroy_iff hsp
    refine ⟨s', hrun, hiff.trans ⟨fun h => ⟨?_, fun _ => h⟩, fun h => h.2 H.regions⟩⟩
    intro r hr
    rw [H.regions] at hr
    exact absurd hr List.not_mem_nil

/-- The one region of a new heap is the range. -/
theorem Sized.contained (hs : Sized self) (H : Inv W dirs self bs others s)
    (hlen : self.regions.length = 1) : Contained self := by
  obtain ⟨r, hr⟩ := List.length_eq_one_iff.mp hlen
  obtain ⟨htotal, -⟩ := H.paged hs
  obtain ⟨r', hr', hstart⟩ := hs.start
  rw [hr, List.map_singleton, List.sum_singleton] at htotal
  rw [hr] at hr'
  obtain rfl := List.mem_singleton.mp hr'
  intro r hmem
  rw [hr] at hmem
  obtain rfl := List.mem_singleton.mp hmem
  omega

theorem Standing.tornDown_iff_new : ∃ self s s', (destroy self).run s = (.ok (), s') ∧
    TornDown [mb 2] self s s' := by
  obtain ⟨self, s, R, H, -, -, -, hlen⟩ := exists_run
  have hreach : Reached (mb 16) [mb 2] self s [] := .run (R _)
  obtain ⟨s', hrun, hiff⟩ := Standing.tornDown_iff (.reached hreach)
  refine ⟨self, s, s', hrun, hiff.mpr ⟨hreach.sized.contained H hlen, fun hnil => ?_⟩⟩
  rw [hnil] at hlen
  cases hlen

/-! ### A region behind another client's -/

/-- With a region, frames and room for the tables, `malloc` expands the heap. -/
theorem Inv.mallocGrown_run {v : Virt} (H : Inv W dirs self bs others s)
    (hv : s.gKernelVirtualManager = some v) (h0 : n ≠ 0) (hn : Roundable n)
    (hfit : FreeList.firstFit (alignUp n) bs = none)
    (hcan : CanGrow s (alignUp n + HeapBlock.sizeofHeapBlock)) (hC : s ∈ Promise W)
    (hroom : s.placement + 4 * alignUp (alignUp n + HeapBlock.sizeofHeapBlock) ≤
      kvirtualAddress + W) (hW : W ≤ directMapSize) :
    ∃ r self' s', (malloc self n).run s = (.ok (r, self'), s') ∧ s' ∈ Promise W ∧
      self'.regions = ⟨(v.alloc (alignUp (alignUp n + HeapBlock.sizeofHeapBlock))).1,
        alignUp (alignUp n + HeapBlock.sizeofHeapBlock)⟩ :: self.regions := by
  have h8 : alignUp n % 8 = 0 := by have := alignUp_mod n; omega
  have h40 : HeapBlock.sizeofHeapBlock = 40 := rfl
  have hexp : alignUp n + HeapBlock.sizeofHeapBlock + 4095 < 2 ^ 64 := hn.2
  have hadd : add64 (alignUp n) HeapBlock.sizeofHeapBlock =
      alignUp n + HeapBlock.sizeofHeapBlock := add64_eq (by omega)
  obtain ⟨self1, s1, hrun1, hC1, hreg⟩ := H.expandHeap_ok hv (by omega) hexp hcan hC hroom hW
  obtain ⟨bs1, others1, H1, hgrown, -⟩ := (expandHeap_safe H (by omega) hexp).ok hrun1 hC1
  obtain ⟨-, -, c, hc, hcs, -, rfl⟩ | ⟨hno, -⟩ := hgrown
  · have hle := le_alignUp hexp
    have hfind := H1.findFreeBlock_run (alignUp n)
    rcases hf1 : FreeList.firstFit (alignUp n) (FreeList.coalesce 40 bs c []) with _ | ⟨xs, b, ys⟩
    · exact absurd hf1 (firstFit_grown hc (by omega))
    · obtain ⟨hne, self2, s2, hrun2, -, -, heq, hlists, -⟩ := H1.mallocFound_run hf1 h8
      rw [hf1] at hfind
      simp only [Option.map_some, Option.getD_some] at hfind
      refine ⟨b.addr + 40, self2, s2, ?_, by rw [heq]; exact hC1, hlists.regions.trans hreg⟩
      rw [malloc, if_neg h0, Prog.run_bind_ok (H.findFreeBlock_run _), hfit, hadd]
      simp only [Option.map_none, Option.getD_none, ne_eq, not_true_eq_false, if_false]
      rw [Prog.run_bind_ok hrun1]
      simp only [Bool.not_true, Bool.false_eq_true, if_false]
      rw [Prog.run_bind_ok hfind, if_neg hne]
      exact hrun2
  · cases hno

/-- Two spans with the same addresses. -/
theorem span_eq {r : Span} {start k : Nat} (hk : 0 < k)
    (h : ∀ a, r.ind a = Span.ind ⟨start, k⟩ a) : r = ⟨start, k⟩ := by
  have hmem : ∀ a, a ∈ r ↔ start ≤ a ∧ a < start + k := fun a => by
    rw [← Span.ind_eq_one_iff, h a, Span.ind_eq_one_iff, Span.mem_mk]
  have h1 := (hmem start).mpr ⟨Nat.le_refl _, by omega⟩
  have h2 := (hmem (start + k - 1)).mpr ⟨by omega, by omega⟩
  have h3 := mt (hmem (start + k)).mp (by omega)
  have h4 := mt (hmem (start - 1)).mp
  cases r
  simp only [Span.mem_mk] at h1 h2 h3 h4
  rw [Span.mk.injEq]
  omega

/-- Another client takes the page behind the first region. The next region of the heap lies behind
that page, and the destructor unmaps 4096 bytes too few of it. -/
theorem not_tornDown : ¬∀ {W : Nat} {dirs : List Nat} {self : Heap} {s s' : Machine},
    Standing W dirs self s → (destroy self).run s = (.ok (), s') → TornDown dirs self s s' := by
  intro hall
  obtain ⟨self, s, R, H, hC, ⟨-, -, hlen⟩, hfree, hv, hpl⟩ :=
    exists_run_frames (k := 5) (by decide)
  obtain ⟨r, hr⟩ := List.length_eq_one_iff.mp hlen
  obtain rfl : r = ⟨4096, 16384⟩ := span_eq (by decide) fun a => by
    have h := H.cover a
    rw [hr] at h
    exact h.symm
  -- the other client
  obtain ⟨u, hu, hvi⟩ := H.virt
  cases hv.symm.trans hu
  have halloc : firstRegions.alloc 4096 = (20480, ⟨[⟨24576, Virt.vaddrSize - 24576⟩]⟩) := by decide
  have hvi1 := @Virt.Inv.alloc _ _ 4096 hvi (by decide) (by decide)
      ⟨_, List.mem_cons_self, by decide, by decide⟩
  rw [halloc] at hvi1
  obtain ⟨v1, hv1⟩ : ∃ v1 : Virt, v1 = ⟨[⟨24576, Virt.vaddrSize - 24576⟩]⟩ := ⟨_, rfl⟩
  rw [← hv1] at hvi1
  obtain ⟨s1, hs1⟩ : ∃ s1, s1 = { s with gKernelVirtualManager := some v1 } := ⟨_, rfl⟩
  have hmean : Meanwhile (mb 16) [mb 2] self [] s s1 := by
    rw [hs1]
    exact ⟨H.space.setVirt _, rfl, ⟨v1, _, rfl, hvi1.perm List.perm_middle.symm⟩,
      fun _ _ _ => rfl⟩
  have R1 : Reached (mb 16) [mb 2] self s1 [] := .meanwhile (.run (R _)) hmean
  obtain ⟨others1, H1⟩ := hmean.inv H List.Perm.nil
  -- the heap expands
  have hround : Roundable 16384 := by
    unfold Roundable
    decide
  have halloc1 : v1.alloc (alignUp (alignUp 16384 + HeapBlock.sizeofHeapBlock)) =
      (24576, ⟨[⟨45056, Virt.vaddrSize - 45056⟩]⟩) := by
    rw [hv1]
    decide
  have hsize : alignUp (alignUp 16384 + HeapBlock.sizeofHeapBlock) = 20480 := by decide
  obtain ⟨p, self2, s2, hrun2, hC2, hreg2⟩ := H1.mallocGrown_run (v := v1) (by rw [hs1])
    (by decide) hround (by decide)
    ⟨v1, by rw [hs1], by rw [halloc1]; decide, by
      have : s1.freeFrames = s.freeFrames := by rw [hs1]; rfl
      rw [this, hfree]
      decide⟩ (by rw [hs1]; exact hC)
    (by have : s1.placement = s.placement := by rw [hs1]
        have : kvirtualAddress + mb 6 + 4 * 20480 ≤ kvirtualAddress + mb 16 := by decide
        omega) (by decide)
  rw [halloc1, hsize, hr] at hreg2
  have hpassed : Passed [] (.malloc 16384) := show 16384 < 2 ^ 64 by decide
  have R2 := R1.call hpassed (.inl hround.2) hrun2 hC2
  have hsized := R2.sized
  obtain ⟨bs2, others2, H2, -⟩ := R2.inv
  obtain ⟨s3, hrun3, hiff⟩ := H2.destroy_iff hsized
  have hcont := hiff.mp (hall (.reached R2) hrun3)
  obtain ⟨htotal, -⟩ := H2.paged hsized
  obtain ⟨r, hmem, hstart⟩ := hsized.start
  have h1 := hcont ⟨24576, 20480⟩ (by rw [hreg2]; exact List.mem_cons_self)
  have h2 := hcont ⟨4096, 16384⟩ (by rw [hreg2]; exact List.mem_cons_of_mem _ List.mem_cons_self)
  rw [hreg2] at htotal
  simp only [List.map_cons, List.map_nil, List.sum_cons, List.sum_nil] at htotal h1 h2
  omega

end
end Heap
end Coronel
