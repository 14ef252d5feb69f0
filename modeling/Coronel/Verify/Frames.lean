import Coronel.Kernel.Blocks
import Coronel.Verify.AddressSpace
import Coronel.Verify.Directories

/-!
# Mapping frames

What the page loops do to the owned pages: a frame taken from the free list becomes an owned page
of the directory it is mapped in, and the pages owned before keep their frames and their bytes.
-/

namespace Coronel

open Theory Theory.Bytes

/-- The pages `p, …, p + n - 1` of `d`, the last one first. -/
def pagesOf (d p : Nat) : Nat → List Page
  | 0 => []
  | n + 1 => ⟨d, p + n⟩ :: pagesOf d p n

/-- From `s` to `s'` the owned pages keep their frames and their bytes, and frames at most leave
the free list. -/
structure Kept (owned : List Page) (s s' : Machine) : Prop where
  cr3 : s'.cr3 = s.cr3
  virt : s'.gKernelVirtualManager = s.gKernelVirtualManager
  heap : s'.gKernelHeap = s.gKernelHeap
  free : s'.freeFrames <:+ s.freeFrames
  frame : ∀ pg ∈ owned, frameOf s'.ram pg = frameOf s.ram pg
  shows : ∀ d, view owned s'.ram d = view owned s.ram d

/-- No walk changes, except those of the `n` pages from page `p` of `d`. -/
def WalksKept (dirs : List Nat) (d p n : Nat) (s s' : Machine) : Prop :=
  ∀ d' ∈ dirs, ∀ v, ¬(d' = d ∧ p ≤ v % 2 ^ 48 / 4096 ∧ v % 2 ^ 48 / 4096 < p + n) →
    walk s'.ram d' v = walk s.ram d' v

/-- `clear` writes an owned page of `d` and no other memory. -/
def ClearsPage (W : Nat) (dirs : List Nat) (c d : Nat) (clear : Nat → Kernel Unit) : Prop :=
  ∀ owned s n, Space W dirs owned s → s.cr3 = c → ⟨d, n⟩ ∈ owned →
    ∃ s', (clear (4096 * n)).run s = (.ok (), s') ∧ Space W dirs owned s' ∧
      s' = { s with ram := s'.ram } ∧ (∀ d' ∈ dirs, ∀ v, walk s'.ram d' v = walk s.ram d' v) ∧
      ∀ d' v, ¬(d' = d ∧ v / 4096 = n) → view owned s'.ram d' v = view owned s.ram d' v

section
variable {W : Nat} {dirs : List Nat} {owned owned' : List Page} {s s' s'' : Machine}
  {d p n k i c : Nat} {pg : Page}

theorem mem_pagesOf : pg ∈ pagesOf d p n ↔ pg.dir = d ∧ p ≤ pg.number ∧ pg.number < p + n := by
  induction n with
  | zero => simp [pagesOf]
  | succ n ih =>
    rw [pagesOf, List.mem_cons, ih]
    constructor
    · rintro (rfl | ⟨h1, h2, h3⟩)
      · exact ⟨rfl, by simp only; omega, by simp only; omega⟩
      · exact ⟨h1, h2, by omega⟩
    · rintro ⟨rfl, h2, h3⟩
      by_cases h : pg.number = p + n
      · exact .inl (by rw [← h])
      · exact .inr ⟨rfl, h2, by omega⟩

theorem pagesOf_add : pagesOf d p (n + k) = pagesOf d (p + n) k ++ pagesOf d p n := by
  induction k with
  | zero => rfl
  | succ k ih => rw [← Nat.add_assoc, pagesOf, ih, pagesOf, Nat.add_assoc]; rfl

/-- The pages of a range are covered when they are owned. -/
theorem covers_pagesOf (h : pagesOf d p n ⊆ owned) : Covers owned d (4096 * p) (4096 * n) :=
  fun i hi => h (mem_pagesOf.mpr ⟨rfl, by simp only; omega, by simp only; omega⟩)

theorem Kept.refl (s : Machine) : Kept owned s s :=
  ⟨rfl, rfl, rfl, List.suffix_rfl, fun _ _ => rfl, fun _ => rfl⟩

theorem Kept.trans (h : Kept owned s s') (h' : Kept owned s' s'') : Kept owned s s'' :=
  ⟨h'.cr3.trans h.cr3, h'.virt.trans h.virt, h'.heap.trans h.heap, h'.free.trans h.free,
    fun pg hpg => (h'.frame pg hpg).trans (h.frame pg hpg), fun d => (h'.shows d).trans (h.shows d)⟩

theorem view_subset {ram ram' : Mem} (h : ∀ v, view owned ram' d v = view owned ram d v)
    (hs : owned' ⊆ owned) (v : Nat) : view owned' ram' d v = view owned' ram d v := by
  by_cases hm : ⟨d, v / 4096⟩ ∈ owned'
  · have hv := h v
    rw [view_of_mem (hs hm), view_of_mem (hs hm)] at hv
    rw [view_of_mem hm, view_of_mem hm, hv]
  · rw [view, if_neg hm, view, if_neg hm]

theorem Kept.subset (h : Kept owned s s') (hs : owned' ⊆ owned) : Kept owned' s s' :=
  ⟨h.cr3, h.virt, h.heap, h.free, fun pg hpg => h.frame pg (hs hpg),
    fun d => funext (view_subset (fun v => by rw [h.shows d]) hs)⟩

theorem WalksKept.refl (s : Machine) : WalksKept dirs d p n s s := fun _ _ _ _ => rfl

theorem WalksKept.trans (h : WalksKept dirs d p n s s') (h' : WalksKept dirs d p n s' s'') :
    WalksKept dirs d p n s s'' := fun d' hd' v hv => (h' d' hd' v hv).trans (h d' hd' v hv)

theorem WalksKept.mono {p' n' : Nat} (h : WalksKept dirs d p n s s') (h1 : p' ≤ p)
    (h2 : p + n ≤ p' + n') : WalksKept dirs d p' n' s s' :=
  fun d' hd' v hv => h d' hd' v fun hc => hv ⟨hc.1, by omega, by omega⟩

theorem Machine.freeFrames_congr (h : s'.gPhysicalManager = s.gPhysicalManager) :
    s'.freeFrames = s.freeFrames := by rw [Machine.freeFrames, h, Machine.freeFrames]

namespace Space

/-- Some of the pages may be forgotten. -/
theorem sublist (H : Space W dirs owned s) (hs : owned'.Sublist owned) : Space W dirs owned' s :=
  have hf : (frames owned' s).Sublist (frames owned s) := (hs.map _).append_right _
  ⟨H.tables, H.bound, H.manager, fun pg h => H.dir pg (hs.subset h),
    fun pg h => H.low pg (hs.subset h), fun pg h => H.mapped pg (hs.subset h), H.nodup.sublist hf,
    fun f h => H.frame f (hf.subset h)⟩

/-- The order of the pages does not matter. -/
theorem perm (H : Space W dirs owned s) (hp : owned'.Perm owned) : Space W dirs owned' s :=
  have hf : (frames owned' s).Perm (frames owned s) := (hp.map _).append_right _
  ⟨H.tables, H.bound, H.manager, fun pg h => H.dir pg (hp.subset h),
    fun pg h => H.low pg (hp.subset h), fun pg h => H.mapped pg (hp.subset h),
    hf.nodup_iff.mpr H.nodup, fun f h => H.frame f (hf.subset h)⟩

/-- A table operation that spares the owned pages keeps them. -/
theorem step {leaf : Option Nat} (H : Space W dirs owned s) (hT : Tables dirs s')
    (hstep : TableStep s s') (hleaf : SetLeaf dirs d (4096 * n) leaf s s') (hn : n < 2 ^ 27)
    (hnot : ⟨d, n⟩ ∉ owned) (hb : s'.placement ≤ kvirtualAddress + W) :
    Space W dirs owned s' ∧ Kept owned s s' ∧ WalksKept dirs d n 1 s s' := by
  have hidx : pml4Index (4096 * n) ≠ 511 := by rw [pml4Index_eq]; omega
  have hw : WalksKept dirs d n 1 s s' := by
    intro d' hd' v hv
    rw [hleaf d' hd' v, if_neg]
    rintro ⟨h1, h2⟩
    exact hv ⟨h2.resolve_right hidx, by omega, by omega⟩
  have hpages : ∀ pg ∈ owned, walk s'.ram pg.dir (4096 * pg.number) =
      walk s.ram pg.dir (4096 * pg.number) := by
    intro pg hpg
    have hlow := H.low pg hpg
    refine hw pg.dir (H.dir pg hpg) _ ?_
    rintro ⟨h1, h2, h3⟩
    have h4 : pg.number = n := by omega
    exact hnot (h1 ▸ h4 ▸ hpg)
  have hframe : ∀ pg ∈ owned, frameOf s'.ram pg = frameOf s.ram pg := fun pg hpg =>
    frameOf_congr (hpages pg hpg)
  have hphys : s'.gPhysicalManager = s.gPhysicalManager := by rw [hstep.eq]
  have hfree := Machine.freeFrames_congr hphys
  have hfr : frames owned s' = frames owned s := by
    rw [frames, hfree, List.map_congr_left hframe, frames]
  refine ⟨⟨hT, hb, hphys ▸ H.manager, H.dir, H.low, fun pg hpg => ?_, ?_, ?_⟩, ⟨?_, ?_, ?_, ?_,
    hframe, fun d' => funext fun v => ?_⟩, hw⟩
  · rw [hpages pg hpg]
    exact H.mapped pg hpg
  · rw [hfr]; exact H.nodup
  · rw [hfr]; exact H.frame
  · rw [hstep.eq]
  · rw [hstep.eq]
  · rw [hstep.eq]
  · rw [hfree]
  · unfold view
    split
    · next hm =>
      have hW := H.owned_frame hm
      rw [hframe _ hm]
      exact hstep.above _ (by omega)
    · rfl

/-- A page mapped to a frame of its own becomes an owned page. -/
theorem cons {f e : Nat} (H : Space W dirs owned s) (hd : d ∈ dirs) (hn : n < 2 ^ 27)
    (hw : walk s.ram d (4096 * n) = some e) (he : entryFrame e = f) (hf : f ∉ frames owned s)
    (hfr : f % 4096 = 0 ∧ W ≤ f ∧ f < 2 ^ 52) : Space W dirs (⟨d, n⟩ :: owned) s := by
  have hfo : frameOf s.ram ⟨d, n⟩ = f := by
    simp only [frameOf, hw, Option.map_some, Option.getD_some, he]
  have hcons : frames (⟨d, n⟩ :: owned) s = f :: frames owned s := by
    rw [frames, List.map_cons, hfo, List.cons_append, frames]
  refine ⟨H.tables, H.bound, H.manager, ?_, ?_, ?_, ?_, ?_⟩
  · exact List.forall_mem_cons.mpr ⟨hd, H.dir⟩
  · exact List.forall_mem_cons.mpr ⟨hn, H.low⟩
  · exact List.forall_mem_cons.mpr ⟨by rw [hw]; simp, H.mapped⟩
  · rw [hcons]; exact List.nodup_cons.mpr ⟨hf, H.nodup⟩
  · rw [hcons]; exact List.forall_mem_cons.mpr ⟨hfr, H.frame⟩

end Space

/-! ### physical::alloc -/

theorem Physical.manager_run {m : Physical} (h : s.gPhysicalManager = some m) :
    Physical.manager.run s = (.ok m, s) := by
  rw [Physical.manager, Prog.run_bind_ok (Prog.run_get s)]
  simp only [h]
  rfl

/-- `alloc` returns 0 and changes nothing when no frame is free. -/
theorem Physical.alloc_run_nil (hm : ∃ m, s.gPhysicalManager = some m) (h : s.freeFrames = []) :
    Physical.alloc.run s = (.ok 0, s) := by
  obtain ⟨m, hm⟩ := hm
  have hnil : m.freeList = [] := by simpa [Machine.freeFrames, hm] using h
  rw [Physical.alloc, Prog.run_bind_ok (Physical.manager_run hm), hnil]
  rfl

/-- `alloc` takes the first free frame. -/
theorem Physical.alloc_run_cons {f : Nat} {fs : List Nat} (hm : ∃ m, s.gPhysicalManager = some m)
    (h : s.freeFrames = f :: fs) :
    ∃ m, Physical.alloc.run s = (.ok f, { s with gPhysicalManager := some m }) ∧
      m.freeList.map (·.address) = fs := by
  obtain ⟨m, hm⟩ := hm
  rw [Machine.freeFrames, hm] at h
  obtain ⟨fr, frs, h1, h2, h3⟩ := List.map_eq_cons_iff.mp h
  refine ⟨{ m with freeList := frs }, ?_, h3⟩
  rw [Physical.alloc, Prog.run_bind_ok (Physical.manager_run hm), h1, ← h2]
  rfl

/-- A taken frame is the frame of no owned page. -/
theorem Space.alloc {f : Nat} {fs : List Nat} {m : Physical} (H : Space W dirs owned s)
    (hfree : s.freeFrames = f :: fs) (hm : m.freeList.map (·.address) = fs) :
    Space W dirs owned { s with gPhysicalManager := some m } ∧
      Kept owned s { s with gPhysicalManager := some m } ∧
      f ∉ frames owned { s with gPhysicalManager := some m } ∧ f % 4096 = 0 ∧ W ≤ f ∧
      f < 2 ^ 52 := by
  have hperm : (frames owned s).Perm
      (f :: frames owned { s with gPhysicalManager := some m }) := by
    rw [frames, hfree, frames]
    simp only [Machine.freeFrames, hm]
    exact List.perm_middle
  have hnodup := hperm.nodup_iff.mp H.nodup
  have hframe : ∀ g ∈ f :: frames owned { s with gPhysicalManager := some m },
      g % 4096 = 0 ∧ W ≤ g ∧ g < 2 ^ 52 := fun g hg => H.frame g (hperm.mem_iff.mpr hg)
  refine ⟨⟨⟨H.tables.forest, H.tables.base, H.tables.cr3⟩, H.bound, ⟨m, rfl⟩, H.dir, H.low, H.mapped,
    (List.nodup_cons.mp hnodup).2, fun g hg => hframe g (List.mem_cons_of_mem f hg)⟩,
    ⟨rfl, rfl, rfl, ?_, fun _ _ => rfl, fun _ => rfl⟩, (List.nodup_cons.mp hnodup).1,
    hframe f List.mem_cons_self⟩
  rw [hfree]
  simp only [Machine.freeFrames, hm]
  exact List.suffix_cons f fs

/-! ### The loops -/

/-- A traps of a page loop: placement memory left the window. -/
theorem NoRoom.isDirectMap {placement m : Nat} {e : Trap} (h : NoRoom placement m e) :
    e.IsDirectMap := h.1

theorem pageAt_eq (hp : p + i < 2 ^ 27) : pageAt (4096 * p) i = 4096 * (p + i) := by
  have h : mul64 i frameSize = 4096 * i := by
    rw [frameSize, Nat.mul_comm]
    exact mul64_eq (by omega)
  rw [pageAt, h, add64_eq (by omega), Nat.mul_add]

/-- A promise about the watermark, where a table operation left it. -/
theorem TableStep.bound (h : TableStep s s') (hb : s.placement ≤ kvirtualAddress + W)
    (hC : s' ∈ Promise W) : s'.placement ≤ kvirtualAddress + W := by
  rcases h.placed with h | ⟨r, hr, h⟩
  · omega
  · rw [h]
    exact hC r hr

/-- Mapping a frame of its own makes a page an owned page. -/
theorem Space.map_safe {f flags : Nat} (H : Space W dirs owned s) (hd : d ∈ dirs)
    (hn : n < 2 ^ 27) (hnot : ⟨d, n⟩ ∉ owned) (hflags : flags % 2 = 1) (hf : f ∉ frames owned s)
    (hfr : f % 4096 = 0 ∧ W ≤ f ∧ f < 2 ^ 52) :
    Prog.Safe (Promise W) Trap.IsDirectMap (Paging.map d (4096 * n) f flags) s fun r s' =>
      r = 0 ∧ Space W dirs (⟨d, n⟩ :: owned) s' ∧ Kept owned s s' ∧ WalksKept dirs d n 1 s s' ∧
        s'.freeFrames = s.freeFrames := by
  refine ((Coronel.map_safe H.tables hd (4096 * n) f flags).weaken fun e => NoRoom.isDirectMap).mono ?_
  rintro r s' hC ⟨hr, hT, hstep, hleaf, -⟩
  obtain ⟨h1, h2, h3⟩ := H.step hT hstep hleaf hn hnot (hstep.bound H.bound hC)
  have hwalk : walk s'.ram d (4096 * n) = some (Paging.leafEntry f flags) := by
    rw [hleaf d hd, if_pos ⟨rfl, .inl rfl⟩, mappedLeaf, if_pos hflags]
  have hfree : s'.freeFrames = s.freeFrames := Machine.freeFrames_congr (by rw [hstep.eq])
  have hfr' : frames owned s' = frames owned s := by
    rw [frames, frames, List.map_congr_left h2.frame, hfree]
  exact ⟨hr, h1.cons hd hn hwalk (entryFrame_leafEntry flags hfr.1 hfr.2.2).1 (hfr' ▸ hf) hfr,
    h2, h3, hfree⟩

/-- Unmapping pages that are not owned. -/
theorem unmapPages_run {dir : Kernel Nat} (H : Space W dirs owned s) (hd : d ∈ dirs)
    (hdir : ∀ s', s'.cr3 = s.cr3 → dir.run s' = (.ok d, s'))
    (hnot : ∀ pg ∈ pagesOf d (p + i) n, pg ∉ owned) (hp : p + i + n ≤ 2 ^ 27) :
    ∃ s', (forRange (fun j => do Paging.unmap (← dir) (pageAt (4096 * p) j)) n i).run s =
        (.ok (), s') ∧ Space W dirs owned s' ∧ Kept owned s s' ∧
      WalksKept dirs d (p + i) n s s' := by
  induction n generalizing i s with
  | zero => exact ⟨s, rfl, H, Kept.refl s, WalksKept.refl s⟩
  | succ n ih =>
    have hmem : ∀ pg, pg ∈ pagesOf d (p + (i + 1)) n ∨ pg = ⟨d, p + i⟩ →
        pg ∈ pagesOf d (p + i) (n + 1) := by
      rintro pg (h | rfl)
      · obtain ⟨h1, h2, h3⟩ := mem_pagesOf.mp h
        exact mem_pagesOf.mpr ⟨h1, by omega, by omega⟩
      · exact mem_pagesOf.mpr ⟨rfl, Nat.le_refl _, by simp only; omega⟩
    obtain ⟨s1, hrun, hpl, -, hT, hstep, hleaf⟩ := unmap_run H.tables hd (4096 * (p + i))
    obtain ⟨h1, h2, h3⟩ := H.step hT hstep hleaf (by omega) (hnot _ (hmem _ (.inr rfl)))
      (hpl ▸ H.bound)
    obtain ⟨s2, hrun2, h4, h5, h6⟩ := ih h1 (fun s' hs' => hdir s' (hs'.trans h2.cr3))
      (fun pg hpg => hnot pg (hmem pg (.inl hpg))) (by omega)
    refine ⟨s2, ?_, h4, h2.trans h5, (h3.mono (Nat.le_refl _) (by omega)).trans
      (h6.mono (by omega) (by omega))⟩
    rw [← pageAt_eq (by omega)] at hrun
    have hbody : (do Paging.unmap (← dir) (pageAt (4096 * p) i)).run s = (.ok (), s1) := by
      rw [Prog.run_bind_ok (hdir s rfl), hrun]
    rw [forRange, Prog.run_bind_ok hbody, hrun2]

/-- None of these pages is present afterwards. -/
theorem unmapPages_absent {dir : Kernel Nat} (H : Space W dirs [] s) (hd : d ∈ dirs)
    (hdir : ∀ s', s'.cr3 = s.cr3 → dir.run s' = (.ok d, s')) (hp : p + i + n ≤ 2 ^ 27) {r : Unit}
    (hrun : (forRange (fun j => do Paging.unmap (← dir) (pageAt (4096 * p) j)) n i).run s =
      (.ok r, s')) :
    ∀ q, p + i ≤ q → q < p + i + n → walk s'.ram d (4096 * q) = none := by
  induction n generalizing i s with
  | zero =>
    intro q h1 h2
    omega
  | succ n ih =>
    obtain ⟨s1, hrun1, hpl, -, hT, hstep, hleaf⟩ := unmap_run H.tables hd (4096 * (p + i))
    obtain ⟨h1, h2, -⟩ := H.step hT hstep hleaf (by omega) List.not_mem_nil (hpl ▸ H.bound)
    have hdir1 : ∀ s', s'.cr3 = s1.cr3 → dir.run s' = (.ok d, s') := fun s' hs' =>
      hdir s' (hs'.trans h2.cr3)
    rw [← pageAt_eq (by omega)] at hrun1
    have hbody : (do Paging.unmap (← dir) (pageAt (4096 * p) i)).run s = (.ok (), s1) := by
      rw [Prog.run_bind_ok (hdir s rfl), hrun1]
    rw [forRange, Prog.run_bind_ok hbody] at hrun
    intro q hq1 hq2
    by_cases hq : q = p + i
    · -- the rest of the loop leaves the first page alone
      subst hq
      obtain ⟨s2, hrun2, -, -, hw⟩ := unmapPages_run (i := i + 1) (n := n) (p := p) h1 hd hdir1
        (fun _ _ => List.not_mem_nil) (by omega)
      cases hrun.symm.trans hrun2
      rw [hw d hd _ (by omega), hleaf d hd, if_pos ⟨rfl, .inl rfl⟩]
    · exact ih h1 hdir1 (by omega) hrun q (by omega) (by omega)

/-- Unmapping reserves nothing. -/
theorem unmapPages_placement {dir : Kernel Nat} (H : Tables dirs s) (hd : d ∈ dirs)
    (hdir : ∀ s', s'.cr3 = s.cr3 → dir.run s' = (.ok d, s')) {r : Unit}
    (hrun : (forRange (fun j => do Paging.unmap (← dir) (pageAt (4096 * p) j)) n i).run s =
      (.ok r, s')) : s'.placement = s.placement ∧ s'.reserved = s.reserved := by
  induction n generalizing i s with
  | zero => cases hrun; exact ⟨rfl, rfl⟩
  | succ n ih =>
    obtain ⟨s1, hrun1, h1, h2, hT, hstep, -⟩ := unmap_run H hd (pageAt (4096 * p) i)
    have hbody : (do Paging.unmap (← dir) (pageAt (4096 * p) i)).run s = (.ok (), s1) := by
      rw [Prog.run_bind_ok (hdir s rfl), hrun1]
    rw [forRange, Prog.run_bind_ok hbody] at hrun
    have hcr : s1.cr3 = s.cr3 := by rw [hstep.eq]
    obtain ⟨h3, h4⟩ := ih hT (fun s' hs' => hdir s' (hs'.trans hcr)) hrun
    exact ⟨h3.trans h1, h4.trans h2⟩

/-- The page loop either makes all its pages owned pages, or none. -/
theorem mapFramesFrom_safe {dir : Kernel Nat} {clear : Nat → Kernel Unit} {flags : Nat}
    (H : Space W dirs (pagesOf d p i ++ owned) s) (hd : d ∈ dirs) (hc : s.cr3 = c)
    (hdir : ∀ s' : Machine, s'.cr3 = c → dir.run s' = (.ok d, s'))
    (hclear : ClearsPage W dirs c d clear) (hflags : flags % 2 = 1)
    (hnot : ∀ pg ∈ pagesOf d p (i + n), pg ∉ owned) (hp : p + i + n ≤ 2 ^ 27) :
    Prog.Safe (Promise W) Trap.IsDirectMap
      (mapFramesFrom dir flags clear (unmapPages dir (4096 * p)) (4096 * p) n i) s fun r s' =>
        Space W dirs (if r then pagesOf d p (i + n) ++ owned else owned) s' ∧ Kept owned s s' ∧
          WalksKept dirs d p (i + n) s s' ∧ r = decide (n ≤ s.freeFrames.length) ∧
          s'.freeFrames = s.freeFrames.drop n := by
  induction n generalizing i s with
  | zero => exact Prog.Safe.pure ⟨H, Kept.refl s, WalksKept.refl s, rfl, rfl⟩
  | succ n ih =>
    have hsub : owned ⊆ pagesOf d p i ++ owned := List.subset_append_right _ _
    rcases hfree : s.freeFrames with _ | ⟨f, fs⟩
    · -- no frame: the pages mapped so far are unmapped again
      have hrun := Physical.alloc_run_nil H.manager hfree
      obtain ⟨s1, hrun1, h1, h2, h3⟩ := @unmapPages_run _ _ _ _ _ p i 0 dir
          (H.sublist (List.sublist_append_right _ _)) hd (fun s' hs' => hdir s' (hs'.trans hc))
          (fun pg hpg => hnot pg (by
          obtain ⟨h1, h2, h3⟩ := mem_pagesOf.mp hpg
          exact mem_pagesOf.mpr ⟨h1, by omega, by omega⟩)) (by omega)
      rw [mapFramesFrom]
      refine Prog.Safe.bind_run hrun ?_
      rw [if_pos rfl]
      have hfree1 : s1.freeFrames = [] := by
        have := h2.free
        rw [hfree] at this
        exact List.suffix_nil.mp this
      refine Prog.Safe.bind_run hrun1 (Prog.Safe.pure ⟨h1, h2, h3.mono (by omega) (by omega), rfl, ?_⟩)
      rw [hfree1, List.drop_nil]
    · obtain ⟨m, hrun, hm⟩ := Physical.alloc_run_cons H.manager hfree
      obtain ⟨h1, h2, h3, h4⟩ := H.alloc hfree hm
      obtain ⟨s1, hs1⟩ : ∃ s1, s1 = { s with gPhysicalManager := some m } := ⟨_, rfl⟩
      rw [← hs1] at hrun h1 h2 h3
      have hpos := H.W_pos
      have hpage : (⟨d, p + i⟩ : Page) ∉ pagesOf d p i ++ owned := by
        rw [List.mem_append]
        rintro (hm | hm)
        · have := mem_pagesOf.mp hm
          simp only at this
          omega
        · exact hnot _ (mem_pagesOf.mpr ⟨rfl, by simp only; omega, by simp only; omega⟩) hm
      rw [mapFramesFrom]
      refine Prog.Safe.bind_run hrun ?_
      rw [if_neg (by omega)]
      refine Prog.Safe.bind_run (hdir s1 (h2.cr3.trans hc)) ?_
      rw [pageAt_eq (by omega)]
      refine Prog.Safe.bind (h1.map_safe hd (by omega) hpage hflags h3 h4) ?_
      rintro r s2 - ⟨rfl, h5, h6, h7, h8f⟩
      rw [if_neg (by simp)]
      have hcr2 : s2.cr3 = c := h6.cr3.trans (h2.cr3.trans hc)
      obtain ⟨s3, hrun3, h8, h9, h10, h11⟩ := hclear _ _ _ h5 hcr2 List.mem_cons_self
      refine Prog.Safe.bind_run hrun3 ?_
      have hk3 : Kept owned s2 s3 := by
        refine ⟨by rw [h9], by rw [h9], by rw [h9], ?_, fun pg hpg => ?_, fun d' => funext fun v => ?_⟩
        · rw [Machine.freeFrames_congr (s := s2) (by rw [h9])]
        · exact frameOf_congr (h10 _ (H.dir pg (hsub hpg)) _)
        · by_cases hv : d' = d ∧ v / 4096 = p + i
          · have hno : (⟨d', v / 4096⟩ : Page) ∉ owned := by
              rw [hv.1, hv.2]
              exact fun hm => hpage (hsub hm)
            rw [view, if_neg hno, view, if_neg hno]
          · have := h11 d' v hv
            unfold view at this ⊢
            split
            · next hm =>
              rwa [if_pos (List.mem_cons_of_mem _ (hsub hm)),
                if_pos (List.mem_cons_of_mem _ (hsub hm))] at this
            · rfl
      have hw1 : WalksKept dirs d p (i + (n + 1)) s s3 := by
        have hw2 : WalksKept dirs d p (i + (n + 1)) s1 s2 := h7.mono (by omega) (by omega)
        rw [hs1] at hw2
        exact hw2.trans fun d' hd' v _ => h10 d' hd' v
      have hk : Kept owned s s3 := ((h2.subset hsub).trans (h6.subset hsub)).trans hk3
      have hfree3 : s3.freeFrames = fs := by
        rw [Machine.freeFrames_congr (s := s2) (by rw [h9]), h8f, hs1]
        exact hm
      have := ih (i := i + 1) (s := s3) h8 (hk3.cr3.trans hcr2)
        (fun pg hpg => hnot pg (by rwa [show i + (n + 1) = i + 1 + n by omega])) (by omega)
      refine this.mono ?_
      rintro r s4 - ⟨h12, h13, h14, h15, h16⟩
      rw [show i + 1 + n = i + (n + 1) by omega] at h12 h14
      refine ⟨h12, hk.trans h13, hw1.trans h14, ?_, ?_⟩
      · rw [h15, hfree3]
        simp
      · rw [h16, hfree3]
        rfl

/-- A table operation keeps the promise when its watermark does. -/
theorem TableStep.promise (h : TableStep s s') (hC : s ∈ Promise W)
    (hb : s'.placement ≤ kvirtualAddress + W) : s' ∈ Promise W := fun r hr => by
  rcases h.fresh r hr with hr | hr
  · exact hC r hr
  · omega

theorem afterTables_le {pl m : Nat} (h : pl + 4095 < 2 ^ 64) (hm : m ≤ 3) :
    afterTables pl m ≤ pl + 16384 := by
  have := alignUp_lt_add h
  unfold afterTables
  split <;> omega

/-- With room for the tables, the page loop ends: it maps its pages when there are frames enough. -/
theorem mapFramesFrom_ok {dir : Kernel Nat} {clear : Nat → Kernel Unit} {flags : Nat}
    (H : Space W dirs (pagesOf d p i ++ owned) s) (hd : d ∈ dirs) (hc : s.cr3 = c)
    (hdir : ∀ s' : Machine, s'.cr3 = c → dir.run s' = (.ok d, s'))
    (hclear : ClearsPage W dirs c d clear) (hflags : flags % 2 = 1)
    (hnot : ∀ pg ∈ pagesOf d p (i + n), pg ∉ owned) (hp : p + i + n ≤ 2 ^ 27)
    (hC : s ∈ Promise W) (hroom : s.placement + 16384 * n ≤ kvirtualAddress + W)
    (hW : W ≤ directMapSize) :
    ∃ s', (mapFramesFrom dir flags clear (unmapPages dir (4096 * p)) (4096 * p) n i).run s =
        (.ok (decide (n ≤ s.freeFrames.length)), s') ∧ s' ∈ Promise W ∧
      s'.placement ≤ s.placement + 16384 * n ∧ s'.freeFrames = s.freeFrames.drop n := by
  have hgb := directMapSize_eq
  have hkv := kvirtualAddress_eq
  induction n generalizing i s with
  | zero => exact ⟨s, rfl, hC, Nat.le_refl _, rfl⟩
  | succ n ih =>
    rcases hfree : s.freeFrames with _ | ⟨f, fs⟩
    · have hrun := Physical.alloc_run_nil H.manager hfree
      obtain ⟨s1, hrun1, h1, h2, -⟩ := @unmapPages_run _ _ _ _ _ p i 0 dir
          (H.sublist (List.sublist_append_right _ _)) hd (fun s' hs' => hdir s' (hs'.trans hc))
          (fun pg hpg => hnot pg (by
          obtain ⟨h1, h2, h3⟩ := mem_pagesOf.mp hpg
          exact mem_pagesOf.mpr ⟨h1, by omega, by omega⟩)) (by omega)
      have hkeep := unmapPages_placement (n := i) H.tables hd
        (fun s' hs' => hdir s' (hs'.trans hc)) hrun1
      refine ⟨s1, ?_, fun r hr => hC r (hkeep.2 ▸ hr), by omega, ?_⟩
      · rw [mapFramesFrom, Prog.run_bind_ok hrun, if_pos rfl, unmapPages, Prog.run_bind_ok hrun1]
        rfl
      · have := h2.free
        rw [hfree] at this
        simpa using this
    · obtain ⟨m, hrun, hm⟩ := Physical.alloc_run_cons H.manager hfree
      obtain ⟨h1, h2, h3, h4⟩ := H.alloc hfree hm
      obtain ⟨s1, hs1⟩ : ∃ s1, s1 = { s with gPhysicalManager := some m } := ⟨_, rfl⟩
      rw [← hs1] at hrun h1 h2 h3
      have hpl1 : s1.placement = s.placement := by rw [hs1]
      have hC1 : s1 ∈ Promise W := by rw [hs1]; exact hC
      have hfree1 : s1.freeFrames = fs := by rw [hs1]; exact hm
      have hpos := H.W_pos
      have hpage : (⟨d, p + i⟩ : Page) ∉ pagesOf d p i ++ owned := by
        rw [List.mem_append]
        rintro (hm | hm)
        · have := mem_pagesOf.mp hm
          simp only at this
          omega
        · exact hnot _ (mem_pagesOf.mpr ⟨rfl, by simp only; omega, by simp only; omega⟩) hm
      -- the tables for one page
      have hle := @afterTables_le s1.placement _ (by omega)
          (missingTables_le s1.ram d (4096 * (p + i)))
      obtain ⟨r2, s2, hrun2, rfl, -, hstep, -, hpl2⟩ :=
        (Coronel.map_safe (C := ⊤) h1.tables hd (4096 * (p + i)) f flags).exists_ok trivial
          fun e he => by have := he.2; omega
      have hC2 := hstep.promise hC1 (by omega)
      obtain ⟨-, h5, h6, -, hfree2⟩ := (h1.map_safe hd (by omega) hpage hflags h3 h4).ok hrun2 hC2
      have hcr2 : s2.cr3 = c := h6.cr3.trans (h2.cr3.trans hc)
      obtain ⟨s3, hrun3, h8, h9, -, -⟩ := hclear _ _ _ h5 hcr2 List.mem_cons_self
      have hfree3 : s3.freeFrames = fs := by
        rw [Machine.freeFrames_congr (s := s2) (by rw [h9]), hfree2, hfree1]
      obtain ⟨s4, hrun4, hC4, hpl4, hfree4⟩ := ih (i := i + 1) (s := s3) h8 (by rw [h9]; exact hcr2)
        (fun pg hpg => hnot pg (by rwa [show i + (n + 1) = i + 1 + n by omega])) (by omega)
        (by rw [h9]; exact hC2) (by rw [h9]; simp only; omega)
      have hpl3 : s3.placement = s2.placement := by rw [h9]
      refine ⟨s4, ?_, hC4, by omega, ?_⟩
      · rw [mapFramesFrom, Prog.run_bind_ok hrun, if_neg (by omega),
          Prog.run_bind_ok (hdir s1 (h2.cr3.trans hc)), pageAt_eq (by omega),
          Prog.run_bind_ok hrun2, if_neg (by simp), Prog.run_bind_ok hrun3, hrun4, hfree3]
        simp
      · rw [hfree4, hfree3]
        rfl

/-! ### A machine to start from -/

/-- The machine just booted, with `n` free frames from 16 MB. -/
def managedMachine (n : Nat) : Machine :=
  { bootMachine (mb 5) with
    gPhysicalManager := some {
      physicalEnd := mb 16 + 4096 * n
      freeList := (List.range n).map fun i => ⟨0, mb 16 + 4096 * i⟩ } }

theorem freeFrames_managedMachine (n : Nat) :
    (managedMachine n).freeFrames = (List.range n).map fun i => mb 16 + 4096 * i := by
  simp only [Machine.freeFrames, managedMachine, List.map_map]
  rfl

theorem space_managedMachine {n : Nat} (hn : n ≤ 2 ^ 20) :
    Space (mb 16) [mb 2] [] (managedMachine n) := by
  have hT : Tables [mb 2] (bootMachine (mb 5)) :=
    (booted_bootMachine (by decide : mb 2 + 515 * 4096 ≤ mb 5) (by decide)).tables
  refine ⟨⟨hT.forest, hT.base, hT.cr3⟩, by change kvirtualAddress + mb 5 ≤ _; decide, ⟨_, rfl⟩, by simp, by simp, by simp,
    ?_, ?_⟩ <;> rw [frames, freeFrames_managedMachine, List.map_nil, List.nil_append]
  · exact List.nodup_range.map fun i j h => by omega
  · intro f hf
    obtain ⟨i, hi, rfl⟩ := List.mem_map.mp hf
    have := List.mem_range.mp hi
    simp only [mb]
    omega

theorem promise_managedMachine (n : Nat) : managedMachine n ∈ Promise W :=
  fun _ h => absurd h List.not_mem_nil

end
end Coronel
