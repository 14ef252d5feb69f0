import Coronel.Verify.Uptime

/-!
# Processes

The machine with any number of processes, each with a page directory of its own. A process is built
and its heap called with its directory loaded; its stack is set up and it is destroyed under any
directory. There is no kernel heap, as boot leaves none (`Verify.BootHeap`).
-/

namespace Coronel

open Theory Theory.Bytes

/-! ### The system -/

/-- A process: its memory object, where its heap object lies, the fields of that, and the
allocations its program holds. -/
structure Proc where
  mem : Process
  place : Nat
  heap : UserAllocator
  live : List Nat
  has : mem.heap = some (place, heap)

/-- The directory of its heap. -/
abbrev Proc.dir (p : Proc) : Nat := p.heap.pageDirectory

/-- The machine, its page directories and its processes. -/
structure System where
  machine : Machine
  dirs : List Nat
  procs : List Proc
  /-- Ghost: the pages that `setup_stack` has mapped. No code reads it. -/
  stackPages : List Page

namespace System

/-- The pages of the heaps. -/
def heapPages (procs : List Proc) : List Page := procs.flatMap fun p => p.heap.pages

/-- The pages of the heaps and stacks. -/
def pages (σ : System) : List Page := heapPages σ.procs ++ σ.stackPages

/-- The pages that `setup_stack(stackSize)` finds a frame for. -/
def stackMapped (d stackSize : Nat) (s : Machine) : List Page :=
  pagesOf d ((ProcessMemory.userStackTop - alignUp stackSize) / 4096)
    (min (ProcessMemory.stackPages stackSize) s.freeFrames.length)

/-- One step, of the process with the given directory or of the kernel. A stack stays above the
addresses of the heap, and programs write their allocations and stacks only. -/
inductive Step (W : Nat) : Option Nat → System → System → Prop
  | createDirectory {σ d s'} : Paging.createUserPageDirectory.run σ.machine = (.ok d, s') →
    s' ∈ Promise W → Step W none σ { σ with machine := s', dirs := d :: σ.dirs }
  | switch {σ d} : d ∈ σ.dirs → Step W none σ { σ with machine := { σ.machine with cr3 := d } }
  | kmalloc {σ size r s'} : (kmalloc size).run σ.machine = (.ok r, s') → s' ∈ Promise W →
    Step W none σ { σ with machine := s' }
  | construct {σ p s'} : (∀ q ∈ σ.procs, q.dir ≠ σ.machine.cr3) →
    (Process.new σ.machine.cr3).run σ.machine = (.ok p.mem, s') → p.live = [] → s' ∈ Promise W →
    Step W (some σ.machine.cr3) σ { σ with machine := s', procs := p :: σ.procs }
  | call {σ p p' rest call r heap' s'} : σ.procs.Perm (p :: rest) → σ.machine.cr3 = p.dir →
    UserAllocator.Passed p.live call → (p.heap.call call).run σ.machine = (.ok (r, heap'), s') →
    p'.mem = { p.mem with heap := some (p.place, heap') } → p'.live = Call.live p.live r call →
    s' ∈ Promise W → Step W (some p.dir) σ { σ with machine := s', procs := p' :: rest }
  | setupStack {σ p p' rest stackSize r s'} : σ.procs.Perm (p :: rest) →
    stackSize ≤ ProcessMemory.userStackTop - userHeapMaxAddr →
    (p.mem.setupStack stackSize).run σ.machine = (.ok (r, p'.mem), s') → p'.live = p.live →
    s' ∈ Promise W → Step W (some p.dir) σ { σ with
      machine := s', procs := p' :: rest
      stackPages := stackMapped p.dir stackSize σ.machine ++
        σ.stackPages.filter (· ∉ stackMapped p.dir stackSize σ.machine) }
  | write {σ p a x s'} : p ∈ σ.procs → σ.machine.cr3 = p.dir →
    (⟨p.dir, a / 4096⟩ ∈ σ.stackPages ∨ ∃ q ∈ p.live, a ∈ UserAllocator.payloadAt σ.machine q) →
    (store8 a x).run σ.machine = (.ok (), s') → Step W (some p.dir) σ { σ with machine := s' }
  | destroy {σ p rest mem' s'} : σ.procs.Perm (p :: rest) →
    p.mem.cleanupAll.run σ.machine = (.ok mem', s') →
    Step W (some p.dir) σ { σ with machine := s', procs := rest }

/-- The states that steps reach from a machine without processes and without a kernel heap. `W`
separates placement memory from the frames of the physical manager. -/
inductive Run (W : Nat) : System → Prop
  | start {s dirs} : Space W dirs [] s → s.gKernelHeap = none → W ≤ directMapSize →
    Run W ⟨s, dirs, [], []⟩
  | step {l σ σ'} : Run W σ → Step W l σ σ' → Run W σ'

/-- Any number of steps, none of them of the process with the directory `d`. -/
inductive Steps (W d : Nat) (σ : System) : System → Prop
  | refl : Steps W d σ σ
  | step {l σ₁ σ'} : Steps W d σ σ₁ → Step W l σ₁ σ' → l ≠ some d → Steps W d σ σ'

/-- The address lies on a page of a heap or a stack of `d`. -/
def Mapped (σ : System) (d v : Nat) : Prop :=
  (∃ p ∈ σ.procs, p.dir = d ∧ p.heap.heapStart ≤ v ∧ v < p.heap.heapCurrent) ∨
    ⟨d, v / 4096⟩ ∈ σ.stackPages

/-- Heaps and stacks own their pages, and every heap is in order. -/
structure Sound (W : Nat) (σ : System) : Prop where
  window : W ≤ directMapSize
  space : Space W σ.dirs σ.pages σ.machine
  heaps : ∀ p ∈ σ.procs, ∃ bs, p.heap.Inv W σ.dirs [] bs σ.machine ∧
    p.live.Perm (pointers 24 bs)
  same : ∀ p ∈ σ.procs, p.mem.pageDirectory = p.dir
  apart : (σ.procs.map Proc.dir).Nodup
  above : ∀ pg ∈ σ.stackPages, userHeapMaxAddr / 4096 ≤ pg.number
  noHeap : σ.machine.gKernelHeap = none

/-- A step of `l` leaves the processes of other directories alone, and the bytes of their pages. -/
structure Spares (l : Option Nat) (σ σ' : System) : Prop where
  dirs : σ.dirs ⊆ σ'.dirs
  procs : ∀ q ∈ σ.procs, l ≠ some q.dir → q ∈ σ'.procs
  stack : ∀ pg ∈ σ.stackPages, l ≠ some pg.dir → pg ∈ σ'.stackPages
  shows : ∀ d, l ≠ some d →
    view σ.pages σ'.machine.ram d = view σ.pages σ.machine.ram d

end System

section
variable {W : Nat} {dirs dirs' : List Nat} {owned rest rest' : List Page} {s s' : Machine}
  {d p n i : Nat} {bs : List Block}

/-! ### Owned pages -/

namespace Space

/-- Reserving placement memory leaves the owned pages alone. -/
theorem place (H : Space W dirs owned s) (hW : W ≤ directMapSize)
    (heq : s' = { s with placement := s'.placement, reserved := s'.reserved })
    (hle : s.placement ≤ s'.placement) (hb : s'.placement ≤ kvirtualAddress + W) :
    Space W dirs owned s' := by
  have hbase := H.tables.base
  rw [heq] at hle hb ⊢
  simp only at hle hb
  exact ⟨⟨H.tables.forest.mono (by simp only; omega) (by simp only; omega), hbase.trans hle,
    H.tables.cr3⟩, hb, H.manager, H.dir, H.low, H.mapped, H.nodup, H.frame⟩

/-- A block behind the watermark. -/
theorem placed {size : Nat} (H : Space W dirs owned s) (hW : W ≤ directMapSize)
    (hC : { s with
      placement := add64 (alignUp s.placement) size
      reserved := ⟨alignUp s.placement, size⟩ :: s.reserved } ∈ Promise W) :
    Space W dirs owned { s with
      placement := add64 (alignUp s.placement) size
      reserved := ⟨alignUp s.placement, size⟩ :: s.reserved } := by
  have hb := H.bound
  have hgb := directMapSize_eq
  have hkv := kvirtualAddress_eq
  have hup := @le_alignUp s.placement (by omega)
  have hfit : alignUp s.placement + size ≤ kvirtualAddress + W := hC _ List.mem_cons_self
  have hadd : add64 (alignUp s.placement) size = alignUp s.placement + size :=
    add64_eq (by omega)
  refine H.place hW rfl ?_ ?_
  · simp only [hadd]
    omega
  · simp only [hadd]
    exact hfit

/-- A new directory owns no page. -/
theorem directory (H : Space W dirs owned s) :
    Prog.Safe (Promise W) Trap.IsDirectMap Paging.createPageDirectory s fun d s' =>
      Space W (d :: dirs) owned s' ∧ Kept owned s s' := by
  refine ((createPageDirectory_safe H.tables).weaken fun e => NoRoom.isDirectMap).mono ?_
  rintro d s' hC ⟨-, -, hT, hstep, hw, -⟩
  have hwalk : ∀ pg ∈ owned, walk s'.ram pg.dir (4096 * pg.number) =
      walk s.ram pg.dir (4096 * pg.number) := fun pg hpg => hw pg.dir (H.dir pg hpg) _
  have hframe : ∀ pg ∈ owned, frameOf s'.ram pg = frameOf s.ram pg := fun pg hpg =>
    frameOf_congr (hwalk pg hpg)
  have hfree : s'.freeFrames = s.freeFrames := Machine.freeFrames_congr (by rw [hstep.eq])
  have hfr : frames owned s' = frames owned s := by
    rw [frames, frames, hfree, List.map_congr_left hframe]
  have hb := hstep.bound H.bound hC
  refine ⟨⟨hT, hb, ?_, fun pg hpg => List.mem_cons_of_mem _ (H.dir pg hpg), H.low,
    fun pg hpg => ?_, hfr ▸ H.nodup, hfr ▸ H.frame⟩, ⟨?_, ?_, ?_, ?_, hframe, fun d' => ?_⟩⟩
  · rw [hstep.eq]
    exact H.manager
  · rw [hwalk pg hpg]
    exact H.mapped pg hpg
  · rw [hstep.eq]
  · rw [hstep.eq]
  · rw [hstep.eq]
  · rw [hfree]
  · funext v
    unfold view
    split
    · next hm =>
      have := H.owned_frame hm
      rw [hframe _ hm]
      exact hstep.above _ (by omega)
    · rfl

/-- Another directory is loaded. -/
theorem switch (H : Space W dirs owned s) (hd : d ∈ dirs) :
    Space W dirs owned { s with cr3 := d } :=
  ⟨⟨H.tables.forest, H.tables.base, hd⟩, H.bound, H.manager, H.dir, H.low, H.mapped, H.nodup,
    H.frame⟩

end Space

/-- The invariant of a heap depends on the heap's own pages. -/
theorem UserAllocator.Inv.transport {heap : UserAllocator} (H : Inv W dirs heap rest bs s)
    (hs : Space W dirs' (heap.pages ++ rest') s') (hd : heap.pageDirectory ∈ dirs')
    (hf : Foreign heap.pageDirectory rest') (hv : view heap.pages s'.ram heap.pageDirectory =
      view heap.pages s.ram heap.pageDirectory) : Inv W dirs' heap rest' bs s' := by
  have hown : ∀ e ∈ bs, ∀ i < 24 + e.size, ⟨heap.pageDirectory, (e.addr + i) / 4096⟩ ∈ heap.pages := by
    intro e he i hi
    obtain ⟨h1, h2⟩ := H.tiles.bounds he
    have h3 := H.aligned
    have h4 := H.start
    have h5 : userHeapStartAddr % 4096 = 0 := by decide
    exact H.mem_pages.mpr ⟨rfl, by omega, by omega⟩
  refine ⟨hs, hd, hf, ⟨H.listed.blocks.congr fun e he i hi => ?_, fun e he i hi => ?_,
    H.listed.nonnull, H.listed.top⟩, H.first, H.start, H.tiles, H.aligned, H.top⟩
  · have hm := hown e he i (Nat.lt_add_right _ hi)
    rw [bytes, bytes, view_eq_of_subset hm (List.subset_append_left _ _),
      view_eq_of_subset hm (List.subset_append_left _ _), hv]
  · exact List.mem_append_left _ (hown e he i hi)

/-! ### A process -/

/-- The constructor builds a heap for the directory that is loaded. -/
theorem Process.new_safe (hW : W ≤ directMapSize) (H : Space W dirs rest s) (ha : s.cr3 = d)
    (hf : UserAllocator.Foreign d rest) (hnone : s.gKernelHeap = none) :
    Prog.Safe (Promise W) Trap.IsDirectMap (new d) s fun m s' => ∃ place heap bs s1,
      m.heap = some (place, heap) ∧ m.pageDirectory = d ∧ heap.pageDirectory = d ∧
        UserAllocator.Built W dirs heap rest bs s1 s' ∧ s1.ram = s.ram ∧
          s1.freeFrames = s.freeFrames ∧ s'.gKernelHeap = none := by
  have h16 : Virt.sizeofNode ≤ 4096 := by decide
  have hvirt : Prog.Safe (Promise W) Trap.IsDirectMap Virt.new s fun _ s' =>
      Space W dirs rest s' ∧ s' = { s with placement := s'.placement, reserved := s'.reserved } := by
    rw [Virt.new, Virt.pushBack]
    refine placementObject_safe H h16 fun _ s1 h1 h2 =>
      placementObject_safe h1 h16 fun _ s2 h3 h4 => Prog.Safe.pure ⟨h3, ?_⟩
    rw [h4, h2]
  rw [new]
  refine Prog.Safe.bind hvirt ?_
  rintro v s1 - ⟨H1, heq1⟩
  have hnone1 : s1.gKernelHeap = none := by rw [heq1]; exact hnone
  have hplace : Prog.Safe (Promise W) Trap.IsDirectMap (kmalloc sizeofUserAllocator) s1
      fun place s2 => kvirtualAddress ≤ place ∧ Space W dirs rest s2 ∧
        s2 = { s with placement := s2.placement, reserved := s2.reserved } := by
    refine Prog.Safe.of_run (MemoryManager.kmalloc_run hnone1) fun hC => ⟨?_, H1.placed hW hC, ?_⟩
    · have hb := H1.bound
      have hbase := H1.tables.base
      have hgb := directMapSize_eq
      have hkv := kvirtualAddress_eq
      exact hbase.trans (le_alignUp (by omega))
    · rw [heq1]
  refine Prog.Safe.bind hplace ?_
  rintro place s2 - ⟨hle, H2, heq2⟩
  have htouch : Prog.Safe (Promise W) Trap.IsDirectMap
      (touchObject place sizeofUserAllocator) s2 fun _ s' => s' = s2 := by
    rw [touchObject, if_pos hle, touch]
    split
    · exact Prog.Safe.pure rfl
    · exact Prog.Safe.throw trivial
  refine Prog.Safe.bind htouch ?_
  rintro _ s3 - rfl
  have ha2 : s3.cr3 = d := by rw [heq2]; exact ha
  refine Prog.Safe.bind (UserAllocator.new_safe H2 ha2 hf).and_run ?_
  rintro heap s4 - ⟨⟨hdir, bs, hb⟩, hrun⟩
  have hheap := ((UserAllocator.new_spends d).of_run hrun).heap
  exact Prog.Safe.pure ⟨place, heap, bs, s3, rfl, rfl, hdir, hb, by rw [heq2],
    Machine.freeFrames_congr (by rw [heq2]), by rw [hheap, heq2]; exact hnone⟩

/-! ### The stack -/

theorem Process.setupStack_run {self self' : Process} {stackSize : Nat} {r : Bool}
    (h : (self.setupStack stackSize).run s = (.ok (r, self'), s')) :
    self'.heap = self.heap ∧ self'.pageDirectory = self.pageDirectory ∧
      (ProcessMemory.mapStack self.pageDirectory
        (sub64 ProcessMemory.userStackTop (alignUp stackSize))
        (ProcessMemory.stackPages stackSize) 0).run s = (.ok r, s') := by
  rw [setupStack, ProcessMemory.setupStack_eq, Prog.run_bind_eq_ok] at h
  obtain ⟨⟨r1, mem⟩, s1, h1, h2⟩ := h
  rw [Prog.run_bind_eq_ok] at h1
  obtain ⟨r2, s2, h3, h4⟩ := h1
  cases h4
  cases h2
  exact ⟨rfl, rfl, h3⟩

/-- The loop of `setup_stack` makes pages owned pages as far as there are frames. -/
theorem ProcessMemory.mapStack_safe (H : Space W dirs (pagesOf d p i ++ owned) s) (hd : d ∈ dirs)
    (hnot : ∀ pg ∈ pagesOf d p (i + min n s.freeFrames.length), pg ∉ owned)
    (hp : p + i + n ≤ 2 ^ 27) :
    Prog.Safe (Promise W) Trap.IsDirectMap (mapStack d (4096 * p) n i) s fun r s' =>
      Space W dirs (pagesOf d p (i + min n s.freeFrames.length) ++ owned) s' ∧ Kept owned s s' ∧
        r = decide (n ≤ s.freeFrames.length) ∧ s'.freeFrames = s.freeFrames.drop n := by
  induction n generalizing i s with
  | zero =>
    refine Prog.Safe.pure ⟨?_, Kept.refl s, rfl, rfl⟩
    rwa [Nat.zero_min, Nat.add_zero]
  | succ n ih =>
    have hsub : owned ⊆ pagesOf d p i ++ owned := List.subset_append_right _ _
    rcases hfree : s.freeFrames with _ | ⟨f, fs⟩
    · rw [mapStack_succ]
      refine Prog.Safe.bind_run (Physical.alloc_run_nil H.manager hfree) ?_
      rw [if_pos rfl]
      refine Prog.Safe.pure ⟨?_, Kept.refl s, rfl, ?_⟩
      · rwa [List.length_nil, Nat.min_zero, Nat.add_zero]
      · rw [hfree, List.drop_nil]
    · rw [hfree, List.length_cons, Nat.succ_min_succ] at hnot
      obtain ⟨m, hrun, hm⟩ := Physical.alloc_run_cons H.manager hfree
      obtain ⟨h1, h2, h3, h4⟩ := H.alloc hfree hm
      obtain ⟨s1, hs1⟩ : ∃ s1, s1 = { s with gPhysicalManager := some m } := ⟨_, rfl⟩
      rw [← hs1] at hrun h1 h2 h3
      have hfree1 : s1.freeFrames = fs := by
        rw [hs1]
        exact hm
      have hpos := H.W_pos
      have hpage : (⟨d, p + i⟩ : Page) ∉ pagesOf d p i ++ owned := by
        rw [List.mem_append]
        rintro (hm | hm)
        · have := mem_pagesOf.mp hm
          simp only at this
          omega
        · exact hnot _ (mem_pagesOf.mpr ⟨rfl, by simp only; omega, by simp only; omega⟩) hm
      rw [mapStack_succ]
      refine Prog.Safe.bind_run hrun ?_
      rw [if_neg (by omega), pageAt_eq (by omega)]
      refine Prog.Safe.bind (h1.map_safe hd (by omega) hpage (by decide) h3 h4) ?_
      rintro r s2 - ⟨rfl, h5, h6, -, hfree2⟩
      rw [if_neg (by simp)]
      rw [hfree1] at hfree2
      refine (ih (i := i + 1) h5 ?_ (by omega)).mono ?_
      · rw [hfree2, show i + 1 + min n fs.length = i + (min n fs.length + 1) by omega]
        exact hnot
      · rintro r s3 - ⟨h7, h8, h9, h10⟩
        rw [hfree2] at h7 h9 h10
        refine ⟨?_, ((h2.subset hsub).trans (h6.subset hsub)).trans h8, ?_, ?_⟩
        · rwa [List.length_cons, Nat.succ_min_succ,
            show i + (min n fs.length + 1) = i + 1 + min n fs.length by omega]
        · rw [h9]
          simp
        · rw [h10]
          rfl

/-! ### The pages of the system -/

/-- What a directory shows depends on its own pages. -/
theorem view_congr_pages {ram : Mem} (h : ∀ n, ⟨d, n⟩ ∈ owned ↔ ⟨d, n⟩ ∈ rest) :
    view owned ram d = view rest ram d := by
  funext v
  simp only [view, h]

namespace System

variable {σ σ' : System} {p q : Proc} {procs ps : List Proc} {l : Option Nat} {pg : Page}

theorem mem_heapPages : pg ∈ heapPages ps ↔ ∃ p ∈ ps, pg ∈ p.heap.pages := List.mem_flatMap

theorem dir_of_mem_pages {heap : UserAllocator} (h : pg ∈ heap.pages) :
    pg.dir = heap.pageDirectory := (mem_pagesOf.mp h).1

theorem pages_perm (h : σ.procs.Perm (p :: ps)) :
    (p.heap.pages ++ (heapPages ps ++ σ.stackPages)).Perm σ.pages := by
  have hflat := List.Perm.flatMap_right (fun p : Proc => p.heap.pages) h.symm
  rw [List.flatMap_cons] at hflat
  rw [← List.append_assoc]
  exact hflat.append_right _

theorem subset_pages (hp : p ∈ σ.procs) : p.heap.pages ⊆ σ.pages := fun _ h =>
  List.mem_append_left _ (mem_heapPages.mpr ⟨p, hp, h⟩)

/-- The pages of one heap. -/
theorem Sound.heapSpace (H : Space W dirs σ.pages s) (hp : p ∈ σ.procs) :
    Space W dirs (p.heap.pages ++ []) s := by
  obtain ⟨xs, ys, heq⟩ := List.append_of_mem hp
  rw [List.append_nil]
  apply H.sublist
  rw [pages, heq, heapPages, List.flatMap_append, List.flatMap_cons]
  exact (List.sublist_append_of_sublist_right (List.sublist_append_left _ _)).trans
    (List.sublist_append_left _ _)

/-- A heap of a process that was spared. -/
theorem Sound.spared (H : Sound W σ) (hs : Space W σ'.dirs σ'.pages σ'.machine)
    (h : Spares l σ σ') (hq : q ∈ σ.procs) (hl : l ≠ some q.dir) :
    ∃ bs, q.heap.Inv W σ'.dirs [] bs σ'.machine ∧ q.live.Perm (pointers 24 bs) := by
  obtain ⟨bs, hI, hlive⟩ := H.heaps q hq
  refine ⟨bs, hI.transport (Sound.heapSpace hs (h.procs q hq hl)) (h.dirs hI.dir)
    (fun _ h => absurd h List.not_mem_nil) ?_, hlive⟩
  exact funext (view_subset (fun v => by rw [h.shows _ hl]) (subset_pages hq))

/-- The heap of one process, among the pages of all. -/
theorem Sound.heap (H : Sound W σ) (h : σ.procs.Perm (p :: ps)) :
    ∃ bs, p.heap.Inv W σ.dirs (heapPages ps ++ σ.stackPages) bs σ.machine ∧
      p.live.Perm (pointers 24 bs) := by
  have hp : p ∈ σ.procs := h.mem_iff.mpr List.mem_cons_self
  obtain ⟨bs, hI, hlive⟩ := H.heaps p hp
  refine ⟨bs, hI.transport (H.space.perm (pages_perm h)) hI.dir ?_ rfl, hlive⟩
  intro pg hpg hdir
  rcases List.mem_append.mp hpg with hpg | hpg
  · obtain ⟨q, hq, hpg⟩ := mem_heapPages.mp hpg
    have hnd := (h.map Proc.dir).nodup_iff.mp H.apart
    rw [List.map_cons, List.nodup_cons] at hnd
    exact absurd (List.mem_map.mpr ⟨q, hq, (dir_of_mem_pages hpg).symm.trans hdir⟩) hnd.1
  · exact .inr (H.above pg hpg)

/-- What another directory shows has nothing to do with the heap of `p`. -/
theorem view_others {ram : Mem} (h : σ.procs.Perm (p :: ps)) (hd : d ≠ p.dir) :
    view σ.pages ram d = view (heapPages ps ++ σ.stackPages) ram d := by
  apply view_congr_pages
  intro n
  rw [← (pages_perm h).mem_iff, List.mem_append]
  exact or_iff_right fun hm => hd (dir_of_mem_pages hm)

/-! ### Steps -/

/-- What every step gives. -/
structure Stepped (W : Nat) (l : Option Nat) (σ σ' : System) : Prop where
  sound : Sound W σ'
  spares : Spares l σ σ'

/-- A step of the kernel. -/
theorem Sound.kernel (H : Sound W σ) (hdirs : σ.dirs ⊆ dirs)
    (hs : Space W dirs σ.pages s') (hshows : ∀ d, view σ.pages s'.ram d =
      view σ.pages σ.machine.ram d) (hheap : s'.gKernelHeap = none) :
    Stepped W none σ { σ with machine := s', dirs := dirs } := by
  have hsp : Spares none σ { σ with machine := s', dirs := dirs } :=
    ⟨hdirs, fun _ hq _ => hq, fun _ hpg _ => hpg, fun d _ => hshows d⟩
  exact ⟨⟨H.window, hs, fun p hp => H.spared hs hsp hp (by simp), H.same, H.apart, H.above, hheap⟩,
    hsp⟩

/-- A step of the process `p`, which becomes `p'`. -/
theorem Sound.process {p' : Proc} {stack : List Page} (H : Sound W σ)
    (h : σ.procs.Perm (p :: ps)) (hdir : p'.dir = p.dir)
    (hmem : p'.mem.pageDirectory = p.mem.pageDirectory) (hheap : s'.gKernelHeap = none)
    (habove : ∀ pg ∈ stack, userHeapMaxAddr / 4096 ≤ pg.number)
    (hstack : ∀ pg ∈ σ.stackPages, pg.dir ≠ p.dir → pg ∈ stack)
    (hs : Space W σ.dirs (heapPages (p' :: ps) ++ stack) s')
    (hshows : ∀ d, d ≠ p.dir → view (heapPages ps ++ σ.stackPages) s'.ram d =
      view (heapPages ps ++ σ.stackPages) σ.machine.ram d)
    (hown : ∃ bs, p'.heap.Inv W σ.dirs [] bs s' ∧ p'.live.Perm (pointers 24 bs)) :
    Stepped W (some p.dir) σ ⟨s', σ.dirs, p' :: ps, stack⟩ := by
  have hnd := (h.map Proc.dir).nodup_iff.mp H.apart
  have hsp : Spares (some p.dir) σ ⟨s', σ.dirs, p' :: ps, stack⟩ := by
    refine ⟨List.Subset.refl _, fun q hq hl => ?_, fun pg hpg hl => ?_, fun d hl => ?_⟩
    · rcases List.mem_cons.mp (h.mem_iff.mp hq) with rfl | hq
      · exact absurd rfl hl
      · exact List.mem_cons_of_mem _ hq
    · exact hstack pg hpg fun hd => hl (by rw [hd])
    · have hd : d ≠ p.dir := fun hd => hl (by rw [hd])
      rw [view_others h hd, view_others h hd]
      exact hshows d hd
  refine ⟨⟨H.window, hs, fun q hq => ?_, fun q hq => ?_, ?_, habove, hheap⟩, hsp⟩
  · rcases List.mem_cons.mp hq with rfl | hq
    · exact hown
    · refine H.spared hs hsp (h.mem_iff.mpr (List.mem_cons_of_mem _ hq)) fun hl => ?_
      rw [List.map_cons, List.nodup_cons] at hnd
      exact hnd.1 (List.mem_map.mpr ⟨q, hq, (Option.some.inj hl).symm⟩)
  · rcases List.mem_cons.mp hq with rfl | hq
    · rw [hmem, hdir]
      exact H.same p (h.mem_iff.mpr List.mem_cons_self)
    · exact H.same q (h.mem_iff.mpr (List.mem_cons_of_mem _ hq))
  · rw [List.map_cons, hdir]
    rwa [List.map_cons] at hnd

theorem Sound.createDirectory (H : Sound W σ)
    (h : Paging.createUserPageDirectory.run σ.machine = (.ok d, s')) (hC : s' ∈ Promise W) :
    Stepped W none σ { σ with machine := s', dirs := d :: σ.dirs } := by
  rw [createUserPageDirectory_run] at h
  obtain ⟨hs, hk⟩ := H.space.directory.ok h hC
  exact H.kernel (List.subset_cons_self _ _) hs hk.shows (hk.heap.trans H.noHeap)

theorem Sound.switch (H : Sound W σ) (hd : d ∈ σ.dirs) :
    Stepped W none σ { σ with machine := { σ.machine with cr3 := d } } :=
  H.kernel (List.Subset.refl _) (H.space.switch hd) (fun _ => rfl) H.noHeap

theorem Sound.kmalloc {size r : Nat} (H : Sound W σ)
    (h : (kmalloc size).run σ.machine = (.ok r, s')) (hC : s' ∈ Promise W) :
    Stepped W none σ { σ with machine := s' } := by
  rw [MemoryManager.kmalloc_run H.noHeap] at h
  cases h
  exact H.kernel (List.Subset.refl _) (H.space.placed H.window hC) (fun _ => rfl) H.noHeap

theorem heap_of_has {place : Nat} {heap : UserAllocator} (h : p.mem.heap = some (place, heap)) :
    p.heap = heap := by
  have := p.has.symm.trans h
  cases this
  rfl

/-- A directory without a process has no heap pages. -/
theorem Sound.foreign (H : Sound W σ) (hfresh : ∀ q ∈ σ.procs, q.dir ≠ d) :
    UserAllocator.Foreign d σ.pages := by
  intro pg hpg hdir
  rcases List.mem_append.mp hpg with hpg | hpg
  · obtain ⟨q, hq, hpg⟩ := mem_heapPages.mp hpg
    exact absurd ((dir_of_mem_pages hpg).symm.trans hdir) (hfresh q hq)
  · exact .inr (H.above pg hpg)

theorem Sound.construct (H : Sound W σ) (hfresh : ∀ q ∈ σ.procs, q.dir ≠ σ.machine.cr3)
    (h : (Process.new σ.machine.cr3).run σ.machine = (.ok p.mem, s')) (hlive : p.live = [])
    (hC : s' ∈ Promise W) :
    Stepped W (some σ.machine.cr3) σ { σ with machine := s', procs := p :: σ.procs } := by
  obtain ⟨place, heap, bs, s1, hheap, hmem, hdir, hb, hram, -, hnone⟩ :=
    (Process.new_safe H.window H.space rfl (H.foreign hfresh) H.noHeap).ok h hC
  rw [← heap_of_has hheap] at hdir hb
  have hspace : Space W σ.dirs (heapPages (p :: σ.procs) ++ σ.stackPages) s' := by
    rw [heapPages, List.flatMap_cons, List.append_assoc]
    exact hb.inv.space
  have hsp : Spares (some σ.machine.cr3) σ { σ with machine := s', procs := p :: σ.procs } :=
    ⟨List.Subset.refl _, fun q hq _ => List.mem_cons_of_mem _ hq, fun _ hpg _ => hpg,
      fun d hl => by
        rw [hb.other d fun hd => hl (by rw [hd, hdir]), hram]⟩
  refine ⟨⟨H.window, hspace, ?_, ?_, ?_, H.above, hnone⟩, hsp⟩
  · refine List.forall_mem_cons.mpr ⟨⟨bs, ?_, ?_⟩, fun q hq => ?_⟩
    · refine hb.inv.transport ?_ hb.inv.dir (fun _ h => absurd h List.not_mem_nil) rfl
      exact hb.inv.space.sublist (List.append_nil _ ▸ List.sublist_append_left _ _)
    · rw [hlive, hb.blocks]
      split <;> exact .nil
    · exact H.spared hspace hsp hq fun hl => hfresh q hq (Option.some.inj hl).symm
  · exact List.forall_mem_cons.mpr ⟨hmem.trans hdir.symm, H.same⟩
  · rw [List.map_cons, List.nodup_cons]
    refine ⟨fun hm => ?_, H.apart⟩
    obtain ⟨q, hq, heq⟩ := List.mem_map.mp hm
    exact hfresh q hq (heq.trans hdir)

theorem Sound.call {p' : Proc} {call : Call} {r : Nat} {heap' : UserAllocator} (H : Sound W σ)
    (h : σ.procs.Perm (p :: ps)) (ha : σ.machine.cr3 = p.dir)
    (hpassed : UserAllocator.Passed p.live call)
    (hrun : (p.heap.call call).run σ.machine = (.ok (r, heap'), s'))
    (hmem : p'.mem = { p.mem with heap := some (p.place, heap') })
    (hlive : p'.live = Call.live p.live r call) (hC : s' ∈ Promise W) :
    Stepped W (some p.dir) σ { σ with machine := s', procs := p' :: ps } := by
  obtain ⟨bs, hI, hbs⟩ := H.heap h
  obtain ⟨bs', hafter⟩ := (hI.call_safe ha hbs hpassed).ok hrun hC
  have hheap : p'.heap = heap' := heap_of_has (by rw [hmem])
  have hnone := ((UserAllocator.call_spends p.heap call).of_run hrun).heap.trans H.noHeap
  have hinv := hafter.inv
  simp only at hinv
  rw [← hheap] at hinv
  refine H.process h ?_ (by rw [hmem]) hnone H.above (fun pg hpg _ => hpg) ?_
    hafter.moves.other ⟨bs', ?_, ?_⟩
  · rw [Proc.dir, hheap]
    exact hafter.moves.dir
  · rw [heapPages, List.flatMap_cons, List.append_assoc]
    exact hinv.space
  · refine hinv.transport ?_ hinv.dir (fun _ h => absurd h List.not_mem_nil) rfl
    exact hinv.space.sublist (List.append_nil _ ▸ List.sublist_append_left _ _)
  · rw [hlive]
    exact hafter.serves.live_perm (by decide) hbs

/-- The stack lies between the addresses of the heap and the top. -/
theorem stack_eq {stackSize : Nat} (h : stackSize ≤ ProcessMemory.userStackTop - userHeapMaxAddr) :
    ∃ n ≤ 262128, ProcessMemory.stackPages stackSize = n ∧
      sub64 ProcessMemory.userStackTop (alignUp stackSize) = 4096 * (524272 - n) ∧
      ∀ d s, stackMapped d stackSize s = pagesOf d (524272 - n) (min n s.freeFrames.length) := by
  have htop : ProcessMemory.userStackTop = 4096 * 524272 := by decide
  have hmax : userHeapMaxAddr = 4096 * 262144 := by decide
  rw [htop, hmax] at h
  obtain ⟨h1, h2⟩ := @ProcessMemory.stackPages_eq stackSize (by rw [htop]; omega)
  refine ⟨ProcessMemory.stackPages stackSize, by omega, rfl, ?_, fun d s => ?_⟩
  · rw [h1, htop, sub64]
    omega
  · rw [stackMapped, h1, htop, ← Nat.mul_sub, Nat.mul_div_cancel_left _ (by decide)]

theorem Sound.setupStack {p' : Proc} {stackSize : Nat} {r : Bool} (H : Sound W σ)
    (h : σ.procs.Perm (p :: ps))
    (hsize : stackSize ≤ ProcessMemory.userStackTop - userHeapMaxAddr)
    (hrun : (p.mem.setupStack stackSize).run σ.machine = (.ok (r, p'.mem), s'))
    (hlive : p'.live = p.live) (hC : s' ∈ Promise W) :
    Stepped W (some p.dir) σ { σ with
      machine := s', procs := p' :: ps
      stackPages := stackMapped p.dir stackSize σ.machine ++
        σ.stackPages.filter (· ∉ stackMapped p.dir stackSize σ.machine) } := by
  have hp : p ∈ σ.procs := h.mem_iff.mpr List.mem_cons_self
  obtain ⟨hheap, hdir, hmap⟩ := Process.setupStack_run hrun
  have hheap : p'.heap = p.heap := heap_of_has (hheap.trans p.has)
  obtain ⟨n, hle, hpages, hbottom, hmapped⟩ := stack_eq hsize
  rw [H.same p hp, hbottom, hpages] at hmap
  have hmax : userHeapMaxAddr / 4096 = 262144 := by decide
  obtain ⟨mapped, hM⟩ : ∃ mapped, mapped = stackMapped p.dir stackSize σ.machine := ⟨_, rfl⟩
  rw [← hM]
  have hM' := hM.trans (hmapped p.dir σ.machine)
  have habove : ∀ pg ∈ mapped, pg.dir = p.dir ∧ userHeapMaxAddr / 4096 ≤ pg.number := by
    intro pg hpg
    rw [hM'] at hpg
    obtain ⟨h1, h2, -⟩ := mem_pagesOf.mp hpg
    exact ⟨h1, by omega⟩
  -- the pages mapped anew are those of no heap, and no stack page any more
  obtain ⟨others, hothers⟩ : ∃ others, others =
      heapPages (p :: ps) ++ σ.stackPages.filter (· ∉ mapped) := ⟨_, rfl⟩
  have hsub : others.Sublist (heapPages (p :: ps) ++ σ.stackPages) := by
    rw [hothers]
    exact List.Sublist.append_left (List.filter_sublist) _
  have hspace : Space W σ.dirs (pagesOf p.dir (524272 - n) 0 ++ others) σ.machine := by
    rw [pagesOf, List.nil_append]
    refine Space.sublist (H.space.perm ?_) hsub
    rw [heapPages, List.flatMap_cons, List.append_assoc]
    exact pages_perm h
  have hnot : ∀ pg ∈ pagesOf p.dir (524272 - n) (0 + min n σ.machine.freeFrames.length),
      pg ∉ others := by
    intro pg hpg hm
    rw [Nat.zero_add, ← hM'] at hpg
    rw [hothers] at hm
    rcases List.mem_append.mp hm with hm | hm
    · obtain ⟨q, hq, hm⟩ := mem_heapPages.mp hm
      obtain ⟨bs, hI, -⟩ := H.heaps q (h.mem_iff.mpr hq)
      have h1 := (hI.mem_pages.mp (show (⟨pg.dir, pg.number⟩ : Page) ∈ q.heap.pages from hm)).2.2
      have h2 := hI.top
      have h3 := (habove pg hpg).2
      have h4 : userHeapMaxAddr = 4096 * 262144 := by decide
      omega
    · exact of_decide_eq_true (List.mem_filter.mp hm).2 hpg
  obtain ⟨bs, hI, hbs⟩ := H.heaps p hp
  obtain ⟨H', hk, -, -⟩ :=
    (ProcessMemory.mapStack_safe hspace hI.dir hnot (by omega)).ok hmap hC
  rw [Nat.zero_add, ← hM', hothers] at H'
  have hsame : heapPages (p' :: ps) = heapPages (p :: ps) := by
    rw [heapPages, List.flatMap_cons, hheap, heapPages, List.flatMap_cons]
  have hown : p.heap.pages ⊆ others := fun pg hpg => by
    rw [hothers]
    exact List.mem_append_left _ (mem_heapPages.mpr ⟨p, List.mem_cons_self, hpg⟩)
  have hspace' : Space W σ.dirs (heapPages (p' :: ps) ++
      (mapped ++ σ.stackPages.filter (· ∉ mapped))) s' := by
    rw [hsame]
    exact H'.perm (List.perm_append_comm_assoc _ _ _)
  refine H.process h (by rw [Proc.dir, hheap]) hdir (hk.heap.trans H.noHeap) ?_ ?_ hspace' ?_ ?_
  · intro pg hpg
    rcases List.mem_append.mp hpg with hpg | hpg
    · exact (habove pg hpg).2
    · exact H.above pg (List.mem_filter.mp hpg).1
  · intro pg hpg hne
    refine List.mem_append_right _ (List.mem_filter.mpr ⟨hpg, decide_eq_true fun hm => ?_⟩)
    exact hne (habove pg hm).1
  · intro d hd
    have hview : ∀ ram, view (heapPages ps ++ σ.stackPages) ram d = view others ram d := by
      intro ram
      apply view_congr_pages
      intro m
      rw [hothers, List.mem_append, List.mem_append, List.mem_filter, mem_heapPages, mem_heapPages]
      constructor
      · rintro (⟨q, hq, hm⟩ | hm)
        · exact .inl ⟨q, List.mem_cons_of_mem _ hq, hm⟩
        · exact .inr ⟨hm, decide_eq_true fun hm' => hd (habove _ hm').1⟩
      · rintro (⟨q, hq, hm⟩ | hm)
        · rcases List.mem_cons.mp hq with rfl | hq
          · exact absurd (dir_of_mem_pages hm) hd
          · exact .inl ⟨q, hq, hm⟩
        · exact .inr hm.1
    rw [hview, hview, hk.shows]
  · refine ⟨bs, ?_, by rw [hlive]; exact hbs⟩
    rw [hheap]
    refine hI.transport ?_ hI.dir (fun _ h => absurd h List.not_mem_nil) ?_
    · have := @Sound.heapSpace _ _ _ ⟨s', σ.dirs, p' :: ps,
        mapped ++ σ.stackPages.filter (· ∉ mapped)⟩ p' hspace' List.mem_cons_self
      rwa [hheap] at this
    · exact funext (view_subset (fun v => by rw [hk.shows]) hown)

/-- The order of the processes does not matter. -/
theorem Stepped.perm {ps' : List Proc} {stack : List Page}
    (h : Stepped W l σ ⟨s', dirs, ps, stack⟩) (hp : ps'.Perm ps) :
    Stepped W l σ ⟨s', dirs, ps', stack⟩ := by
  obtain ⟨⟨h1, h2, h3, h4, h5, h6, h7⟩, h8, h9, h10, h11⟩ := h
  have hpages : (heapPages ps' ++ stack).Perm (heapPages ps ++ stack) :=
    (List.Perm.flatMap_right _ hp).append_right _
  exact ⟨⟨h1, h2.perm hpages, fun q hq => h3 q (hp.mem_iff.mp hq),
    fun q hq => h4 q (hp.mem_iff.mp hq), (hp.map _).nodup_iff.mpr h5, h6, h7⟩, h8,
    fun q hq hl => hp.mem_iff.mpr (h9 q hq hl), h10, h11⟩

/-- A program writes its own pages. -/
theorem Sound.write {a : Nat} {x : UInt8} (H : Sound W σ) (hp : p ∈ σ.procs)
    (ha : σ.machine.cr3 = p.dir) (hmay : ⟨p.dir, a / 4096⟩ ∈ σ.stackPages ∨
      ∃ q ∈ p.live, a ∈ UserAllocator.payloadAt σ.machine q)
    (h : (store8 a x).run σ.machine = (.ok (), s')) :
    Stepped W (some p.dir) σ { σ with machine := s' } := by
  obtain ⟨xs, ys, heq⟩ := List.append_of_mem hp
  have hperm : σ.procs.Perm (p :: (xs ++ ys)) := heq ▸ List.perm_middle
  obtain ⟨bs, hI, hbs⟩ := H.heap hperm
  obtain ⟨others, hothers⟩ : ∃ others, others = heapPages (xs ++ ys) ++ σ.stackPages := ⟨_, rfl⟩
  rw [← hothers] at hI
  have hmem : ⟨σ.machine.cr3, a / 4096⟩ ∈ p.heap.pages ++ others := by
    rw [ha]
    rcases hmay with hm | ⟨q, hq, hm⟩
    · rw [hothers]
      exact List.mem_append_right _ (List.mem_append_right _ hm)
    · obtain ⟨b, hb, rfl⟩ := used_of_pointer (hbs.subset hq)
      obtain ⟨hb, -⟩ := mem_used.mp hb
      rw [hI.payloadAt_eq ha hb] at hm
      obtain ⟨h1, h2⟩ := Block.mem_payload.mp hm
      have := hI.listed.covers b hb (a - b.addr) (by change _ < 24 + b.size; omega)
      rwa [Nat.add_sub_cancel' (by omega)] at this
  obtain ⟨s1, hrun, w⟩ := store8_run hI.space hmem x
  cases h.symm.trans hrun
  have hown : p.heap.Inv W σ.dirs others bs s' := by
    rcases hmay with hm | ⟨q, hq, hm⟩
    · refine hI.transport w.space hI.dir hI.foreign (funext fun v => ?_)
      by_cases hv : ⟨p.heap.pageDirectory, v / 4096⟩ ∈ p.heap.pages
      · have hne : v ≠ a := by
          rintro rfl
          have h1 := (hI.mem_pages.mp hv).2.2
          have h2 := hI.top
          have h3 := H.above _ hm
          have h4 : userHeapMaxAddr = 4096 * 262144 := by decide
          simp only at h3
          omega
        have hshows := w.shows
        rw [ha] at hshows
        rw [← view_eq_of_subset hv (List.subset_append_left _ others), hshows,
          Function.update_of_ne hne, view_eq_of_subset hv (List.subset_append_left _ _)]
      · rw [view, if_neg hv, view, if_neg hv]
    · obtain ⟨b, hb, rfl⟩ := used_of_pointer (hbs.subset hq)
      obtain ⟨hb, -⟩ := mem_used.mp hb
      rw [hI.payloadAt_eq ha hb] at hm
      refine (hI.payload ha hb w (fun c hc => ?_) (List.nil_subset _) List.not_mem_nil).1
      have hne : c ≠ a := by
        rintro rfl
        exact hc hm
      rw [Function.update_of_ne hne, ha]
      rfl
  refine Stepped.perm (H.process hperm rfl rfl ?_ H.above (fun _ hpg _ => hpg) ?_ (fun d hd => ?_)
    ⟨bs, ?_, hbs⟩) hperm
  · rw [w.eq]
    exact H.noHeap
  · have := hown.space
    rwa [hothers, ← List.append_assoc] at this
  · rw [← hothers]
    exact funext (view_subset (fun v => by rw [w.other d (ha ▸ hd)])
      (List.subset_append_right _ _))
  · refine hown.transport ?_ hown.dir (fun _ h => absurd h List.not_mem_nil) rfl
    exact hown.space.sublist (List.append_nil _ ▸ List.sublist_append_left _ _)

/-- Without a kernel heap, the destructor unmaps the pages of the heap. -/
theorem cleanupAll_run {mem' : Process} (hnone : s.gKernelHeap = none)
    (h : p.mem.cleanupAll.run s = (.ok mem', s')) :
    (UserAllocator.cleanupOnExit p.heap).run s = (.ok (), s') := by
  rw [Process.cleanupAll, p.has] at h
  simp only at h
  rw [Prog.run_bind_eq_ok] at h
  obtain ⟨_, s1, h1, h2⟩ := h
  rw [Prog.run_bind_eq_ok] at h2
  obtain ⟨_, s2, h3, h4⟩ := h2
  cases h4
  have hnone1 : s1.gKernelHeap = none :=
    (UserAllocator.cleanupOnExit_memoryOnly.of_run h1).spends.heap.trans hnone
  have hkfree : (kfree p.place).run s1 = (.ok (), s1) := by
    rw [kfree, Prog.run_bind_ok (Prog.run_get s1)]
    simp only [hnone1]
    rfl
  rw [hkfree] at h3
  cases h3
  exact h1

/-- `cleanup_on_exit` as a loop over the pages. -/
theorem cleanupOnExit_eq {heap : UserAllocator} (H : heap.Inv W dirs rest bs s) :
    ∃ k n, heap.heapStart = 4096 * k ∧ heap.heapCurrent = 4096 * (k + n) ∧ k + n ≤ 2 ^ 27 ∧
      heap.pages = pagesOf heap.pageDirectory k n ∧
      heap.cleanupOnExit = unmapPages (pure heap.pageDirectory) (4096 * k) n := by
  have hstart : heap.heapStart = 4096 * 32768 := H.start.trans (by decide)
  have hmax : userHeapMaxAddr = 4096 * 262144 := by decide
  have hle := H.heapStart_le
  have hmod := H.aligned
  have htop := H.top
  rw [hmax] at htop
  obtain ⟨n, hn⟩ : ∃ n, heap.heapCurrent = 4096 * (32768 + n) :=
    ⟨heap.heapCurrent / 4096 - 32768, by omega⟩
  have hlen : heap.heapCurrent - heap.heapStart = 4096 * n := by omega
  refine ⟨32768, n, hstart, hn, by omega, ?_, ?_⟩
  · rw [UserAllocator.pages, hlen, hstart, Nat.mul_div_cancel_left _ (by decide),
      Nat.mul_div_cancel_left _ (by decide)]
  · have hsub : sub64 heap.heapCurrent heap.heapStart = 4096 * n := by
      rw [sub64_eq hle (by omega), hlen]
    have hup : alignUp (4096 * n) = 4096 * n :=
      alignUp_of_aligned (by omega) (Nat.mul_mod_right _ _)
    rw [UserAllocator.cleanupOnExit]
    by_cases hlt : heap.heapStart < heap.heapCurrent
    · rw [if_pos hlt, UserAllocator.sysReleaseMemory, hsub, hup, hstart, frameSize,
        Nat.mul_div_cancel_left _ (by decide)]
    · obtain rfl : n = 0 := by omega
      rw [if_neg hlt]
      rfl

theorem Sound.destroy {mem' : Process} (H : Sound W σ) (h : σ.procs.Perm (p :: ps))
    (hrun : p.mem.cleanupAll.run σ.machine = (.ok mem', s')) :
    Stepped W (some p.dir) σ { σ with machine := s', procs := ps } := by
  obtain ⟨bs, hI, -⟩ := H.heap h
  obtain ⟨k, n, -, -, hle, hpages, heq⟩ := cleanupOnExit_eq hI
  have hclean := cleanupAll_run H.noHeap hrun
  have hothers : Space W σ.dirs (heapPages ps ++ σ.stackPages) σ.machine :=
    hI.space.sublist (List.sublist_append_right _ _)
  have hnot : ∀ pg ∈ pagesOf p.heap.pageDirectory (k + 0) n, pg ∉ heapPages ps ++ σ.stackPages := by
    intro pg hpg hm
    rw [Nat.add_zero, ← hpages] at hpg
    have hnd := List.Nodup.of_map _ (List.Nodup.of_append_left hI.space.nodup)
    exact (List.nodup_append.mp hnd).2.2 pg hpg pg hm rfl
  obtain ⟨s1, hunmap, hs, hk, -⟩ := unmapPages_run hothers hI.dir
    (fun s' _ => Prog.run_pure p.heap.pageDirectory s') hnot (by omega)
  rw [heq, unmapPages, hunmap] at hclean
  cases hclean
  have hnd := (h.map Proc.dir).nodup_iff.mp H.apart
  rw [List.map_cons, List.nodup_cons] at hnd
  have hsp : Spares (some p.dir) σ { σ with machine := s', procs := ps } := by
    refine ⟨List.Subset.refl _, fun q hq hl => ?_, fun _ hpg _ => hpg, fun d hl => ?_⟩
    · rcases List.mem_cons.mp (h.mem_iff.mp hq) with rfl | hq
      · exact absurd rfl hl
      · exact hq
    · have hd : d ≠ p.dir := fun hd => hl (by rw [hd])
      rw [view_others h hd, view_others h hd, hk.shows]
  refine ⟨⟨H.window, hs, fun q hq => ?_, fun q hq => ?_, hnd.2, H.above, hk.heap.trans H.noHeap⟩,
    hsp⟩
  · refine H.spared hs hsp (h.mem_iff.mpr (List.mem_cons_of_mem _ hq)) fun hl => ?_
    exact hnd.1 (List.mem_map.mpr ⟨q, hq, (Option.some.inj hl).symm⟩)
  · exact H.same q (h.mem_iff.mpr (List.mem_cons_of_mem _ hq))

/-! ### Runs -/

/-- Every step keeps the system in order and spares the processes of other directories. -/
theorem Sound.step (H : Sound W σ) (h : Step W l σ σ') : Stepped W l σ σ' := by
  cases h with
  | createDirectory h hC => exact H.createDirectory h hC
  | switch hd => exact H.switch hd
  | kmalloc h hC => exact H.kmalloc h hC
  | construct hfresh h hlive hC => exact H.construct hfresh h hlive hC
  | call h ha hpassed hrun hmem hlive hC => exact H.call h ha hpassed hrun hmem hlive hC
  | setupStack h hsize hrun hlive hC => exact H.setupStack h hsize hrun hlive hC
  | write hp ha hmay h => exact H.write hp ha hmay h
  | destroy h hrun => exact H.destroy h hrun

theorem Run.sound (h : Run W σ) : Sound W σ := by
  induction h with
  | start H hnone hW =>
    exact ⟨hW, H, by simp, by simp, List.nodup_nil, by simp, hnone⟩
  | step _ hstep ih => exact (ih.step hstep).sound

theorem Sound.mapped_iff (H : Sound W σ) {v : Nat} :
    σ.Mapped d v ↔ ⟨d, v / 4096⟩ ∈ σ.pages := by
  rw [Mapped, pages, List.mem_append, mem_heapPages]
  refine or_congr_left (exists_congr fun p => and_congr_right fun hp => ?_)
  obtain ⟨bs, hI, -⟩ := H.heaps p hp
  have h1 := hI.aligned
  have h2 : p.heap.heapStart % 4096 = 0 := by rw [hI.start]; decide
  rw [hI.mem_pages]
  constructor
  · rintro ⟨rfl, h3, h4⟩
    exact ⟨rfl, by omega, by omega⟩
  · rintro ⟨rfl, h3, h4⟩
    exact ⟨rfl, by omega, by omega⟩

/-- What one process shows of its pages, after steps of others. -/
theorem Steps.spared (h : Steps W d σ σ') (H : Sound W σ) : Sound W σ' ∧
    (∀ q ∈ σ.procs, q.dir = d → q ∈ σ'.procs) ∧
    ∀ v, ⟨d, v / 4096⟩ ∈ σ.pages → ⟨d, v / 4096⟩ ∈ σ'.pages ∧
      view σ'.pages σ'.machine.ram d v = view σ.pages σ.machine.ram d v := by
  induction h with
  | refl => exact ⟨H, fun _ hq _ => hq, fun _ hv => ⟨hv, rfl⟩⟩
  | @step l σ₁ σ' _ hstep hl ih =>
    obtain ⟨h1, h2, h3⟩ := ih
    obtain ⟨h4, h5⟩ := h1.step hstep
    have hproc : ∀ q ∈ σ₁.procs, q.dir = d → q ∈ σ'.procs := fun q hq hd => h5.procs q hq (hd ▸ hl)
    refine ⟨h4, fun q hq hd => hproc q (h2 q hq hd) hd, fun v hv => ?_⟩
    obtain ⟨h6, h7⟩ := h3 v hv
    have h8 : ⟨d, v / 4096⟩ ∈ σ'.pages := by
      rcases List.mem_append.mp h6 with h | h
      · obtain ⟨q, hq, hm⟩ := mem_heapPages.mp h
        exact subset_pages (hproc q hq (dir_of_mem_pages hm).symm) hm
      · exact List.mem_append_right _ (h5.stack _ h hl)
    refine ⟨h8, ?_⟩
    rw [← h7, ← h5.shows d hl, view_of_mem h8, view_of_mem h6]

end System

/-! ### Two processes -/

/-- The constructor of a heap returns when there are frames, room for tables, and a page for the
header in the directory that is loaded. -/
theorem UserAllocator.exists_new_run (H : Space W dirs owned s) (hd : d ∈ dirs)
    (hnot : ∀ pg ∈ pagesOf d 32768 256, pg ∉ owned)
    (hcov : Covers (pagesOf d 32768 256 ++ owned) s.cr3 userHeapStartAddr 24) (hC : s ∈ Promise W)
    (hroom : s.placement + 16384 * 256 ≤ kvirtualAddress + W) (hW : W ≤ directMapSize)
    (hfree : 256 ≤ s.freeFrames.length) :
    ∃ self s', (new d).run s = (.ok self, s') ∧ s' ∈ Promise W ∧
      s'.placement ≤ s.placement + 16384 * 256 ∧ s'.freeFrames = s.freeFrames.drop 256 ∧
      s'.cr3 = s.cr3 ∧ self.firstBlock = userHeapStartAddr ∧ self.pageDirectory = d := by
  have hstart : userHeapStartAddr = 4096 * 32768 := by decide
  have hsize : userHeapInitialSize = 4096 * 256 := by decide
  obtain ⟨self0, hself0⟩ : ∃ self0 : UserAllocator, self0 = ⟨userHeapStartAddr,
    userHeapStartAddr, userHeapMaxAddr, 0, d, 0, 0⟩ := ⟨_, rfl⟩
  have hd0 : self0.pageDirectory = d := by rw [hself0]
  have hnot0 : ∀ pg ∈ pagesOf self0.pageDirectory 32768 256, pg ∉ owned := by rwa [hd0]
  obtain ⟨s1, hrun1, hC1, hpl1, hfree1⟩ := sysRequestMemory_ok (p := 32768) (n := 256) H
    (hd0 ▸ hd) hnot0 (by decide) hC hroom hW
  obtain ⟨hsp, hk, -⟩ := (sysRequestMemory_safe (p := 32768) (n := 256) H (hd0 ▸ hd) hnot0
    (by decide)).ok hrun1 hC1
  rw [decide_eq_true hfree] at hrun1 hsp
  simp only [if_true, hd0] at hsp
  obtain ⟨s2, m, hrun2, w, -, -⟩ := userBlock_lawful.new_run true (Wrote.refl hsp)
    (hk.cr3 ▸ hcov) (v := initialBlock.size) (by decide)
  have hrun : ∃ self, (new d).run s = (.ok self, s2) ∧ self.firstBlock = userHeapStartAddr ∧
      self.pageDirectory = d := by
    rw [hself0, ← hstart, ← hsize] at hrun1
    rw [new, Prog.run_bind_ok hrun1, if_pos rfl, Prog.run_bind_ok (by exact hrun2)]
    exact ⟨_, Prog.run_pure _ _, rfl, rfl⟩
  obtain ⟨self, hrun, hfirst, hpd⟩ := hrun
  refine ⟨self, s2, hrun, ?_, ?_, ?_, ?_, hfirst, hpd⟩ <;> rw [w.eq]
  · exact hC1
  · exact hpl1
  · exact hfree1
  · exact hk.cr3

/-- The first pages of a heap of `d` are not owned before the heap is. -/
theorem UserAllocator.Foreign.not_mem (hf : UserAllocator.Foreign d owned) :
    ∀ pg ∈ pagesOf d 32768 256, pg ∉ owned := by
  have hstart : userHeapStartAddr / 4096 = 32768 := by decide
  have hmax : userHeapMaxAddr / 4096 = 262144 := by decide
  intro pg hpg hr
  obtain ⟨h1, h2, h3⟩ := mem_pagesOf.mp hpg
  have := hf pg hr h1
  omega

/-- A node finds its room. -/
theorem Virt.exists_pushBack_run (H : Space W dirs rest s) (hC : s ∈ Promise W)
    (hroom : s.placement + 32 ≤ kvirtualAddress + W) (hW : W ≤ directMapSize) (v : Virt)
    (node : VirtNode) : ∃ s', (pushBack v node).run s = (.ok ⟨v.freeMemList ++ [node]⟩, s') ∧
      Space W dirs rest s' ∧ s' ∈ Promise W ∧ s'.placement = s.placement + 32 ∧
        MemoryOnly s s' ∧ s'.ram = s.ram := by
  have hkv := kvirtualAddress_eq
  have hgb := directMapSize_eq
  have hbase := H.tables.base
  obtain ⟨a, ha⟩ : ∃ a, s.placement = kvirtualAddress + a :=
    ⟨s.placement - kvirtualAddress, by omega⟩
  rw [ha] at hroom
  have hplace : ∀ b (t : Machine), b + 16 ≤ W → t.placement = kvirtualAddress + b →
      (placementKalloc 16).run t = (.ok (kvirtualAddress + b), { t with
        placement := kvirtualAddress + (b + 16)
        reserved := ⟨kvirtualAddress + b, 16⟩ :: t.reserved }) ∧
      ∀ t', (touch (kvirtualAddress + b) 16).run t' = (.ok (), t') := by
    intro b t hb ht
    refine ⟨?_, fun t' => ?_⟩
    · rw [MemoryManager.placementKalloc_run, if_neg (by decide), ht, add64_eq (by omega),
        Nat.add_assoc]
    · rw [touch, window, if_pos (by omega)]
      rfl
  obtain ⟨h1, h2⟩ := hplace a s (by omega) ha
  obtain ⟨h3, h4⟩ := hplace (a + 16) { s with
    placement := kvirtualAddress + (a + 16)
    reserved := ⟨kvirtualAddress + a, 16⟩ :: s.reserved } (by omega) rfl
  refine ⟨{ s with
    placement := kvirtualAddress + (a + 16 + 16)
    reserved := ⟨kvirtualAddress + (a + 16), 16⟩ :: ⟨kvirtualAddress + a, 16⟩ :: s.reserved },
    ?_, H.place hW rfl ?_ ?_, ?_, ?_, rfl, rfl⟩
  · rw [pushBack, sizeofNode, Prog.run_bind_ok h1, Prog.run_bind_ok (h2 _), Prog.run_bind_ok h3,
      Prog.run_bind_ok (h4 _)]
    rfl
  · simp only [ha]
    omega
  · simp only
    omega
  · refine List.forall_mem_cons.mpr ⟨?_, List.forall_mem_cons.mpr ⟨?_, hC⟩⟩ <;> simp only <;> omega
  · simp only [ha]
    omega

/-- The constructor of a process returns. -/
theorem Process.exists_new_run (H : Space W dirs rest s) (hf : UserAllocator.Foreign s.cr3 rest)
    (hnone : s.gKernelHeap = none) (hC : s ∈ Promise W)
    (hroom : s.placement + 16384 * 256 + 32768 ≤ kvirtualAddress + W) (hW : W ≤ directMapSize)
    (hfree : 256 ≤ s.freeFrames.length) :
    ∃ m s' place heap, (new s.cr3).run s = (.ok m, s') ∧ s' ∈ Promise W ∧
      s'.placement ≤ s.placement + 16384 * 256 + 32768 ∧ s'.freeFrames = s.freeFrames.drop 256 ∧
      s'.cr3 = s.cr3 ∧ m.heap = some (place, heap) ∧ heap.firstBlock = userHeapStartAddr ∧
      heap.pageDirectory = s.cr3 := by
  have hkv := kvirtualAddress_eq
  have hgb := directMapSize_eq
  have hbase := H.tables.base
  obtain ⟨s1, h1, H1, hC1, hpl1, hm1, -⟩ :=
    Virt.exists_pushBack_run H hC (by omega) hW ⟨[]⟩ ⟨Virt.vaddrStart, Virt.vaddrSize⟩
  have hnone1 : s1.gKernelHeap = none := hm1.spends.heap.trans hnone
  have hfree1 : s1.freeFrames = s.freeFrames := Machine.freeFrames_congr hm1.manager
  have hup := @alignUp_lt_add s1.placement (by omega)
  have hle := @le_alignUp s1.placement (by omega)
  have h2 := @MemoryManager.kmalloc_run s1 sizeofUserAllocator hnone1
  obtain ⟨place, hplace⟩ : ∃ place, place = alignUp s1.placement := ⟨_, rfl⟩
  rw [← hplace] at h2 hup hle
  obtain ⟨s2, hs2⟩ : ∃ s2, s2 = { s1 with
    placement := add64 place sizeofUserAllocator
    reserved := ⟨place, sizeofUserAllocator⟩ :: s1.reserved } := ⟨_, rfl⟩
  have hsize : sizeofUserAllocator = 48 := rfl
  have hadd : add64 place sizeofUserAllocator = place + 48 := by rw [hsize, add64_eq (by omega)]
  have hC2 : s2 ∈ Promise W := by
    rw [hs2]
    exact List.forall_mem_cons.mpr ⟨by simp only; omega, hC1⟩
  have H2 : Space W dirs rest s2 := by
    rw [hs2, hplace]
    apply H1.placed hW
    rw [← hplace, ← hs2]
    exact hC2
  have h3 : (touchObject place sizeofUserAllocator).run s2 = (.ok (), s2) := by
    rw [touchObject, if_pos (by omega), touch, window, hsize, if_pos (by omega)]
    rfl
  have hcr3 : s2.cr3 = s.cr3 := by rw [hs2]; exact hm1.spends.cr3
  have hpl2 : s2.placement = place + 48 := by rw [hs2]; exact hadd
  have hfree2 : s2.freeFrames = s.freeFrames := by rw [hs2]; exact hfree1
  have hcov : Covers (pagesOf s.cr3 32768 256 ++ rest) s2.cr3 userHeapStartAddr 24 := by
    rw [hcr3]
    exact (covers_pagesOf (p := 32768) (n := 256) (List.subset_append_left _ _)).mono (by decide)
      (by decide)
  obtain ⟨heap, s3, h4, hC3, hpl3, hfree3, hcr4, hfirst, hpd⟩ := UserAllocator.exists_new_run H2
    H.cr3_mem hf.not_mem hcov hC2 (by omega) hW (by rw [hfree2]; exact hfree)
  rw [← hs2] at h2
  have hrun : ∃ m, (new s.cr3).run s = (.ok m, s3) ∧ m.heap = some (place, heap) := by
    rw [new, Virt.new, Prog.run_bind_ok h1, Prog.run_bind_ok h2, Prog.run_bind_ok h3,
      Prog.run_bind_ok h4]
    exact ⟨_, Prog.run_pure _ _, rfl⟩
  obtain ⟨m, hrun, hheap⟩ := hrun
  exact ⟨m, s3, place, heap, hrun, hC3, by omega, hfree2 ▸ hfree3, hcr4.trans hcr3, hheap, hfirst,
    hpd⟩

namespace System

variable {σ σ' : System} {p q : Proc} {ps : List Proc}

/-- One more process, for the directory that is loaded. -/
theorem Run.exists_construct (h : Run W σ) (hfresh : ∀ q ∈ σ.procs, q.dir ≠ σ.machine.cr3)
    (hC : σ.machine ∈ Promise W)
    (hroom : σ.machine.placement + 16384 * 256 + 32768 ≤ kvirtualAddress + W)
    (hfree : 256 ≤ σ.machine.freeFrames.length) : ∃ p s',
      Step W (some σ.machine.cr3) σ { σ with machine := s', procs := p :: σ.procs } ∧
      p.dir = σ.machine.cr3 ∧ p.heap.firstBlock = userHeapStartAddr ∧ s'.cr3 = σ.machine.cr3 ∧
      s' ∈ Promise W ∧ s'.placement ≤ σ.machine.placement + 16384 * 256 + 32768 ∧
      s'.freeFrames = σ.machine.freeFrames.drop 256 := by
  have H := h.sound
  obtain ⟨m, s', place, heap, hrun, hC', hpl, hfr, hcr, hheap, hfirst, hpd⟩ :=
    Process.exists_new_run H.space (H.foreign hfresh) H.noHeap hC hroom H.window hfree
  refine ⟨⟨m, place, heap, [], hheap⟩, s', .construct hfresh hrun rfl hC', hpd, hfirst, hcr, hC',
    hpl, hfr⟩

/-- One more directory, its table above all memory handed out so far. -/
theorem Run.exists_createDirectory (h : Run W σ) (hC : σ.machine ∈ Promise W)
    (hroom : σ.machine.placement + 16384 ≤ kvirtualAddress + W) (hW : W ≤ directMapSize) :
    ∃ d s', Step W none σ { σ with machine := s', dirs := d :: σ.dirs } ∧ d ∉ σ.dirs ∧
      s' ∈ Promise W ∧ s'.placement ≤ σ.machine.placement + 16384 ∧
      s'.freeFrames = σ.machine.freeFrames ∧ s'.cr3 = σ.machine.cr3 := by
  have H := h.sound
  have hkv := kvirtualAddress_eq
  have hgb := directMapSize_eq
  have hle := @afterTables_le σ.machine.placement 1 (by omega) (by omega)
  obtain ⟨d, s', hrun, hne, hnot, -, hstep, -, -, hpl⟩ :=
    (createPageDirectory_safe (C := ⊤) H.space.tables).exists_ok trivial fun e he => by
      have := he.2
      omega
  have hC' : s' ∈ Promise W := hstep.promise hC (by omega)
  exact ⟨d, s', .createDirectory ((createUserPageDirectory_run _).trans hrun) hC', hnot, hC',
    by omega, Machine.freeFrames_congr (by rw [hstep.eq]), by rw [hstep.eq]⟩

/-- A process for the boot directory, and what is left after it. -/
theorem exists_first : ∃ (s : Machine) (p : Proc), Run (mb 16) ⟨s, [mb 2], [p], []⟩ ∧
    p.dir = s.cr3 ∧ p.heap.firstBlock = userHeapStartAddr ∧ s ∈ Promise (mb 16) ∧
    s.placement ≤ kvirtualAddress + mb 10 ∧ s.freeFrames.length = 768 := by
  have hspace : Space (mb 16) [mb 2] [] (managedMachine 1024) := space_managedMachine (by decide)
  have hC := promise_managedMachine (W := mb 16) 1024
  have hlength : (managedMachine 1024).freeFrames.length = 1024 := by
    rw [freeFrames_managedMachine, List.length_map, List.length_range]
  have hpl : (managedMachine 1024).placement = kvirtualAddress + mb 5 := rfl
  have h10 : kvirtualAddress + mb 5 + 16384 * 256 + 32768 ≤ kvirtualAddress + mb 10 := by decide
  have h16 : kvirtualAddress + mb 10 ≤ kvirtualAddress + mb 16 := by decide
  have R0 : Run (mb 16) ⟨managedMachine 1024, [mb 2], [], []⟩ := .start hspace rfl (by decide)
  obtain ⟨p, s, hstep, hp, hfirst, hcr3, hC', hpl', hfree⟩ := R0.exists_construct
    (fun q hq => absurd hq List.not_mem_nil) hC (hpl ▸ h10.trans h16) (le_of_le_of_eq (by decide) hlength.symm)
  simp only [hpl] at hpl'
  refine ⟨s, p, R0.step hstep, hp.trans hcr3.symm, hfirst, hC', hpl'.trans h10, ?_⟩
  rw [hfree, List.length_drop, hlength]

/-- And a second directory. -/
theorem exists_second : ∃ (s₁ s : Machine) (p : Proc) (d : Nat),
    Run (mb 16) ⟨s₁, [mb 2], [p], []⟩ ∧ p.dir = s₁.cr3 ∧ p.heap.firstBlock = userHeapStartAddr ∧
    Step (mb 16) none ⟨s₁, [mb 2], [p], []⟩ ⟨s, [d, mb 2], [p], []⟩ ∧ p.dir = s.cr3 ∧ p.dir ≠ d ∧
    s ∈ Promise (mb 16) ∧ s.placement + 16384 * 256 + 32768 ≤ kvirtualAddress + mb 16 ∧
    s.freeFrames.length = 768 := by
  obtain ⟨s₁, p, R, hp, hfirst, hC, hpl, hfree⟩ := exists_first
  have h16 : mb 10 + 16384 + 16384 * 256 + 32768 ≤ mb 16 := by decide
  obtain ⟨d, s, hstep, hnot, hC', hpl', hfree', hcr3⟩ := R.exists_createDirectory hC
    (by simp only; omega) (by decide)
  have hmem : p.dir ∈ [mb 2] := hp ▸ R.sound.space.cr3_mem
  simp only at hpl' hnot
  exact ⟨s₁, s, p, d, R, hp, hfirst, hstep, hp.trans hcr3.symm, fun h => hnot (h ▸ hmem), hC',
    by omega, by rw [hfree', hfree]⟩

/-- Two processes; the second directory is made, loaded and used after the first process was built
with the boot directory loaded. -/
theorem exists_run : ∃ σ σ' p q, Run (mb 16) σ ∧ Steps (mb 16) p.dir σ σ' ∧ σ.procs = [p] ∧
    σ'.procs = [q, p] ∧ p.dir = σ.machine.cr3 ∧ p.heap.firstBlock = userHeapStartAddr := by
  obtain ⟨s₁, s, p, d, R, hp, hfirst, hstep, -, hpd, hC, hpl, hfree⟩ := exists_second
  have hswitch : Step (mb 16) none ⟨s, [d, mb 2], [p], []⟩
      ⟨{ s with cr3 := d }, [d, mb 2], [p], []⟩ := .switch List.mem_cons_self
  have hfree' : ({ s with cr3 := d } : Machine).freeFrames = s.freeFrames :=
    Machine.freeFrames_congr rfl
  obtain ⟨q, s', hconstruct, -⟩ := ((R.step hstep).step hswitch).exists_construct
    (fun r hr => by rw [List.mem_singleton.mp hr]; exact hpd) hC hpl
    (by rw [hfree', hfree]; decide)
  refine ⟨_, _, p, q, R, .step (.step (.step .refl hstep (by simp)) hswitch (by simp)) hconstruct
    ?_, rfl, rfl, hp, hfirst⟩
  exact fun h => hpd (Option.some.inj h).symm

end System

/-! ### A heap for a directory that is not loaded -/

namespace System

variable {σ : System} {p : Proc}

end System
end
end Coronel
