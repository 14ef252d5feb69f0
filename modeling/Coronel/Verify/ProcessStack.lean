import Coronel.Kernel.UserAllocator
import Coronel.Verify.Physical
import Coronel.Verify.UserStack

/-!
# The stack of a process

`process_memory::setup_stack` takes a frame from the physical manager for each page below the top
and maps it. Where the loop stops for want of a frame, the frames it has mapped stay mapped; the
loops of the two heaps unmap theirs. The new top and size are recorded before the loop.
-/

namespace Coronel

open Theory Theory.Bytes

namespace ProcessMemory

/-- Bits 47 to 63 of the address agree. -/
def Canonical (v : Nat) : Prop := v < 2 ^ 47 ∨ 2 ^ 64 - 2 ^ 47 ≤ v

/-- How many pages the stack takes. -/
def stackPages (stackSize : Nat) : Nat := alignUp stackSize / frameSize

/-- The address of page `i` of the stack. -/
def stackPage (stackSize i : Nat) : Nat := pageAt (sub64 userStackTop (alignUp stackSize)) i

/-- The loop of `setup_stack`. -/
def mapStack (pageDirectory start n i : Nat) : Kernel Bool :=
  mapFramesFrom (pure pageDirectory) 0x07 (fun _ => pure ()) (fun _ => pure ()) start n i

/-- The stack is set up: each byte below the top can be read and written in ring 3, each page on a
frame of its own that was free before; and what was mapped before is found where it was. -/
structure StackSet (dirs : List Nat) (d stackSize : Nat) (s s' : Machine) : Prop where
  mapped : ∀ k, 1 ≤ k → k ≤ stackSize → Canonical (sub64 userStackTop k) ∧
    ∃ e, access Paging.userWritable s'.ram d (sub64 userStackTop k) = some e ∧
      entryFrame e ∈ s.freeFrames ∧ entryFrame e ∉ s'.freeFrames
  own : ∀ k k' e e', 1 ≤ k → k ≤ stackSize → 1 ≤ k' → k' ≤ stackSize →
    walk s'.ram d (sub64 userStackTop k) = some e → walk s'.ram d (sub64 userStackTop k') = some e' →
    entryFrame e = entryFrame e' → sub64 userStackTop k / 4096 = sub64 userStackTop k' / 4096
  kept : ∀ d' ∈ dirs, ∀ v, walk s.ram d' v ≠ none → translate s'.ram d' v = translate s.ram d' v

/-- Nothing happened. -/
structure StackRefused (old new : ProcessMemory) (s s' : Machine) : Prop where
  ram : s'.ram = s.ram
  free : s'.freeFrames = s.freeFrames
  top : new.stackTop = old.stackTop
  size : new.stackSize = old.stackSize

/-- All or nothing, by the result `r`. -/
def AllOrNothing (dirs : List Nat) (self self' : ProcessMemory) (stackSize : Nat) (r : Bool)
    (s s' : Machine) : Prop :=
  if r then StackSet dirs self.pageDirectory stackSize s s' else StackRefused self self' s s'

/-- The stack stays among the canonical addresses, ring 3 may write where its pages are, and no page
of it is mapped already, except to the frame it is about to get. -/
def StackFits (d stackSize : Nat) (s : Machine) : Prop :=
  stackSize ≤ userStackTop + 2 ^ 47 ∧ ∀ i < stackPages stackSize,
    Grants Paging.userWritable s.ram d (stackPage stackSize i) ∧
    ∀ e, walk s.ram d (stackPage stackSize i) = some e → s.freeFrames[i]? = some (entryFrame e)

/-- What the turns `i` to `i + n` of the loop do. -/
structure Looped (dirs : List Nat) (d start n i : Nat) (r : Bool) (s s' : Machine) : Prop where
  tables : Tables dirs s'
  result : r = decide (n ≤ s.freeFrames.length)
  free : s'.freeFrames = s.freeFrames.drop n
  still : s.freeFrames = [] → s'.ram = s.ram
  grants : ∀ d' ∈ dirs, ∀ v,
    Grants Paging.userWritable s'.ram d' v ↔ Grants Paging.userWritable s.ram d' v
  walks : ∀ d' ∈ dirs, ∀ v, (∀ k < n, k < s.freeFrames.length →
    ¬(v % 2 ^ 48 / 4096 = pageAt start (i + k) % 2 ^ 48 / 4096 ∧ (d' = d ∨ pml4Index v = 511))) →
    walk s'.ram d' v = walk s.ram d' v
  pages : start % 4096 = 0 → start < 2 ^ 64 → i + n ≤ 2 ^ 36 → ∀ k < n, ∀ f,
    s.freeFrames[k]? = some f → walk s'.ram d (pageAt start (i + k)) = some (Paging.leafEntry f 0x07)

section
variable {dirs : List Nat} {s s' : Machine} {self self' : ProcessMemory} {r : Bool}
  {d start n i k v stackSize : Nat}

/-! ### The loop -/

theorem pageAt_number (hs : start % 4096 = 0) (hi : i < 2 ^ 36) :
    pageAt start i % 2 ^ 48 / 4096 = (start / 4096 + i) % 2 ^ 36 := by
  rw [pageAt, frameSize, mul64_eq (by omega), add64]
  omega

theorem pml4Index_congr {v' : Nat} (h : v % 2 ^ 48 / 4096 = v' % 2 ^ 48 / 4096) :
    pml4Index v = pml4Index v' := by
  have h1 := (same_page_iff.mpr h).1
  simp only [pathOf, List.cons.injEq, and_true] at h1
  exact h1.2.2

theorem mapStack_succ (d start n i : Nat) : mapStack d start (n + 1) i = (do
    let physAddr ← Physical.alloc
    if physAddr = 0 then
      return false
    let result ← Paging.map d (pageAt start i) physAddr 0x07
    if result ≠ 0 then
      Physical.free physAddr
      return false
    mapStack d start n (i + 1)) := by
  simp only [mapStack, mapFramesFrom, pure_bind]

/-- One turn with a free frame. -/
theorem mapStack_cons {f : Nat} {fs : List Nat} (d start n i : Nat) (H : Tables dirs s)
    (hm : ∃ m, s.gPhysicalManager = some m) (hfree : s.freeFrames = f :: fs) (hf : f ≠ 0) :
    ∃ m s1, m.freeList.map (·.address) = fs ∧ s1.gPhysicalManager = some m ∧ s1.ram = s.ram ∧
      s1.placement = s.placement ∧ Tables dirs s1 ∧
      (mapStack d start (n + 1) i).run s = (do
        let result ← Paging.map d (pageAt start i) f 0x07
        if result ≠ 0 then
          Physical.free f
          return false
        mapStack d start n (i + 1)).run s1 := by
  obtain ⟨m, hrun, hfs⟩ := Physical.alloc_run_cons hm hfree
  refine ⟨m, { s with gPhysicalManager := some m }, hfs, rfl, rfl, rfl,
    ⟨H.forest, H.base, H.cr3⟩, ?_⟩
  rw [mapStack_succ, Prog.run_bind_ok hrun, if_neg hf]

/-- The loop maps the free frames in their order, and stops when there are no more. -/
theorem mapStack_spec (H : Tables dirs s) (hd : d ∈ dirs)
    (hm : ∃ m, s.gPhysicalManager = some m) (hfr : ∀ f ∈ s.freeFrames, f ≠ 0)
    (h : (mapStack d start n i).run s = (.ok r, s')) : Looped dirs d start n i r s s' := by
  induction n generalizing i s with
  | zero =>
    cases h
    exact ⟨H, rfl, rfl, fun _ => rfl, fun _ _ _ => Iff.rfl, fun _ _ _ _ => rfl,
      fun _ _ _ k hk => by omega⟩
  | succ n ih =>
    rcases hfree : s.freeFrames with _ | ⟨f, fs⟩
    · rw [mapStack_succ, Prog.run_bind_ok (Physical.alloc_run_nil hm hfree), if_pos rfl] at h
      cases h
      exact ⟨H, by rw [hfree]; rfl, by rw [hfree]; rfl, fun _ => rfl, fun _ _ _ => Iff.rfl,
        fun _ _ _ _ => rfl, fun _ _ _ k _ g hg => by rw [hfree] at hg; cases hg⟩
    · rw [hfree] at hfr
      obtain ⟨m, s1, hfs, hm1, hram, -, hT1, hturn⟩ :=
        mapStack_cons d start n i H hm hfree (hfr f List.mem_cons_self)
      rw [hturn, Prog.run_bind_eq_ok] at h
      obtain ⟨r2, s2, hmap, hrest⟩ := h
      obtain ⟨rfl, hT2, hstep, hset, -⟩ := (map_safe (C := ⊤) hT1 hd _ f 0x07).ok hmap trivial
      rw [if_neg (by simp)] at hrest
      have hm2 : s2.gPhysicalManager = some m := by rw [hstep.eq, hm1]
      have hfree2 : s2.freeFrames = fs := by rw [Physical.freeFrames_of_manager hm2, hfs]
      have hL := ih hT2 ⟨m, hm2⟩ (fun g hg => hfr g (List.mem_cons_of_mem f (hfree2 ▸ hg))) hrest
      have hwalk : ∀ d' ∈ dirs, ∀ v, ¬(v % 2 ^ 48 / 4096 = pageAt start i % 2 ^ 48 / 4096 ∧
          (d' = d ∨ pml4Index v = 511)) → walk s2.ram d' v = walk s.ram d' v := by
        intro d' hd' v hv
        rw [hset d' hd' v, hram, if_neg fun hc => hv ⟨hc.1, ?_⟩]
        rw [pml4Index_congr hc.1]
        exact hc.2
      refine ⟨hL.tables, ?_, ?_, fun hnil => ?_, fun d' hd' v => ?_, fun d' hd' v hv => ?_,
        fun hs hlt hi k hk g hg => ?_⟩
      · rw [hL.result, hfree2, hfree]
        simp
      · rw [hL.free, hfree2, hfree]
        rfl
      · rw [hfree] at hnil
        cases hnil
      · rw [hL.grants d' hd' v, map_grants hT1 hd (by decide) (by decide) hmap hd', hram]
      · have hfirst := hv 0 (by omega) (by rw [hfree]; simp)
        rw [Nat.add_zero] at hfirst
        rw [hL.walks d' hd' v fun k hk hlen => ?_, hwalk d' hd' v hfirst]
        have := hv (k + 1) (by omega) (by rw [hfree, List.length_cons]; rw [hfree2] at hlen; omega)
        rwa [show i + 1 + k = i + (k + 1) by omega]
      · rw [hfree] at hg
        cases k with
        | zero =>
          cases hg
          rw [Nat.add_zero, hL.walks d hd _ fun k hk _ hc => ?_, hset d hd, if_pos ⟨rfl, .inl rfl⟩]
          · rfl
          · have h1 := pageAt_number (i := i) hs (by omega)
            have h2 := pageAt_number (i := i + 1 + k) hs (by omega)
            omega
        | succ k =>
          rw [show i + (k + 1) = i + 1 + k by omega]
          exact hL.pages hs hlt (by omega) k (by omega) g (by rw [hfree2]; simpa using hg)

/-- With room for the tables the loop ends. -/
theorem exists_mapStack_run (start i : Nat) (H : Tables dirs s) (hd : d ∈ dirs)
    (hm : ∃ m, s.gPhysicalManager = some m) (hfr : ∀ f ∈ s.freeFrames, f ≠ 0)
    (hroom : s.placement + n * 16384 ≤ kvirtualAddress + mb 6) :
    ∃ r s', (mapStack d start n i).run s = (.ok r, s') := by
  induction n generalizing i s with
  | zero => exact ⟨true, s, rfl⟩
  | succ n ih =>
    rcases hfree : s.freeFrames with _ | ⟨f, fs⟩
    · refine ⟨false, s, ?_⟩
      rw [mapStack_succ, Prog.run_bind_ok (Physical.alloc_run_nil hm hfree), if_pos rfl,
        Prog.run_pure]
    · rw [hfree] at hfr
      obtain ⟨m, s1, hfs, hm1, -, hpl, hT1, hturn⟩ :=
        mapStack_cons d start n i H hm hfree (hfr f List.mem_cons_self)
      obtain ⟨s2, hmap, hpl2⟩ := Paging.exists_map_run hT1 hd (by omega) (pageAt start i) f 0x07
      obtain ⟨-, hT2, hstep, -, -⟩ := (map_safe (C := ⊤) hT1 hd _ f 0x07).ok hmap trivial
      have hm2 : s2.gPhysicalManager = some m := by rw [hstep.eq, hm1]
      obtain ⟨r, s', hrest⟩ := ih (i + 1) hT2 ⟨m, hm2⟩ (fun g hg => by
        rw [Physical.freeFrames_of_manager hm2, hfs] at hg
        exact hfr g (List.mem_cons_of_mem f hg)) (by omega)
      refine ⟨r, s', ?_⟩
      rw [hturn, Prog.run_bind_ok hmap, if_neg (by simp), hrest]

/-! ### The addresses -/

theorem stackPages_eq (h : stackSize ≤ userStackTop + 2 ^ 47) :
    alignUp stackSize = 4096 * stackPages stackSize ∧
      stackPages stackSize = (stackSize + 4095) / 4096 := by
  rw [userStackTop] at h
  rw [stackPages, frameSize, alignUp_eq (by omega)]
  omega

/-- Page `i` of the stack lies `stackPages - i` pages below the top. -/
theorem stackPage_eq (h : stackSize ≤ userStackTop + 2 ^ 47) (hi : i < stackPages stackSize) :
    stackPage stackSize i / 4096 = sub64 userStackTop (4096 * (stackPages stackSize - i)) / 4096 := by
  obtain ⟨h1, h2⟩ := stackPages_eq h
  rw [userStackTop] at *
  rw [stackPage, pageAt, userStackTop, frameSize, mul64_eq (by omega), add64, sub64, sub64, h1]
  omega

/-- Each byte below the top lies on a page of the stack. -/
theorem stackPage_of_byte (h : stackSize ≤ userStackTop + 2 ^ 47) (hk : 1 ≤ k)
    (hk' : k ≤ stackSize) : ∃ i < stackPages stackSize, i + (k + 4095) / 4096 = stackPages stackSize ∧
      sub64 userStackTop k / 4096 = stackPage stackSize i / 4096 := by
  obtain ⟨-, h2⟩ := stackPages_eq h
  have hi : stackPages stackSize - (k + 4095) / 4096 < stackPages stackSize := by omega
  refine ⟨stackPages stackSize - (k + 4095) / 4096, hi, by omega, ?_⟩
  rw [stackPage_eq h hi, show stackPages stackSize - (stackPages stackSize - (k + 4095) / 4096) =
    (k + 4095) / 4096 by omega]
  rw [userStackTop] at *
  simp only [sub64]
  omega

/-- Each page of the stack has a byte below the top. -/
theorem exists_byte_of_stackPage (h : stackSize ≤ userStackTop + 2 ^ 47)
    (hi : i < stackPages stackSize) : ∃ k, 1 ≤ k ∧ k ≤ stackSize ∧
      sub64 userStackTop k / 4096 = stackPage stackSize i / 4096 := by
  obtain ⟨-, h2⟩ := stackPages_eq h
  rw [stackPage_eq h hi]
  refine ⟨min stackSize (4096 * (stackPages stackSize - i)), by omega, by omega, ?_⟩
  rw [userStackTop] at *
  simp only [sub64]
  omega

/-! ### All or nothing -/

theorem setupStack_eq (self : ProcessMemory) (stackSize : Nat) : setupStack self stackSize = (do
    let r ← mapStack self.pageDirectory (sub64 userStackTop (alignUp stackSize))
      (stackPages stackSize) 0
    return (r, { self with stackSize := alignUp stackSize, stackTop := userStackTop })) := rfl

theorem setupStack_run (h : (setupStack self stackSize).run s = (.ok (r, self'), s')) :
    self'.stackTop = userStackTop ∧ self'.stackSize = alignUp stackSize ∧
      (mapStack self.pageDirectory (sub64 userStackTop (alignUp stackSize)) (stackPages stackSize)
        0).run s = (.ok r, s') := by
  rw [setupStack_eq, Prog.run_bind_eq_ok] at h
  obtain ⟨r', s1, h1, h2⟩ := h
  cases h2
  exact ⟨rfl, rfl, h1⟩

/-- The free frames are frames of memory, each there once. -/
structure FramesSound (s : Machine) : Prop where
  manager : ∃ m, s.gPhysicalManager = some m
  nodup : s.freeFrames.Nodup
  frame : ∀ f ∈ s.freeFrames, f ≠ 0 ∧ f % 4096 = 0 ∧ f < 2 ^ 52

/-- So they are in every run of the manager of a region behind address 0. -/
theorem FramesSound.of_run {first len : Nat} {handed : List Nat}
    (h : Physical.Run first len s handed) (hfirst : 0 < first) (hend : first + len ≤ 2 ^ 52) :
    FramesSound s := by
  have H := h.inv (by omega)
  refine ⟨⟨_, H.manager.choose_spec.1⟩, (List.nodup_append.mp H.nodup).1, fun f hf => ?_⟩
  have hw := H.mem_iff.mp (List.mem_append_left handed hf)
  rw [Physical.WholeFrame] at hw
  omega

theorem leaf_frame {e f : Nat} (hs : FramesSound s) (hf : s.freeFrames[i]? = some f)
    (he : e = Paging.leafEntry f 0x07) : entryFrame e = f := by
  obtain ⟨-, h1, h2⟩ := hs.frame f (List.mem_of_getElem? hf)
  rw [he]
  exact (entryFrame_leafEntry 0x07 h1 h2).1

/-- When there are frames enough, the stack is set up exactly when it fits. -/
theorem Looped.stackSet_iff (H : Tables dirs s) (hd : d ∈ dirs) (hs : FramesSound s)
    (hsize : 1 ≤ stackSize) (hlen : stackPages stackSize ≤ s.freeFrames.length)
    (h : Looped dirs d (sub64 userStackTop (alignUp stackSize)) (stackPages stackSize) 0 r s s') :
    StackSet dirs d stackSize s s' ↔ StackFits d stackSize s := by
  have hd1 := H.forest.entryFrame_dir hd
  have hd2 := h.tables.forest.entryFrame_dir hd
  -- what the loop left on the pages of the stack
  have hpages : stackSize ≤ userStackTop + 2 ^ 47 → ∀ i < stackPages stackSize, ∃ f,
      s.freeFrames[i]? = some f ∧
        walk s'.ram d (stackPage stackSize i) = some (Paging.leafEntry f 0x07) := by
    intro hfit i hi
    obtain ⟨h1, h2⟩ := stackPages_eq hfit
    have hf : s.freeFrames[i]? = some (s.freeFrames.get ⟨i, by omega⟩) := List.getElem?_eq_getElem _
    have hstart : sub64 userStackTop (alignUp stackSize) % 4096 = 0 := by
      rw [sub64, userStackTop]
      omega
    have := h.pages hstart (Nat.mod_lt _ (by decide)) (by rw [userStackTop] at hfit; omega) i hi _ hf
    rw [Nat.zero_add] at this
    exact ⟨_, hf, this⟩
  constructor
  · intro hS
    have hfit : stackSize ≤ userStackTop + 2 ^ 47 := by
      by_contra hno
      have hc := (hS.mapped (userStackTop + 2 ^ 47 + 1) (Nat.le_add_left ..)
        (Nat.succ_le_of_lt (Nat.lt_of_not_le hno))).1
      rw [Canonical, sub64, userStackTop] at hc
      omega
    refine ⟨hfit, fun i hi => ?_⟩
    obtain ⟨f, hf, hwalk⟩ := hpages hfit i hi
    obtain ⟨k, hk1, hk2, hk⟩ := exists_byte_of_stackPage hfit hi
    have hpage : sub64 userStackTop k % 2 ^ 48 / 4096 = stackPage stackSize i % 2 ^ 48 / 4096 := by
      omega
    refine ⟨?_, fun e he => ?_⟩
    · obtain ⟨-, e, he, -⟩ := hS.mapped k hk1 hk2
      have hg := ((access_eq_some hd2).mp he).2.2
      rw [h.grants d hd] at hg
      exact (Paging.grants_congr_path (same_page_iff.mpr hpage).1).mp hg
    · have ht := hS.kept d hd (stackPage stackSize i) (by rw [he]; exact Option.some_ne_none e)
      rw [translate, translate, hwalk, he, Option.map_some, Option.map_some, Option.some.injEq,
        leaf_frame hs hf rfl] at ht
      rw [hf]
      exact congrArg some (by omega)
  · rintro ⟨hfit, hall⟩
    have hbyte : ∀ k, 1 ≤ k → k ≤ stackSize → ∃ i f, i < stackPages stackSize ∧
        sub64 userStackTop k / 4096 = stackPage stackSize i / 4096 ∧ s.freeFrames[i]? = some f ∧
        walk s'.ram d (sub64 userStackTop k) = some (Paging.leafEntry f 0x07) := by
      intro k hk hk'
      obtain ⟨i, hi, -, hpage⟩ := stackPage_of_byte hfit hk hk'
      obtain ⟨f, hf, hwalk⟩ := hpages hfit i hi
      refine ⟨i, f, hi, hpage, hf, ?_⟩
      have hsame : sub64 userStackTop k % 2 ^ 48 / 4096 = stackPage stackSize i % 2 ^ 48 / 4096 := by
        omega
      rw [walk_congr_page hsame, hwalk]
    refine ⟨fun k hk hk' => ⟨?_, ?_⟩, fun k k' e e' hk hk' hl hl' he he' hee => ?_,
      fun d' hd' v hv => ?_⟩
    · rw [Canonical, sub64]
      rw [userStackTop] at *
      omega
    · obtain ⟨i, f, hi, hpage, hf, hwalk⟩ := hbyte k hk hk'
      obtain ⟨-, h1, h2⟩ := hs.frame f (List.mem_of_getElem? hf)
      refine ⟨Paging.leafEntry f 0x07, (access_eq_some hd2).mpr ⟨hwalk, ?_, ?_⟩, ?_, ?_⟩
      · rw [Paging.userWritable, leafEntry_eq, permits_add (by omega) (by decide) (by decide)]
        decide
      · have hsame : sub64 userStackTop k % 2 ^ 48 / 4096 =
            stackPage stackSize i % 2 ^ 48 / 4096 := by omega
        rw [h.grants d hd, Paging.grants_congr_path (same_page_iff.mpr hsame).1]
        exact (hall i hi).1
      · rw [leaf_frame hs hf rfl]
        exact List.mem_of_getElem? hf
      · rw [leaf_frame hs hf rfl, h.free]
        intro hmem
        obtain ⟨j, hj⟩ := List.mem_iff_getElem?.mp hmem
        rw [List.getElem?_drop] at hj
        have hi' : i < s.freeFrames.length := by omega
        have := (List.getElem?_inj hi' hs.nodup).mp (hf.trans hj.symm)
        omega
    · obtain ⟨i, f, hi, hpage, hf, hwalk⟩ := hbyte k hk hk'
      obtain ⟨j, g, hj, hpage', hg, hwalk'⟩ := hbyte k' hl hl'
      rw [hwalk, Option.some.injEq] at he
      rw [hwalk', Option.some.injEq] at he'
      rw [leaf_frame hs hf he.symm, leaf_frame hs hg he'.symm] at hee
      have hi' : i < s.freeFrames.length := by omega
      have hij := (List.getElem?_inj hi' hs.nodup).mp (hf.trans (hee ▸ hg.symm))
      rw [hpage, hpage', hij]
    · by_cases hit : ∃ i < stackPages stackSize,
          v % 2 ^ 48 / 4096 = stackPage stackSize i % 2 ^ 48 / 4096 ∧ (d' = d ∨ pml4Index v = 511)
      · obtain ⟨i, hi, hpage, hdir⟩ := hit
        obtain ⟨f, hf, hwalk⟩ := hpages hfit i hi
        have hshared : ∀ m : Machine, Tables dirs m →
            walk m.ram d' v = walk m.ram d (stackPage stackSize i) := by
          intro m hT
          rw [← walk_congr_page hpage]
          rcases hdir with rfl | h511
          · rfl
          · exact hT.forest.walk_shared hd' hd h511
        obtain ⟨e, he⟩ := Option.ne_none_iff_exists'.mp hv
        rw [hshared s H] at he
        have hframe := (hall i hi).2 e he
        rw [hf, Option.some.injEq] at hframe
        rw [translate, translate, hshared s' h.tables, hshared s H, hwalk, he, Option.map_some,
          Option.map_some, leaf_frame hs hf rfl, hframe]
      · rw [translate, translate, h.walks d' hd' v fun i hi _ hc => hit ⟨i, hi, ?_⟩]
        rw [Nat.zero_add] at hc
        exact hc

/-- When there are not, nothing happened exactly when nothing could. -/
theorem Looped.stackRefused_iff (hrec : self'.stackTop = userStackTop ∧
      self'.stackSize = alignUp stackSize) (hlen : s.freeFrames.length < n)
    (h : Looped dirs d start n i r s s') : StackRefused self self' s s' ↔
      s.freeFrames = [] ∧ self.stackTop = userStackTop ∧ self.stackSize = alignUp stackSize := by
  have hfree := h.free
  rw [List.drop_eq_nil_of_le (by omega)] at hfree
  constructor
  · intro hR
    exact ⟨hR.free.symm.trans hfree, hR.top.symm.trans hrec.1, hR.size.symm.trans hrec.2⟩
  · rintro ⟨hnil, htop, hsize⟩
    exact ⟨h.still hnil, hfree.trans hnil.symm, hrec.1.trans htop.symm, hrec.2.trans hsize.symm⟩

/-- **All or nothing.** In every state of the manager of a region, `setup_stack` is all or nothing
exactly when the free frames suffice and the stack fits, or no frame is free and the recorded top
and size are already the new ones. -/
theorem allOrNothing_iff {first len : Nat} {handed : List Nat} (H : Tables dirs s)
    (hP : Physical.Run first len s handed) (hfirst : 0 < first) (hend : first + len ≤ 2 ^ 52)
    (hd : self.pageDirectory ∈ dirs) (hsize : 1 ≤ stackSize)
    (hrun : (setupStack self stackSize).run s = (.ok (r, self'), s')) :
    AllOrNothing dirs self self' stackSize r s s' ↔
      if stackPages stackSize ≤ s.freeFrames.length then StackFits self.pageDirectory stackSize s
      else s.freeFrames = [] ∧ self.stackTop = userStackTop ∧ self.stackSize = alignUp stackSize := by
  have hs := FramesSound.of_run hP hfirst hend
  obtain ⟨htop, hrec, hloop⟩ := setupStack_run hrun
  have hL := mapStack_spec H hd hs.manager (fun f hf => (hs.frame f hf).1) hloop
  rw [AllOrNothing, hL.result]
  by_cases hlen : stackPages stackSize ≤ s.freeFrames.length
  · rw [if_pos hlen, decide_eq_true hlen, if_pos rfl]
    exact hL.stackSet_iff H hd hs hsize hlen
  · rw [if_neg hlen, decide_eq_false hlen, if_neg Bool.false_ne_true]
    exact hL.stackRefused_iff ⟨htop, hrec⟩ (by omega)

/-- The machine just booted, with one free frame. -/
def stackMachine : Machine :=
  { bootMachine (mb 5) with
    gPhysicalManager := some {
      physicalEnd := mb 8 + 4096
      freeList := [⟨kvirtualAddress + mb 5, mb 8⟩] } }

theorem run_stackMachine : Physical.Run (mb 8) 4096 stackMachine [] :=
  .meanwhile (.setup (s := Physical.newMachine) rfl rfl) rfl

theorem tables_stackMachine : Tables [mb 2] stackMachine :=
  have hT : Tables [mb 2] (bootMachine (mb 5)) :=
    (booted_bootMachine (by decide : mb 2 + 515 * 4096 ≤ mb 5) (by decide)).tables
  ⟨hT.forest, hT.base, hT.cr3⟩

/-- On it the loop ends, for a few pages. -/
theorem exists_setupStack_run (self : ProcessMemory) (hself : self.pageDirectory = mb 2)
    (hn : stackPages stackSize ≤ 8) :
    ∃ r self' s', (setupStack self stackSize).run stackMachine = (.ok (r, self'), s') := by
  have hs := FramesSound.of_run run_stackMachine (by decide) (by decide)
  have hroom : stackMachine.placement + 8 * 16384 ≤ kvirtualAddress + mb 6 := by decide
  obtain ⟨r, s', hrun⟩ := exists_mapStack_run (sub64 userStackTop (alignUp stackSize)) 0
    tables_stackMachine (List.mem_singleton.mpr hself) hs.manager (fun f hf => (hs.frame f hf).1)
    ((Nat.add_le_add_left (Nat.mul_le_mul_right 16384 hn) _).trans hroom)
  refine ⟨r, { self with stackSize := alignUp stackSize, stackTop := userStackTop }, s', ?_⟩
  rw [setupStack_eq, Prog.run_bind_ok hrun, Prog.run_pure]

/-- One page, for which there is a frame. -/
theorem allOrNothing_iff_page : ∃ r self' s',
    (setupStack ⟨mb 2, 0, 0⟩ 4096).run stackMachine = (.ok (r, self'), s') ∧
      AllOrNothing [mb 2] ⟨mb 2, 0, 0⟩ self' 4096 r stackMachine s' := by
  obtain ⟨r, self', s', hrun⟩ := exists_setupStack_run ⟨mb 2, 0, 0⟩ rfl
    (show stackPages 4096 ≤ 8 by decide)
  refine ⟨r, self', s', hrun, (allOrNothing_iff tables_stackMachine run_stackMachine (by decide)
    (by decide) (List.mem_singleton.mpr rfl) (by decide) hrun).mpr ?_⟩
  have hpage : stackPage 4096 0 = 0x7FFEF000 := by decide
  have hnone : tableAt stackMachine.ram (mb 2) [pml4Index 0x7FFEF000] = none :=
    Paging.tableAt_bootMachine
  rw [if_pos (by decide)]
  refine ⟨by decide, fun i hi => ?_⟩
  obtain rfl : i = 0 := by
    have h1 : stackPages 4096 = 1 := by decide
    omega
  rw [hpage]
  refine ⟨grants_of_missing hnone, fun e he => ?_⟩
  obtain ⟨t, ht, -⟩ := (walk_some_iff (by decide)).mp he
  rw [pathOf, tableAt_cons, tableAt_cons, hnone] at ht
  cases ht

/-- Two pages, for which there is one frame: the frame is gone. -/
theorem not_allOrNothing : ¬∀ dirs s first len handed self stackSize r self' s', Tables dirs s →
    Physical.Run first len s handed → 0 < first → first + len ≤ 2 ^ 52 →
    self.pageDirectory ∈ dirs → 1 ≤ stackSize → stackSize < 2 ^ 64 →
    (setupStack self stackSize).run s = (.ok (r, self'), s') →
    AllOrNothing dirs self self' stackSize r s s' := by
  intro hall
  obtain ⟨r, self', s', hrun⟩ := exists_setupStack_run ⟨mb 2, 0, 0⟩ rfl
    (show stackPages 8192 ≤ 8 by decide)
  have hA := hall _ _ _ _ _ _ _ _ _ _ tables_stackMachine run_stackMachine (by decide) (by decide)
    (List.mem_singleton.mpr rfl) (by decide) (by decide) hrun
  have hs := FramesSound.of_run run_stackMachine (by decide) (by decide)
  have hL := mapStack_spec tables_stackMachine (List.mem_singleton.mpr rfl) hs.manager
    (fun f hf => (hs.frame f hf).1) (setupStack_run hrun).2.2
  rw [AllOrNothing, hL.result, if_neg (by decide)] at hA
  have hfree := hA.free
  rw [hL.free] at hfree
  revert hfree
  decide

end
end ProcessMemory
end Coronel
