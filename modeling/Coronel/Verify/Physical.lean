import Coronel.Verify.Frames

/-!
# The frames of a region

`physical::setup` and the runs of `alloc()` and `free()` that follow it. The invariant counts: each
whole frame of the region stands once among the free and the handed out frames, and no other number
does. `nullptr` is also the address of frame 0.
-/

namespace Coronel

open Theory Theory.Bytes

namespace Physical

/-- The whole frames of `[start, start + len)`. -/
def WholeFrame (start len f : Nat) : Prop := f % 4096 = 0 ∧ start ≤ f ∧ f + 4096 ≤ start + len

instance (start len f : Nat) : Decidable (WholeFrame start len f) :=
  inferInstanceAs (Decidable (_ ∧ _ ∧ _))

/-- The states after `setup(start, len)` of a new manager under `alloc()` and `free()`, with the
frames that are handed out. A frame that `alloc` takes off the list is handed out, also when its
address is 0. -/
inductive Run (start len : Nat) : Machine → List Nat → Prop
  | setup {s s'} : s.gPhysicalManager = some new → (setup start len).run s = (.ok (), s') →
    Run start len s' []
  | alloc {s s' handed f} : Run start len s handed → s.freeFrames ≠ [] →
    alloc.run s = (.ok f, s') → Run start len s' (f :: handed)
  | allocNull {s s' handed f} : Run start len s handed → s.freeFrames = [] →
    alloc.run s = (.ok f, s') → Run start len s' handed
  | free {s s' handed f} : Run start len s handed → f ∈ handed → (free f).run s = (.ok (), s') →
    Run start len s' (handed.erase f)
  | meanwhile {s s' handed} : Run start len s handed →
    s'.gPhysicalManager = s.gPhysicalManager → Run start len s' handed

/-- Each whole frame of the region is free or handed out, and only once. -/
structure Inv (start len : Nat) (s : Machine) (handed : List Nat) : Prop where
  manager : ∃ m, s.gPhysicalManager = some m ∧ m.physicalEnd = start + len
  count : ∀ f, (s.freeFrames ++ handed).count f = if WholeFrame start len f then 1 else 0

section
variable {start len : Nat} {s s' : Machine} {m m' : Physical} {handed : List Nat}
  {f g addr n p : Nat}

theorem freeFrames_of_manager (h : s.gPhysicalManager = some m) :
    s.freeFrames = m.freeList.map (·.address) := by
  rw [Machine.freeFrames, h]

/-! ### free and setup -/

/-- `free` returns at once on an address that is unaligned or beyond the end. -/
theorem free_run_skip (hm : s.gPhysicalManager = some m)
    (hf : ¬(f % 4096 = 0 ∧ f < m.physicalEnd)) : (free f).run s = (.ok (), s) := by
  rw [free, Prog.run_bind_ok (manager_run hm), if_pos]
  · rfl
  · rw [Bool.or_eq_true, Bool.not_eq_true', ← Bool.not_eq_true, isAligned_iff, decide_eq_true_iff]
    omega

/-- `free` puts any other address on the list, in a node at the watermark. -/
theorem free_run_push (hm : s.gPhysicalManager = some m) (hf : f % 4096 = 0)
    (hlt : f < m.physicalEnd) (h : (free f).run s = (.ok (), s')) :
    ∃ p, s.placement = kvirtualAddress + p ∧ p + 16 ≤ directMapSize ∧ s' = { s with
      ram := store (store s.ram 8 p f) 8 (p + 8) (headNode m.freeList)
      placement := kvirtualAddress + (p + 16)
      gPhysicalManager := some { m with freeList := ⟨s.placement, f⟩ :: m.freeList }
      reserved := ⟨s.placement, 16⟩ :: s.reserved } := by
  have hkv := kvirtualAddress_eq
  have hgb := directMapSize_eq
  rw [free, Prog.run_bind_ok (manager_run hm), isAligned_iff.mpr hf,
    if_neg (by simpa using hlt), Prog.run_bind_eq_ok] at h
  obtain ⟨node, s1, h1, h2⟩ := h
  obtain ⟨rfl, rfl⟩ : node = s.placement ∧ s1 = { s with
      placement := add64 s.placement 16
      reserved := ⟨s.placement, 16⟩ :: s.reserved } := by
    cases h1
    exact ⟨rfl, rfl⟩
  rw [Prog.run_bind_eq_ok] at h2
  obtain ⟨_, s2, h2, h3⟩ := h2
  rw [Prog.run_bind_eq_ok] at h3
  obtain ⟨_, s3, h3, h4⟩ := h3
  obtain ⟨p, hp, hb, rfl⟩ := of_storeDirect_run h2
  have hadd : add64 s.placement 8 = kvirtualAddress + (p + 8) := by
    rw [hp, add64_eq (by omega), Nat.add_assoc]
  rw [hadd] at h3
  obtain ⟨q, hq, hb', rfl⟩ := of_storeDirect_run h3
  obtain rfl : q = p + 8 := by omega
  cases h4
  refine ⟨p, hp, by omega, ?_⟩
  rw [hp, add64_eq (by omega), Nat.add_assoc]

/-- `free` drops an address beyond the end, and puts any other on the list, in a node that
lies in the window. -/
theorem free_run (hm : s.gPhysicalManager = some m) (hf : f % 4096 = 0)
    (h : (free f).run s = (.ok (), s')) :
    m.physicalEnd ≤ f ∧ s' = s ∨ f < m.physicalEnd ∧ kvirtualAddress ≤ s.placement ∧
      s.placement + 16 ≤ kvirtualAddress + directMapSize ∧ s'.placement = s.placement + 16 ∧
      s'.gPhysicalManager = some { m with freeList := ⟨s.placement, f⟩ :: m.freeList } := by
  by_cases hend : f < m.physicalEnd
  · obtain ⟨p, hp, hb, rfl⟩ := free_run_push hm hf hend h
    exact .inr ⟨hend, by omega, by omega, by simp only; omega, rfl⟩
  · rw [free_run_skip hm (by omega)] at h
    cases h
    exact .inl ⟨by omega, rfl⟩

/-- The loop of `setup` puts each of its frames on the list. It takes 16 bytes of the window for
each. -/
theorem freeFrames_run (hm : s.gPhysicalManager = some m)
    (h : (freeFrames n addr).run s = (.ok (), s')) (haddr : addr % 4096 = 0)
    (hend : addr + 4096 * n ≤ m.physicalEnd) :
    (n = 0 ∨ kvirtualAddress ≤ s.placement ∧
      s.placement + 16 * n ≤ kvirtualAddress + directMapSize) ∧
    ∃ m', s'.gPhysicalManager = some m' ∧ m'.physicalEnd = m.physicalEnd ∧
      ∀ f, (s'.freeFrames).count f = s.freeFrames.count f +
        if f % 4096 = 0 ∧ addr ≤ f ∧ f < addr + 4096 * n then 1 else 0 := by
  induction n generalizing addr s m with
  | zero =>
    cases h
    exact ⟨.inl rfl, m, hm, rfl, fun f => by rw [if_neg (by omega)]; rfl⟩
  | succ n ih =>
    rw [freeFrames, Prog.run_bind_eq_ok] at h
    obtain ⟨_, s1, h1, h2⟩ := h
    rcases free_run hm haddr h1 with ⟨hlt, -⟩ | ⟨hlt, hw1, hw2, hpl, hm1⟩
    · omega
    obtain ⟨hroom, m', hm', hend', hcount⟩ := ih hm1 h2 (by simp only [frameSize]; omega)
      (by simp only [frameSize]; omega)
    refine ⟨.inr ⟨hw1, ?_⟩, m', hm', hend', fun f => ?_⟩
    · rcases hroom with rfl | hroom <;> omega
    · rw [hcount, freeFrames_of_manager hm1, freeFrames_of_manager hm, List.map_cons,
        List.count_cons]
      simp only [beq_iff_eq, frameSize, Nat.add_assoc]
      refine congrArg _ ?_
      by_cases hf : addr = f
      · rw [if_pos hf, if_neg (by omega), if_pos (by omega)]
      · rw [if_neg hf, Nat.zero_add]
        exact if_congr (by omega) rfl rfl

/-- `setup` sets the end and runs its loop. -/
theorem setup_loop {stop : Nat} (hm : s.gPhysicalManager = some m)
    (h : ((do
      setManager { (← manager) with physicalEnd := stop }
      freeFrames ((g - addr) / frameSize) addr) : Kernel Unit).run s = (.ok (), s')) :
    ∃ n s1 m1, n = (g - addr) / 4096 ∧ s1.gPhysicalManager = some m1 ∧ m1.physicalEnd = stop ∧
      m1.freeList = m.freeList ∧ s1.placement = s.placement ∧
      (freeFrames n addr).run s1 = (.ok (), s') := by
  rw [Prog.run_bind_ok (manager_run hm), Prog.run_bind_eq_ok] at h
  obtain ⟨_, s1, h1, h2⟩ := h
  cases h1
  refine ⟨_, _, { m with physicalEnd := stop }, rfl, ?_, rfl, rfl, ?_, h2⟩ <;> rfl

theorem setup_eq (start len : Nat) : setup start len = (do
    setManager { (← manager) with physicalEnd := add64 start len }
    freeFrames ((alignDown (add64 start len) - alignUp start) / frameSize) (alignUp start)) := by
  rfl

/-- `setup` returns when `ALIGN_UP` did not wrap, with the whole frames of the region free. -/
theorem setup_inv (hm : s.gPhysicalManager = some new) (hend : start + len < 2 ^ 64)
    (h : (setup start len).run s = (.ok (), s')) : Inv start len s' [] := by
  rw [setup_eq] at h
  obtain ⟨n, s1, m1, hn, hm1, hend1, hnew, -, h⟩ := setup_loop hm h
  rw [add64_eq hend] at hend1 hn
  rw [alignDown_eq hend] at hn
  have hnil : s1.freeFrames = [] := by rw [freeFrames_of_manager hm1, hnew]; rfl
  by_cases hwrap : start + 4095 < 2 ^ 64
  · have hfirst := alignUp_eq hwrap
    generalize alignUp start = first at h hn hfirst
    by_cases hle : first ≤ (start + len) / 4096 * 4096
    · have hle' : first + 4096 * n ≤ m1.physicalEnd := by omega
      obtain ⟨-, m', hm', hend', hcount⟩ := freeFrames_run hm1 h (by omega) hle'
      refine ⟨⟨m', hm', hend'.trans hend1⟩, fun f => ?_⟩
      rw [List.append_nil, hcount, hnil, List.count_nil, Nat.zero_add]
      refine if_congr ?_ rfl rfl
      rw [WholeFrame]
      omega
    · obtain rfl : n = 0 := by omega
      cases h
      refine ⟨⟨m1, hm1, hend1⟩, fun f => ?_⟩
      rw [hnil, List.append_nil, List.count_nil, if_neg]
      rw [WholeFrame]
      omega
  · -- the nodes of 2 ^ 52 - 1 frames do not fit into the window
    rw [alignUp_wrap (by omega) (by omega)] at h hn
    have hle : 0 + 4096 * n ≤ m1.physicalEnd := by omega
    obtain ⟨hroom, -⟩ := freeFrames_run hm1 h (by decide) hle
    have := kvirtualAddress_eq
    have := directMapSize_eq
    omega

/-- `free` finds its room in the window. -/
theorem free_run_room (hm : s.gPhysicalManager = some m) (hf : f % 4096 = 0)
    (hlt : f < m.physicalEnd) (hp : s.placement = kvirtualAddress + p)
    (hb : p + 16 ≤ directMapSize) : ∃ s', (free f).run s = (.ok (), s') := by
  have hkv := kvirtualAddress_eq
  have hgb := directMapSize_eq
  have hpl : (placementKalloc sizeofFrame).run s = (.ok (kvirtualAddress + p), { s with
      placement := add64 s.placement 16
      reserved := ⟨s.placement, 16⟩ :: s.reserved }) := by
    rw [← hp]
    rfl
  have hadd : add64 (kvirtualAddress + p) 8 = kvirtualAddress + (p + 8) := by
    rw [add64_eq (by omega), Nat.add_assoc]
  rw [free, Prog.run_bind_ok (manager_run hm), isAligned_iff.mpr hf,
    if_neg (by simpa using hlt), Prog.run_bind_ok hpl,
    Prog.run_bind_ok (run_storeDirect (by omega) _), hadd,
    Prog.run_bind_ok (run_storeDirect (by omega) _)]
  exact ⟨_, rfl⟩

theorem Inv.free {f : Nat} (H : Inv start len s handed) (hf : f ∈ handed)
    (h : (free f).run s = (.ok (), s')) : Inv start len s' (handed.erase f) := by
  obtain ⟨m, hm, hend⟩ := H.manager
  have hwhole : WholeFrame start len f := by
    by_contra hno
    have := H.count f
    rw [if_neg hno, List.count_eq_zero] at this
    exact this (List.mem_append_right _ hf)
  rcases free_run hm hwhole.1 h with ⟨hlt, -⟩ | ⟨-, -, -, -, hm'⟩
  · have := hwhole.2.2
    omega
  · refine ⟨⟨_, hm', hend⟩, fun g => ?_⟩
    have hperm : (s'.freeFrames ++ handed.erase f).Perm (s.freeFrames ++ handed) := by
      rw [freeFrames_of_manager hm', freeFrames_of_manager hm, List.map_cons]
      exact List.perm_middle.symm.trans ((List.perm_cons_erase hf).symm.append_left _)
    rw [hperm.count_eq]
    exact H.count g

theorem Inv.alloc (H : Inv start len s handed) (hne : s.freeFrames ≠ [])
    (h : alloc.run s = (.ok f, s')) : Inv start len s' (f :: handed) := by
  obtain ⟨m, hm, hend⟩ := H.manager
  obtain ⟨fr, frs, hlist⟩ : ∃ fr frs, m.freeList = fr :: frs := by
    rw [freeFrames_of_manager hm] at hne
    exact List.exists_cons_of_ne_nil fun h0 => hne (by rw [h0]; rfl)
  rw [Physical.alloc, Prog.run_bind_ok (manager_run hm), hlist] at h
  cases h
  refine ⟨⟨_, rfl, hend⟩, fun g => ?_⟩
  rw [← H.count g, freeFrames_of_manager hm, hlist]
  exact List.perm_middle.count_eq g

theorem Run.inv (h : Run start len s handed) (hend : start + len < 2 ^ 64) :
    Inv start len s handed := by
  induction h with
  | setup hm h => exact setup_inv hm hend h
  | alloc _ hne h ih => exact ih.alloc hne h
  | allocNull _ hnil h ih =>
    rw [alloc_run_nil ⟨_, ih.manager.choose_spec.1⟩ hnil] at h
    cases h
    exact ih
  | free _ hf h ih => exact ih.free hf h
  | meanwhile _ hs ih =>
    refine ⟨hs ▸ ih.manager, fun f => ?_⟩
    rw [Machine.freeFrames_congr hs]
    exact ih.count f

theorem Inv.mem_iff (H : Inv start len s handed) :
    f ∈ s.freeFrames ++ handed ↔ WholeFrame start len f := by
  rw [← List.count_pos_iff, H.count]
  split <;> simp [*]

theorem Inv.nodup (H : Inv start len s handed) : (s.freeFrames ++ handed).Nodup :=
  List.nodup_iff_count_le_one.mpr fun f => by
    rw [H.count]
    split <;> omega

/-- **Partition.** The free frames and the handed out frames are the whole frames of the region,
each once. `alloc` returns one of them that was free, or 0 when all are handed out; it returns frame
0 as well, when the region has it. -/
theorem Run.partition (h : Run start len s handed) (hend : start + len < 2 ^ 64) :
    (s.freeFrames ++ handed).Nodup ∧
    (∀ f, f ∈ s.freeFrames ++ handed ↔ WholeFrame start len f) ∧
    ∃ f s', Physical.alloc.run s = (.ok f, s') ∧
      (WholeFrame start len f ∧ f ∉ handed ∧ Run start len s' (f :: handed) ∨
        f = 0 ∧ (∀ g, WholeFrame start len g → g ∈ handed) ∧ Run start len s' handed) := by
  have H := h.inv hend
  have hnodup := H.nodup
  refine ⟨hnodup, fun f => H.mem_iff, ?_⟩
  have hm : ∃ m, s.gPhysicalManager = some m := ⟨_, H.manager.choose_spec.1⟩
  rcases hfree : s.freeFrames with _ | ⟨f, fs⟩
  · have hrun := alloc_run_nil hm hfree
    refine ⟨0, s, hrun, .inr ⟨rfl, fun g hg => ?_, .allocNull h hfree hrun⟩⟩
    simpa [hfree] using H.mem_iff.mpr hg
  · obtain ⟨m, hrun, -⟩ := alloc_run_cons hm hfree
    refine ⟨f, _, hrun, .inl ⟨H.mem_iff.mp (by simp [hfree]), fun hmem => ?_,
      .alloc h (by simp [hfree]) hrun⟩⟩
    rw [hfree] at hnodup
    exact (List.nodup_cons.mp hnodup).1 (List.mem_append_right _ hmem)

/-- The machine just booted, with a new manager. -/
def newMachine : Machine := { bootMachine (mb 5) with gPhysicalManager := some new }

theorem Run.partition_setup : ∃ s', (Physical.setup (mb 8) 8192).run newMachine = (.ok (), s') ∧
    ∀ f, f ∈ s'.freeFrames ++ [] ↔ WholeFrame (mb 8) 8192 f :=
  ⟨_, rfl, (Run.partition (.setup (s := newMachine) rfl rfl) (by decide)).2.1⟩

/-- `alloc` hands out frame 0 as `nullptr`. -/
theorem Run.not_partition_zero : ¬∀ start len s handed, start + len < 2 ^ 64 →
    Run start len s handed → ∀ s', Physical.alloc.run s = (.ok 0, s') →
      ∀ f, WholeFrame start len f → f ∈ handed := by
  intro hall
  have hrun : Run 0 4096 _ [] := .setup (s := newMachine) rfl rfl
  exact absurd (hall 0 4096 _ [] (by decide) hrun _ rfl 0 (by decide)) List.not_mem_nil

end
end Physical
end Coronel
