import Coronel.Verify.Physical

/-!
# Blocks of frames

`physical::alloc(blocks)` keeps the frames it takes in an array above the watermark. When it runs
out of frames, it frees what it has, with new nodes above the array, and then lowers the watermark
by the size of the array: below the nodes. So the rollback is harmless only where it does not
happen, apart from a block count for which the size of the array wraps to nothing.
-/

namespace Coronel

open Theory Theory.Bytes

namespace Physical

/-- Every node of the free list lies below the watermark. -/
def NodesBelow (s : Machine) : Prop :=
  ∀ m, s.gPhysicalManager = some m → ∀ fr ∈ m.freeList, fr.node + 16 ≤ s.placement

/-- There are `k` bytes of the window at the watermark. -/
def HasRoom (s : Machine) (k : Nat) : Prop := s.placement + k ≤ kvirtualAddress + directMapSize

/-- Too many blocks are refused at once, there is nothing to give back, or only one frame is given
back and the array has no size. -/
def Harmless (s : Machine) (blocks : Nat) : Prop :=
  ∀ m, s.gPhysicalManager = some m → m.physicalEnd < mul64 blocks frameSize ∨
    m.freeList = [] ∧ HasRoom s 8 ∨
    m.freeList.length = 1 ∧ blocks % 2 ^ 61 = 0 ∧ HasRoom s 16

/-- The states after `setup` of a region of physical memory above frame 0, under `alloc()`,
`free()` and `alloc(blocks)`, with the frames that are handed out. Others may take placement memory
in between. A failed `alloc(blocks)` was harmless. -/
inductive BlocksRun (start len : Nat) : Machine → List Nat → Prop
  | setup {s s'} : 0 < start → start + len ≤ 2 ^ 52 → s.gPhysicalManager = some new →
    kvirtualAddress ≤ s.placement → s.placement < 2 ^ 64 →
    (setup start len).run s = (.ok (), s') → BlocksRun start len s' []
  | alloc {s s' handed f} : BlocksRun start len s handed → alloc.run s = (.ok f, s') →
    BlocksRun start len s' (if f = 0 then handed else f :: handed)
  | free {s s' handed f} : BlocksRun start len s handed → f ∈ handed →
    (free f).run s = (.ok (), s') → BlocksRun start len s' (handed.erase f)
  | blocks {s s' handed n f} : BlocksRun start len s handed →
    (s.freeFrames.length < n → Harmless s n) → (allocBlocks n).run s = (.ok f, s') →
    BlocksRun start len s' (if f = 0 then handed else s.freeFrames.take n ++ handed)
  | meanwhile {s s' handed} : BlocksRun start len s handed →
    s'.gPhysicalManager = s.gPhysicalManager → s.placement ≤ s'.placement →
    s'.placement < 2 ^ 64 → BlocksRun start len s' handed

/-- The manager of a region of physical memory above frame 0, with its nodes below the watermark. -/
structure Kept (start len : Nat) (s : Machine) (handed : List Nat) : Prop where
  inv : Inv start len s handed
  nodes : NodesBelow s
  start_pos : 0 < start
  stop_le : start + len ≤ 2 ^ 52
  placement : kvirtualAddress ≤ s.placement ∧ s.placement < 2 ^ 64

section
variable {start len : Nat} {s s' : Machine} {m : Physical} {handed : List Nat} {f i n p r : Nat}

/-! ### Nodes -/

/-- Without a manager `free` does not return. -/
theorem free_run_none (hm : s.gPhysicalManager = none) :
    (Physical.free f).run s ≠ (.ok (), s') := by
  have hno : manager.run s = (.error (.pageFault 0), s) := by
    rw [manager, Prog.run_bind_ok (Prog.run_get s), hm]
    rfl
  rw [Physical.free, Prog.run_bind_error hno]
  intro h
  cases h

theorem NodesBelow.free (H : NodesBelow s) (h : (Physical.free f).run s = (.ok (), s')) :
    NodesBelow s' := by
  rcases hm : s.gPhysicalManager with _ | m
  · exact absurd h (free_run_none hm)
  by_cases hf : f % 4096 = 0 ∧ f < m.physicalEnd
  · obtain ⟨p, hp, -, rfl⟩ := free_run_push hm hf.1 hf.2 h
    intro m' hm' fr hfr
    cases hm'
    rcases List.mem_cons.mp hfr with rfl | hfr
    · simp only
      omega
    · have := H m hm fr hfr
      simp only
      omega
  · rw [free_run_skip hm hf] at h
    cases h
    exact H

theorem NodesBelow.freeFrames (H : NodesBelow s)
    (h : (Physical.freeFrames n f).run s = (.ok (), s')) : NodesBelow s' := by
  induction n generalizing s f with
  | zero =>
    cases h
    exact H
  | succ n ih =>
    rw [Physical.freeFrames, Prog.run_bind_eq_ok] at h
    obtain ⟨_, s1, h1, h2⟩ := h
    exact ih (H.free h1) h2

theorem NodesBelow.setup (hm : s.gPhysicalManager = some new)
    (h : (Physical.setup start len).run s = (.ok (), s')) : NodesBelow s' := by
  rw [setup_eq] at h
  obtain ⟨n, s1, m1, -, hm1, -, hnil, -, h⟩ := setup_loop hm h
  refine NodesBelow.freeFrames (fun m hm fr hfr => ?_) h
  cases hm1.symm.trans hm
  rw [hnil] at hfr
  cases hfr

/-- Fewer nodes, and a watermark that is not lower. -/
theorem NodesBelow.mono (H : NodesBelow s) (hle : s.placement ≤ s'.placement)
    (hsub : ∀ m', s'.gPhysicalManager = some m' → ∃ m, s.gPhysicalManager = some m ∧
      m'.freeList ⊆ m.freeList) : NodesBelow s' := by
  intro m' hm' fr hfr
  obtain ⟨m, hm, hs⟩ := hsub m' hm'
  have := H m hm fr (hs hfr)
  omega

/-! ### The array -/

theorem blockSlot_eq (h : p + 8 * i ≤ directMapSize) :
    blockSlot (kvirtualAddress + p) i = kvirtualAddress + (p + 8 * i) := by
  have hkv := kvirtualAddress_eq
  rw [directMapSize_eq] at h
  rw [blockSlot, mul64_eq (by omega), add64_eq (by omega)]
  omega

theorem alloc_eq (hm : s.gPhysicalManager = some m) : alloc.run s = match m.freeList with
    | [] => (.ok 0, s)
    | fr :: rest => (.ok fr.address, { s with gPhysicalManager := some ⟨m.physicalEnd, rest⟩ }) := by
  rw [alloc, Prog.run_bind_ok (manager_run hm)]
  rcases m.freeList with _ | ⟨fr, rest⟩ <;> rfl

/-- The first store needs a slot in the window. -/
theorem allocBlocksFrom_room {b : Bool} {a : Nat}
    (h : (allocBlocksFrom a (n + 1) i).run s = (.ok b, s')) :
    ∃ q, blockSlot a i = kvirtualAddress + q ∧ q + 8 ≤ directMapSize := by
  rw [allocBlocksFrom, Prog.run_bind_eq_ok] at h
  obtain ⟨f, s1, -, h⟩ := h
  rw [Prog.run_bind_eq_ok] at h
  obtain ⟨_, s2, h2, -⟩ := h
  obtain ⟨q, hq, hb, -⟩ := of_storeDirect_run h2
  exact ⟨q, hq, hb⟩

/-- Without a frame the loop ends with the rollback. -/
theorem allocBlocksFrom_nil (hm : s.gPhysicalManager = some m) (hnil : m.freeList = [])
    (hb : p + 8 * i + 8 ≤ directMapSize) :
    (allocBlocksFrom (kvirtualAddress + p) (n + 1) i).run s =
      (do freeBlocksFrom (kvirtualAddress + p) i 0; return false : Kernel Bool).run
        { s with ram := store s.ram 8 (p + 8 * i) 0 } := by
  have ha : alloc.run s = (.ok 0, s) := by rw [alloc_eq hm, hnil]
  have hl : load (store s.ram 8 (p + 8 * i) 0) 8 (p + 8 * i) = 0 := load_store
  rw [allocBlocksFrom, blockSlot_eq (by omega), Prog.run_bind_ok ha,
    Prog.run_bind_ok (run_storeDirect hb _), Prog.run_bind_ok (run_loadDirect hb _)]
  simp only [hl, if_true]

/-- With a frame it writes the entry and goes on. -/
theorem allocBlocksFrom_cons {fr : Frame} {rest : List Frame} (hm : s.gPhysicalManager = some m)
    (hcons : m.freeList = fr :: rest) (hpos : 0 < fr.address ∧ fr.address < 2 ^ 64)
    (hb : p + 8 * i + 8 ≤ directMapSize) :
    (allocBlocksFrom (kvirtualAddress + p) (n + 1) i).run s =
      (allocBlocksFrom (kvirtualAddress + p) n (i + 1)).run { s with
        ram := store s.ram 8 (p + 8 * i) fr.address
        gPhysicalManager := some { m with freeList := rest } } := by
  have ha : alloc.run s =
      (.ok fr.address, { s with gPhysicalManager := some { m with freeList := rest } }) := by
    rw [alloc_eq hm, hcons]
  have hl : load (store s.ram 8 (p + 8 * i) fr.address) 8 (p + 8 * i) = fr.address :=
    load_store_of_lt hpos.2
  rw [allocBlocksFrom, blockSlot_eq (by omega), Prog.run_bind_ok ha,
    Prog.run_bind_ok (run_storeDirect hb _), Prog.run_bind_ok (run_loadDirect hb _)]
  simp only [hl, if_neg hpos.1.ne']

/-- The loop has taken its blocks, or it has run out of frames and rolls back. In both cases the
first entry of the array is the first frame. -/
theorem allocBlocksFrom_run {b : Bool} {g : Nat} (hm : s.gPhysicalManager = some m)
    (hpos : ∀ fr ∈ m.freeList, 0 < fr.address ∧ fr.address < 2 ^ 64)
    (hp : p + 8 * i ≤ directMapSize) (h0 : i = 0 → ∀ fr ∈ m.freeList.head?, fr.address = g)
    (h1 : 0 < i → load s.ram 8 p = g)
    (h : (allocBlocksFrom (kvirtualAddress + p) n i).run s = (.ok b, s')) :
    n ≤ m.freeList.length ∧ b = true ∧
      s' = { s with ram := s'.ram, gPhysicalManager := s'.gPhysicalManager } ∧
      s'.gPhysicalManager = some { m with freeList := m.freeList.drop n } ∧
      (0 < i + n → load s'.ram 8 p = g) ∨
    m.freeList.length < n ∧ b = false ∧ ∃ s1,
      s1 = { s with ram := s1.ram, gPhysicalManager := some { m with freeList := [] } } ∧
      (0 < i + m.freeList.length → load s1.ram 8 p = g) ∧
      (freeBlocksFrom (kvirtualAddress + p) (i + m.freeList.length) 0).run s1 = (.ok (), s') := by
  induction n generalizing s m i with
  | zero =>
    cases h
    exact .inl ⟨Nat.zero_le _, rfl, rfl, hm, h1⟩
  | succ n ih =>
    obtain ⟨q, hq, hb⟩ := allocBlocksFrom_room h
    rw [blockSlot_eq hp] at hq
    obtain rfl : q = p + 8 * i := by omega
    rcases hlist : m.freeList with _ | ⟨fr, rest⟩
    · rw [allocBlocksFrom_nil hm hlist hb, Prog.run_bind_eq_ok] at h
      obtain ⟨_, s1, h2, h⟩ := h
      cases h
      refine .inr ⟨by simp, rfl, _, ?_, fun hi => ?_, h2⟩
      · rw [← hlist, ← hm]
      · rw [List.length_nil, Nat.add_zero] at hi
        exact (load_store_disjoint (by omega)).trans (h1 hi)
    · have hfr := hpos fr (by rw [hlist]; simp)
      rw [allocBlocksFrom_cons hm hlist hfr hb] at h
      -- the entry is the first one, or leaves it alone
      have hfirst : load (store s.ram 8 (p + 8 * i) fr.address) 8 p = g := by
        by_cases hi : i = 0
        · subst hi
          have hl : load (store s.ram 8 p fr.address) 8 p = fr.address := load_store_of_lt hfr.2
          exact hl.trans (h0 rfl fr (by rw [hlist]; rfl))
        · exact (load_store_disjoint (by omega)).trans (h1 (by omega))
      have := ih (s := { s with
          ram := store s.ram 8 (p + 8 * i) fr.address
          gPhysicalManager := some { m with freeList := rest } })
        (m := { m with freeList := rest }) (i := i + 1) rfl
        (fun fr' hfr' => hpos fr' (by rw [hlist]; exact List.mem_cons_of_mem _ hfr'))
        (by omega) (fun h0 => absurd h0 (by omega)) (fun _ => hfirst) h
      rcases this with ⟨h3, h4, h5, h6, h7⟩ | ⟨h3, h4, s1, h6, h7, h8⟩
      · exact .inl ⟨by simpa using h3, h4, h5, h6, fun _ => h7 (by omega)⟩
      · refine .inr ⟨by simpa using h3, h4, s1, h6, fun _ => h7 (by omega), ?_⟩
        rwa [List.length_cons, show i + (rest.length + 1) = i + 1 + rest.length by omega]

/-- The rollback puts nodes at the watermark, the last one right below it. -/
theorem freeBlocksFrom_run {a : Nat} (hm : s.gPhysicalManager = some m)
    (h : (freeBlocksFrom a n i).run s = (.ok (), s')) : ∃ m' k, s'.gPhysicalManager = some m' ∧
      s'.placement = s.placement + 16 * k ∧ m.freeList.length + k = m'.freeList.length ∧
      m'.physicalEnd = m.physicalEnd ∧ (∀ fr ∈ m.freeList, fr ∈ m'.freeList) ∧
      (0 < k → ∃ fr ∈ m'.freeList, fr.node + 16 = s'.placement) := by
  induction n generalizing s m i with
  | zero =>
    cases h
    exact ⟨m, 0, hm, rfl, rfl, rfl, fun _ h => h, fun hk => absurd hk (by decide)⟩
  | succ n ih =>
    rw [freeBlocksFrom, Prog.run_bind_eq_ok] at h
    obtain ⟨f, s1, h1, h⟩ := h
    obtain ⟨q, -, -, rfl, rfl⟩ := of_loadDirect_run h1
    rw [Prog.run_bind_eq_ok] at h
    obtain ⟨_, s2, h2, h⟩ := h
    generalize load s1.ram 8 q = f at h2
    by_cases hf : f % 4096 = 0 ∧ f < m.physicalEnd
    · obtain ⟨p, hp, -, rfl⟩ := free_run_push hm hf.1 hf.2 h2
      obtain ⟨m', k, h3, h4, h5, h6, h7, h8⟩ := ih rfl h
      refine ⟨m', k + 1, h3, ?_, ?_, h6, fun fr hfr => h7 fr (List.mem_cons_of_mem _ hfr),
        fun _ => ?_⟩
      · rw [h4]
        simp only
        omega
      · rw [← h5, List.length_cons]
        omega
      · by_cases hk : k = 0
        · refine ⟨_, h7 _ List.mem_cons_self, ?_⟩
          rw [h4, hk]
          simp only
          omega
        · exact h8 (by omega)
    · rw [free_run_skip hm hf] at h2
      cases h2
      exact ih hm h

/-! ### alloc(blocks) -/

theorem allocBlocks_refused (hm : s.gPhysicalManager = some m)
    (h : m.physicalEnd < mul64 n frameSize ∨ n = 0) : (allocBlocks n).run s = (.ok 0, s) := by
  rw [allocBlocks, Prog.run_bind_ok (manager_run hm), if_pos h]
  rfl

/-- Past the guard the array starts at the watermark. -/
theorem allocBlocks_eq (hm : s.gPhysicalManager = some m)
    (hpl : kvirtualAddress ≤ s.placement ∧ s.placement < 2 ^ 64)
    (h : ¬(m.physicalEnd < mul64 n frameSize ∨ n = 0)) :
    (allocBlocks n).run s = (do
      if !(← allocBlocksFrom s.placement n 0) then
        kfreeBlock (mul64 n 8)
        return 0
      let firstBlock ← loadDirect (blockSlot s.placement 0)
      kfreeBlock (mul64 n 8)
      return firstBlock : Kernel Nat).run { s with
        placement := add64 s.placement (mul64 n 8)
        reserved := ⟨s.placement, mul64 n 8⟩ :: s.reserved } := by
  have hkv := kvirtualAddress_eq
  rw [allocBlocks, Prog.run_bind_ok (manager_run hm), if_neg h]
  have hp : (placementKalloc (mul64 n 8)).run s = (.ok s.placement, { s with
      placement := add64 s.placement (mul64 n 8)
      reserved := ⟨s.placement, mul64 n 8⟩ :: s.reserved }) := rfl
  rw [Prog.run_bind_ok hp, if_neg (by omega)]

/-- It takes its blocks and gives the array back, or it rolls back with the first frame in the
first entry. -/
theorem allocBlocks_run (hm : s.gPhysicalManager = some m)
    (hpl : kvirtualAddress ≤ s.placement ∧ s.placement < 2 ^ 64)
    (hpos : ∀ fr ∈ m.freeList, 0 < fr.address ∧ fr.address < 2 ^ 64)
    (hn : ¬(m.physicalEnd < mul64 n frameSize ∨ n = 0))
    (h : (allocBlocks n).run s = (.ok r, s')) :
    (n ≤ m.freeList.length ∧ (∀ fr ∈ m.freeList.head?, r = fr.address) ∧
      s'.placement = s.placement ∧
      s'.gPhysicalManager = some { m with freeList := m.freeList.drop n }) ∨
    m.freeList.length < n ∧ r = 0 ∧ ∃ p s1 s2, s.placement = kvirtualAddress + p ∧
      p + 8 ≤ directMapSize ∧ s1.placement = add64 s.placement (mul64 n 8) ∧
      s1.gPhysicalManager = some { m with freeList := [] } ∧
      (∀ fr ∈ m.freeList.head?, load s1.ram 8 p = fr.address) ∧
      (freeBlocksFrom s.placement m.freeList.length 0).run s1 = (.ok (), s2) ∧
      s' = { s2 with placement := sub64 s2.placement (mul64 n 8) } := by
  rw [allocBlocks_eq hm hpl hn, Prog.run_bind_eq_ok] at h
  obtain ⟨b, s1, h1, h⟩ := h
  obtain ⟨k, rfl⟩ := Nat.exists_eq_succ_of_ne_zero fun h0 => hn (.inr h0)
  obtain ⟨p, hp, hb⟩ := allocBlocksFrom_room h1
  have hslot : blockSlot s.placement 0 = s.placement := by
    rw [blockSlot, mul64_eq (by omega), add64_eq (by omega)]
    omega
  rw [hslot] at hp h
  obtain ⟨g, hg⟩ : ∃ g, ∀ fr ∈ m.freeList.head?, fr.address = g := by
    rcases m.freeList with _ | ⟨fr, rest⟩
    · exact ⟨0, by simp⟩
    · exact ⟨fr.address, by simp⟩
  rw [hp] at h1
  rcases allocBlocksFrom_run (m := m) (p := p) (i := 0) (g := g) (by exact hm) hpos (by omega)
    (fun _ => hg) (fun h0 => absurd h0 (by decide)) h1 with
    ⟨hle, rfl, h2, h3, h4⟩ | ⟨hlt, rfl, s2, h2, h3, h4⟩
  · rw [hp] at h
    rw [if_neg (by decide), Prog.run_bind_ok (run_loadDirect hb _), h4 (by omega)] at h
    cases h
    refine .inl ⟨hle, fun fr hfr => (hg fr hfr).symm, ?_, h3⟩
    rw [h2]
    simp only [hp]
    have := mul64_lt (k + 1) 8
    generalize mul64 (k + 1) 8 = a at *
    unfold sub64 add64
    omega
  · rw [if_pos (by decide)] at h
    cases h
    rw [Nat.zero_add] at h3 h4
    refine .inr ⟨hlt, rfl, p, s2, s1, hp, hb, ?_, ?_, fun fr hfr => ?_, hp ▸ h4, rfl⟩
    · rw [h2, hp]
    · rw [h2]
    · rw [hg fr hfr]
      refine h3 ?_
      rcases hl : m.freeList with _ | ⟨fr, rest⟩
      · rw [hl] at hfr
        cases hfr
      · simp

/-! ### Harm -/

theorem Kept.frame (K : Kept start len s handed) (hm : s.gPhysicalManager = some m) {fr : Frame}
    (hfr : fr ∈ m.freeList) :
    fr.address % 4096 = 0 ∧ 0 < fr.address ∧ fr.address < 2 ^ 64 ∧
      fr.address < m.physicalEnd := by
  obtain ⟨m', hm', hend⟩ := K.inv.manager
  cases hm'.symm.trans hm
  have hw := K.inv.mem_iff.mp (List.mem_append_left _
    (freeFrames_of_manager hm ▸ List.mem_map_of_mem hfr))
  have h1 := K.start_pos
  have h2 := K.stop_le
  obtain ⟨h3, h4, h5⟩ := hw
  omega

theorem Inv.congr (H : Inv start len s handed) (hm : s.gPhysicalManager = some m)
    (hm' : s'.gPhysicalManager = some m') (hend : m'.physicalEnd = m.physicalEnd)
    (hfree : s'.freeFrames = s.freeFrames) : Inv start len s' handed := by
  obtain ⟨m1, hm1, h1⟩ := H.manager
  cases hm1.symm.trans hm
  exact ⟨⟨m', hm', hend.trans h1⟩, fun f => hfree ▸ H.count f⟩

theorem room_iff (hpl : kvirtualAddress ≤ s.placement) {k : Nat} (h : HasRoom s k) :
    ∃ p, s.placement = kvirtualAddress + p ∧ p + k ≤ directMapSize := by
  obtain ⟨p, hp⟩ := Nat.exists_eq_add_of_le hpl
  rw [HasRoom, hp] at h
  exact ⟨p, hp, by omega⟩

theorem sub64_add64 {x y : Nat} (hx : x < 2 ^ 64) :
    sub64 (add64 x y) y = x := by
  unfold sub64 add64
  omega

theorem allocBlocks_fail (hm : s.gPhysicalManager = some m)
    (hpl : kvirtualAddress ≤ s.placement ∧ s.placement < 2 ^ 64)
    (hn : ¬(m.physicalEnd < mul64 n frameSize ∨ n = 0))
    (h : (allocBlocksFrom s.placement n 0).run { s with
      placement := add64 s.placement (mul64 n 8)
      reserved := ⟨s.placement, mul64 n 8⟩ :: s.reserved } = (.ok false, s')) :
    (allocBlocks n).run s =
      (.ok 0, { s' with placement := sub64 s'.placement (mul64 n 8) }) := by
  rw [allocBlocks_eq hm hpl hn, Prog.run_bind_ok h]
  rfl

/-- With a single frame the entry behind it ends the loop, and the frame comes back. -/
theorem allocBlocksFrom_single {fr : Frame} (hm : s.gPhysicalManager = some m)
    (hone : m.freeList = [fr]) (hfr : fr.address % 4096 = 0 ∧ 0 < fr.address ∧
      fr.address < 2 ^ 64 ∧ fr.address < m.physicalEnd)
    (hp : s.placement = kvirtualAddress + p) (hb : p + 16 ≤ directMapSize) :
    ∃ s', (allocBlocksFrom (kvirtualAddress + p) (n + 2) 0).run s = (.ok false, s') ∧
      s'.placement = kvirtualAddress + (p + 16) ∧
      s'.gPhysicalManager = some { m with freeList := [⟨s.placement, fr.address⟩] } := by
  obtain ⟨hal, hpos, hlt, hend⟩ := hfr
  have hb' : p + 8 * (0 + 1) + 8 ≤ directMapSize := by omega
  rw [allocBlocksFrom_cons hm hone ⟨hpos, hlt⟩ (by omega), allocBlocksFrom_nil rfl rfl hb',
    freeBlocksFrom, blockSlot_eq (by omega)]
  generalize hs1 : ({ s with
    ram := store (store s.ram 8 (p + 8 * 0) fr.address) 8 (p + 8 * (0 + 1)) 0
    gPhysicalManager := some { m with freeList := [] } } : Machine) = s1
  have hl : load s1.ram 8 (p + 8 * 0) = fr.address := by
    rw [← hs1]
    exact (load_store_disjoint (by omega)).trans (load_store_of_lt hlt)
  have hm1 : s1.gPhysicalManager = some { m with freeList := [] } := by rw [← hs1]
  have hp1 : s1.placement = kvirtualAddress + p := by rw [← hs1]; exact hp
  obtain ⟨s2, h2⟩ := free_run_room hm1 hal hend hp1 hb
  refine ⟨s2, ?_, ?_⟩
  · refine Prog.run_bind_eq_ok.mpr ⟨(), s2, ?_, rfl⟩
    rw [Prog.run_bind_ok (run_loadDirect (by omega) _), hl, Prog.run_bind_ok h2]
    rfl
  · obtain ⟨q, hq, -, rfl⟩ := free_run_push hm1 hal hend h2
    obtain rfl : q = p := by omega
    exact ⟨rfl, by rw [hp1, hp]⟩

/-- The same frames in other nodes. -/
theorem Kept.congr (K : Kept start len s handed) (hm : s.gPhysicalManager = some m)
    (hm' : s'.gPhysicalManager = some m') (hend : m'.physicalEnd = m.physicalEnd)
    (hfree : m'.freeList.map (·.address) = m.freeList.map (·.address))
    (hnodes : ∀ fr ∈ m'.freeList, fr.node + 16 ≤ s'.placement)
    (hpl : kvirtualAddress ≤ s'.placement ∧ s'.placement < 2 ^ 64) :
    s'.freeFrames = s.freeFrames ∧ Kept start len s' handed := by
  have heq : s'.freeFrames = s.freeFrames := by
    rw [freeFrames_of_manager hm', freeFrames_of_manager hm, hfree]
  refine ⟨heq, K.inv.congr hm hm' hend heq, fun m1 hm1 => ?_, K.start_pos, K.stop_le, hpl⟩
  cases hm'.symm.trans hm1
  exact hnodes

/-- A harmless call returns `nullptr` and leaves the same frames free. -/
theorem Harmless.run (K : Kept start len s handed) (hlt : s.freeFrames.length < n)
    (H : Harmless s n) : ∃ s', (allocBlocks n).run s = (.ok 0, s') ∧
      s'.freeFrames = s.freeFrames ∧ Kept start len s' handed := by
  have hkv := kvirtualAddress_eq
  have hgb := directMapSize_eq
  obtain ⟨m, hm, hend⟩ := K.inv.manager
  by_cases hguard : m.physicalEnd < mul64 n frameSize ∨ n = 0
  · exact ⟨s, allocBlocks_refused hm hguard, rfl, K⟩
  rw [freeFrames_of_manager hm, List.length_map] at hlt
  rcases H m hm with hno | ⟨hnil, hroom⟩ | ⟨hone, ha, hroom⟩
  · exact absurd (.inl hno) hguard
  · obtain ⟨p, hp, hb⟩ := room_iff K.placement.1 hroom
    obtain ⟨k, rfl⟩ := Nat.exists_eq_succ_of_ne_zero fun h0 => hguard (.inr h0)
    have hstep := allocBlocksFrom_nil (s := { s with
      placement := add64 s.placement (mul64 (k + 1) 8)
      reserved := ⟨s.placement, mul64 (k + 1) 8⟩ :: s.reserved }) (n := k) (i := 0) hm hnil hb
    rw [← hp] at hstep
    refine ⟨_, allocBlocks_fail hm K.placement hguard hstep, K.congr hm hm rfl rfl ?_ ?_⟩
    · rw [hnil]
      exact fun fr hfr => absurd hfr List.not_mem_nil
    · rw [sub64_add64 K.placement.2]
      exact K.placement
  · obtain ⟨p, hp, hb⟩ := room_iff K.placement.1 hroom
    obtain ⟨fr, hfr⟩ := List.length_eq_one_iff.mp hone
    obtain ⟨k, rfl⟩ : ∃ k, n = k + 2 := ⟨n - 2, by omega⟩
    have hzero : mul64 (k + 2) 8 = 0 := by
      unfold mul64
      omega
    have hsame : add64 s.placement (mul64 (k + 2) 8) = kvirtualAddress + p := by
      rw [hzero, add64_eq K.placement.2, hp, Nat.add_zero]
    obtain ⟨s2, hrun, hpl2, hm2⟩ := allocBlocksFrom_single (s := { s with
      placement := add64 s.placement (mul64 (k + 2) 8)
      reserved := ⟨s.placement, mul64 (k + 2) 8⟩ :: s.reserved }) (n := k) hm hfr
      (K.frame hm (by simp [hfr])) hsame hb
    rw [← hp] at hrun
    have hback : sub64 s2.placement (mul64 (k + 2) 8) = kvirtualAddress + (p + 16) := by
      rw [hpl2, hzero, sub64_eq (Nat.zero_le _) (by omega), Nat.sub_zero]
    refine ⟨_, allocBlocks_fail hm K.placement hguard hrun, K.congr hm hm2 rfl ?_ ?_ ?_⟩
    · rw [hfr]
      rfl
    · intro fr' hfr'
      obtain rfl := List.mem_singleton.mp hfr'
      simp only [hback, hsame]
      omega
    · simp only [hback]
      omega

/-! ### Runs -/

/-- `free` leaves the watermark in the upper window. -/
theorem free_placement (hpl : kvirtualAddress ≤ s.placement ∧ s.placement < 2 ^ 64)
    (h : (Physical.free f).run s = (.ok (), s')) :
    kvirtualAddress ≤ s'.placement ∧ s'.placement < 2 ^ 64 := by
  have hkv := kvirtualAddress_eq
  have hgb := directMapSize_eq
  rcases hm : s.gPhysicalManager with _ | m
  · exact absurd h (free_run_none hm)
  by_cases hf : f % 4096 = 0 ∧ f < m.physicalEnd
  · obtain ⟨p, hp, hb, rfl⟩ := free_run_push hm hf.1 hf.2 h
    simp only
    omega
  · rw [free_run_skip hm hf] at h
    cases h
    exact hpl

theorem freeFrames_placement (hpl : kvirtualAddress ≤ s.placement ∧ s.placement < 2 ^ 64)
    (h : (Physical.freeFrames n f).run s = (.ok (), s')) :
    kvirtualAddress ≤ s'.placement ∧ s'.placement < 2 ^ 64 := by
  induction n generalizing s f with
  | zero =>
    cases h
    exact hpl
  | succ n ih =>
    rw [Physical.freeFrames, Prog.run_bind_eq_ok] at h
    obtain ⟨_, s1, h1, h2⟩ := h
    exact ih (free_placement hpl h1) h2

theorem setup_placement (hm : s.gPhysicalManager = some new)
    (hpl : kvirtualAddress ≤ s.placement ∧ s.placement < 2 ^ 64)
    (h : (Physical.setup start len).run s = (.ok (), s')) :
    kvirtualAddress ≤ s'.placement ∧ s'.placement < 2 ^ 64 := by
  rw [setup_eq] at h
  obtain ⟨n, s1, m1, -, -, -, -, hs1, h⟩ := setup_loop hm h
  exact freeFrames_placement (hs1 ▸ hpl) h

theorem Kept.alloc (K : Kept start len s handed) (h : Physical.alloc.run s = (.ok f, s')) :
    Kept start len s' (if f = 0 then handed else f :: handed) := by
  obtain ⟨m, hm, hend⟩ := K.inv.manager
  have hrun := h
  rw [alloc_eq hm] at h
  rcases hlist : m.freeList with _ | ⟨fr, rest⟩
  · rw [hlist] at h
    cases h
    exact K
  · rw [hlist] at h
    cases h
    have hpos := (@Kept.frame _ _ _ _ _ K hm fr (by simp [hlist])).2.1
    rw [if_neg hpos.ne']
    refine ⟨K.inv.alloc ?_ hrun, K.nodes.mono (Nat.le_refl _) fun m' hm' => ?_, K.start_pos,
      K.stop_le, K.placement⟩
    · rw [freeFrames_of_manager hm, hlist]
      simp
    · cases hm'
      exact ⟨m, hm, by simp [hlist]⟩

/-- What is taken in one call is handed out. -/
theorem Kept.take (K : Kept start len s handed) (hm : s.gPhysicalManager = some m)
    (hm' : s'.gPhysicalManager = some { m with freeList := m.freeList.drop n })
    (hpl : s'.placement = s.placement) : Kept start len s' (s.freeFrames.take n ++ handed) := by
  obtain ⟨m1, hm1, hend⟩ := K.inv.manager
  cases hm1.symm.trans hm
  refine ⟨⟨⟨_, hm', hend⟩, fun f => ?_⟩, K.nodes.mono hpl.ge fun m2 hm2 => ?_, K.start_pos,
    K.stop_le, hpl ▸ K.placement⟩
  · rw [← K.inv.count f, freeFrames_of_manager hm', freeFrames_of_manager hm, List.map_drop,
      ← List.append_assoc]
    simp only [List.count_append]
    rw [Nat.add_comm (List.count f (List.drop ..)), ← List.count_append, List.take_append_drop]
  · cases hm'.symm.trans hm2
    exact ⟨m, hm, List.drop_subset ..⟩

theorem Kept.blocks (K : Kept start len s handed) (hH : s.freeFrames.length < n → Harmless s n)
    (h : (allocBlocks n).run s = (.ok f, s')) :
    Kept start len s' (if f = 0 then handed else s.freeFrames.take n ++ handed) := by
  obtain ⟨m, hm, hend⟩ := K.inv.manager
  by_cases hlt : s.freeFrames.length < n
  · obtain ⟨s2, h2, -, K2⟩ := (hH hlt).run K hlt
    rw [h] at h2
    cases h2
    exact K2
  by_cases hguard : m.physicalEnd < mul64 n frameSize ∨ n = 0
  · rw [allocBlocks_refused hm hguard] at h
    cases h
    exact K
  rw [freeFrames_of_manager hm, List.length_map] at hlt
  rcases allocBlocks_run hm K.placement (fun fr hfr => ⟨(K.frame hm hfr).2.1, (K.frame hm hfr).2.2.1⟩)
    hguard h with ⟨-, hf, hpl, hm'⟩ | ⟨hlt', -⟩
  · obtain ⟨fr, rest, hlist⟩ := List.exists_cons_of_ne_nil (l := m.freeList)
      fun h0 => hlt (by rw [h0]; exact Nat.pos_of_ne_zero fun h0 => hguard (.inr h0))
    have hf := hf fr (by rw [hlist]; rfl)
    rw [if_neg (hf ▸ (@Kept.frame _ _ _ _ _ K hm fr (by simp [hlist])).2.1.ne')]
    exact K.take hm hm' hpl
  · exact absurd hlt' hlt

theorem BlocksRun.kept (h : BlocksRun start len s handed) : Kept start len s handed := by
  induction h with
  | setup hpos hend hm hpl hlt h =>
    have hinv := setup_inv hm (Nat.lt_of_le_of_lt hend (by decide)) h
    exact ⟨hinv, NodesBelow.setup hm h, hpos, hend, setup_placement hm ⟨hpl, hlt⟩ h⟩
  | alloc _ h ih => exact ih.alloc h
  | free _ hf h ih =>
    exact ⟨ih.inv.free hf h, ih.nodes.free h, ih.start_pos, ih.stop_le,
      free_placement ih.placement h⟩
  | blocks _ hH h ih => exact ih.blocks hH h
  | meanwhile _ hm hle hlt ih =>
    refine ⟨⟨hm ▸ ih.inv.manager, fun f => ?_⟩, ih.nodes.mono hle fun m' hm' => ?_, ih.start_pos,
      ih.stop_le, Nat.le_trans ih.placement.1 hle, hlt⟩
    · rw [Machine.freeFrames_congr hm]
      exact ih.inv.count f
    · exact ⟨m', hm ▸ hm', List.Subset.refl _⟩

/-- The first entry comes back in a node at the watermark. -/
theorem freeBlocksFrom_first {p i : Nat} (hm : s.gPhysicalManager = some m)
    (hb : p + 8 * i + 8 ≤ directMapSize)
    (hal : f % 4096 = 0) (hend : f < m.physicalEnd) (hl : load s.ram 8 (p + 8 * i) = f)
    (h : (freeBlocksFrom (kvirtualAddress + p) (n + 1) i).run s = (.ok (), s')) :
    ∃ q s1, s.placement = kvirtualAddress + q ∧ q + 16 ≤ directMapSize ∧
      s1.ram = store (store s.ram 8 q f) 8 (q + 8) (headNode m.freeList) ∧
      s1.placement = kvirtualAddress + (q + 16) ∧
      s1.gPhysicalManager = some { m with freeList := ⟨s.placement, f⟩ :: m.freeList } ∧
      (freeBlocksFrom (kvirtualAddress + p) n (i + 1)).run s1 = (.ok (), s') := by
  rw [freeBlocksFrom, blockSlot_eq (by omega), Prog.run_bind_ok (run_loadDirect hb _), hl,
    Prog.run_bind_eq_ok] at h
  obtain ⟨_, s1, h1, h2⟩ := h
  obtain ⟨q, hq, hqb, rfl⟩ := free_run_push hm hal hend h1
  refine ⟨q, _, hq, hqb, ?_, ?_, ?_, h2⟩ <;> rfl

/-- Behind an array without a size the second node is for frame 0: the entry is now the link of the
first node. -/
theorem freeBlocksFrom_zero {p : Nat} (hm : s.gPhysicalManager = some m)
    (hb : p + 16 ≤ directMapSize) (hend : 0 < m.physicalEnd) (hl : load s.ram 8 (p + 8) = 0)
    (h : (freeBlocksFrom (kvirtualAddress + p) (n + 1) 1).run s = (.ok (), s')) :
    0 ∈ s'.freeFrames := by
  obtain ⟨q, s1, -, -, -, -, hm1, h1⟩ :=
    freeBlocksFrom_first (i := 1) (f := 0) hm (by omega) rfl hend (by rw [Nat.mul_one, hl]) h
  obtain ⟨m', k, hm', -, -, -, hsub, -⟩ := freeBlocksFrom_run hm1 h1
  rw [freeFrames_of_manager hm']
  exact List.mem_map_of_mem (f := (·.address)) (hsub _ List.mem_cons_self)

/-- An array between two places of the window is small, or the guard sees that it is large. -/
theorem array_size {p q : Nat} (hp : p ≤ directMapSize) (hq : q ≤ directMapSize)
    (h : kvirtualAddress + q = add64 (kvirtualAddress + p) (mul64 n 8)) :
    2 ^ 52 < mul64 n frameSize ∨ mul64 n 8 ≤ directMapSize := by
  rw [directMapSize_eq] at *
  rw [kvirtualAddress_eq] at h
  unfold mul64 frameSize
  unfold add64 mul64 at h
  omega

theorem sub64_lt_self {x y : Nat} (hy : 0 < y) (hle : y ≤ x) : sub64 x y < x := by
  unfold sub64
  omega

/-- Where a failed call did no harm, there was nothing that its rollback could harm. -/
theorem Kept.harmless_of_run (K : Kept start len s handed) (hlt : s.freeFrames.length < n)
    (h : (allocBlocks n).run s = (.ok 0, s')) (hfree : ∀ f, f ∈ s'.freeFrames ↔ f ∈ s.freeFrames)
    (hnodes : NodesBelow s') : Harmless s n := by
  have hkv := kvirtualAddress_eq
  have hgb := directMapSize_eq
  intro m hm
  by_cases hguard : m.physicalEnd < mul64 n frameSize ∨ n = 0
  · exact .inl (hguard.resolve_right (by omega))
  have hpos := fun fr hfr => @Kept.frame _ _ _ _ _ K hm fr hfr
  rw [freeFrames_of_manager hm, List.length_map] at hlt
  rcases allocBlocks_run hm K.placement (fun fr hfr => ⟨(hpos fr hfr).2.1, (hpos fr hfr).2.2.1⟩)
    hguard h with ⟨hle, -⟩ | ⟨-, -, p, s1, s2, hp, hb, hpl1, hm1, hg, h2, rfl⟩
  · exact absurd hle (by omega)
  rcases hlist : m.freeList with _ | ⟨fr, rest⟩
  · exact .inr (.inl ⟨rfl, by rw [HasRoom]; omega⟩)
  obtain ⟨hal, hfr, -, hend⟩ := hpos fr (by simp [hlist])
  rw [hlist, List.length_cons, hp] at h2
  have hl : load s1.ram 8 (p + 8 * 0) = fr.address := by
    rw [Nat.mul_zero, Nat.add_zero]
    exact hg fr (by rw [hlist]; rfl)
  have hb0 : p + 8 * 0 + 8 ≤ directMapSize := by omega
  obtain ⟨q, s3, hq, hqb, hram, hpl3, hm3, h3⟩ :=
    freeBlocksFrom_first (s := s1) (m := { m with freeList := [] }) (f := fr.address) hm1 hb0 hal
      hend hl h2
  obtain ⟨m', k, hm', hpl', -, -, hsub, hlast⟩ := freeBlocksFrom_run hm3 h3
  -- the last node is right below the watermark, so the array had no size
  obtain ⟨fr', hfr', hnode⟩ : ∃ fr' ∈ m'.freeList, fr'.node + 16 = s2.placement := by
    by_cases hk : k = 0
    · exact ⟨_, hsub _ List.mem_cons_self, by rw [hpl', hk, hpl3]; simp only; omega⟩
    · exact hlast (by omega)
  have hbelow := hnodes m' hm' fr' hfr'
  rw [hnode] at hbelow
  have hsize : mul64 n 8 = 0 := by
    rcases array_size (n := n) (show p ≤ directMapSize by omega) (show q ≤ directMapSize by omega)
      (by rw [← hp, ← hpl1, hq]) with hbig | hsmall
    · have := K.stop_le
      obtain ⟨m0, hm0, hend0⟩ := K.inv.manager
      cases hm0.symm.trans hm
      exact absurd (.inl (by omega)) hguard
    · refine Nat.eq_zero_of_not_pos fun hpos => absurd hbelow (Nat.not_le.mpr ?_)
      refine sub64_lt_self hpos ?_
      omega
  have hqp : q = p := by
    rw [hsize, add64_eq K.placement.2, Nat.add_zero] at hpl1
    omega
  refine .inr (.inr ⟨?_, by unfold mul64 at hsize; omega, by rw [HasRoom]; omega⟩)
  rcases rest with _ | ⟨fr2, rest⟩
  · rfl
  have hzero : 0 ∈ s2.freeFrames := by
    refine freeBlocksFrom_zero hm3 (hqp ▸ hqb) (by simp only; omega) ?_ h3
    rw [hram, hqp]
    exact load_store
  have hmem := (hfree 0).mp hzero
  rw [freeFrames_of_manager hm, List.mem_map] at hmem
  obtain ⟨fr3, hfr3, h0⟩ := hmem
  exact absurd h0 (hpos fr3 hfr3).2.1.ne'

/-- **Failed allocations.** A run of `alloc(n)` for more blocks than are free returns `nullptr` with
the same frames free and every node below the watermark if and only if there was nothing that the
rollback could harm. -/
theorem BlocksRun.harmless_iff (hrun : BlocksRun start len s handed)
    (hlt : s.freeFrames.length < n) :
    (∃ s', (allocBlocks n).run s = (.ok 0, s') ∧
      (∀ f, f ∈ s'.freeFrames ↔ f ∈ s.freeFrames) ∧ NodesBelow s') ↔ Harmless s n := by
  constructor
  · rintro ⟨s', h, hfree, hnodes⟩
    exact hrun.kept.harmless_of_run hlt h hfree hnodes
  · intro H
    obtain ⟨s', h, hfree, K⟩ := H.run hrun.kept hlt
    exact ⟨s', h, fun f => by rw [hfree], K.nodes⟩

/-- 2 ^ 20 blocks are more than the end of the region allows. -/
theorem BlocksRun.harmless_iff_refused :
    ∃ s, (Physical.setup (mb 8) 8192).run newMachine = (.ok (), s) ∧
      ∃ s', (allocBlocks (2 ^ 20)).run s = (.ok 0, s') ∧
        (∀ f, f ∈ s'.freeFrames ↔ f ∈ s.freeFrames) ∧ NodesBelow s' := by
  have hrun : BlocksRun (mb 8) 8192 _ [] := .setup (s := newMachine) (by decide) (by decide) rfl
    (by decide) (by decide) rfl
  refine ⟨_, rfl, (BlocksRun.harmless_iff hrun (n := 2 ^ 20) (by decide)).mpr fun m hm => .inl ?_⟩
  cases hm
  decide

/-- Of two frames three cannot be had, and the nodes of the rollback stay above the watermark. -/
theorem BlocksRun.not_harmless_three : ¬∀ start len s handed n, BlocksRun start len s handed →
    s.freeFrames.length < n → ∃ s', (allocBlocks n).run s = (.ok 0, s') ∧
      (∀ f, f ∈ s'.freeFrames ↔ f ∈ s.freeFrames) ∧ NodesBelow s' := by
  intro hall
  have hrun : BlocksRun (mb 8) 8192 _ [] := .setup (s := newMachine) (by decide) (by decide) rfl
    (by decide) (by decide) rfl
  obtain ⟨s', h, hfree, hnodes⟩ := hall _ _ _ _ 3 hrun (by decide)
  rcases hrun.kept.harmless_of_run (by decide) h hfree hnodes _ rfl with hno | ⟨hno, -⟩ | ⟨hno, -⟩
  · exact absurd hno (by decide)
  · exact absurd hno (by decide)
  · exact absurd hno (by decide)

end
end Physical
end Coronel
