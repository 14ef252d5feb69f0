import Coronel.Verify.Calls
import Coronel.Verify.Frames
import Coronel.Verify.UserBlocks

/-!
# The user heap keeps its list

`UserAllocator.Inv`: the block list of a user heap tiles `[heap_start_, heap_current_)`, the pages
requested for it in its directory. Every method that runs while this directory is the current one
keeps it, moves no data of a block in use, and leaves the pages of other directories alone.

Sizes are cut to 32 bits where the source cuts them. The heap ends below 1 GiB, so a size that has
been written was never cut; the size that is asked for may have been.
-/

namespace Coronel

open Theory Theory.Bytes

namespace UserAllocator

/-- The pages requested for the heap. -/
def pages (self : UserAllocator) : List Page :=
  pagesOf self.pageDirectory (self.heapStart / 4096) ((self.heapCurrent - self.heapStart) / 4096)

/-- What the heap's directory shows, beside the pages `rest` of others. -/
def bytes (self : UserAllocator) (rest : List Page) (s : Machine) : Mem :=
  view (self.pages ++ rest) s.ram self.pageDirectory

/-- The pages `rest` lie outside the addresses of the user heap of `d`. -/
def Foreign (d : Nat) (rest : List Page) : Prop :=
  ∀ pg ∈ rest, pg.dir = d →
    pg.number < userHeapStartAddr / 4096 ∨ userHeapMaxAddr / 4096 ≤ pg.number

/-- The blocks `bs` are the list of the heap and tile its pages. -/
structure Inv (W : Nat) (dirs : List Nat) (heap : UserAllocator) (rest : List Page)
    (bs : List Block) (s : Machine) : Prop where
  space : Space W dirs (heap.pages ++ rest) s
  dir : heap.pageDirectory ∈ dirs
  foreign : Foreign heap.pageDirectory rest
  listed : Listed UserBlock.layout userHeapMaxAddr (heap.pages ++ rest) heap.pageDirectory
    (heap.bytes rest s) bs
  first : heap.firstBlock = headAddr bs 0
  start : heap.heapStart = userHeapStartAddr
  tiles : Tiles 24 heap.heapStart bs heap.heapCurrent
  aligned : heap.heapCurrent % 4096 = 0
  top : heap.heapCurrent ≤ userHeapMaxAddr

/-- The heap is where it was; the counters may differ. -/
structure SamePlace (heap heap' : UserAllocator) : Prop where
  heapStart : heap'.heapStart = heap.heapStart
  heapCurrent : heap'.heapCurrent = heap.heapCurrent
  firstBlock : heap'.firstBlock = heap.firstBlock
  pageDirectory : heap'.pageDirectory = heap.pageDirectory

/-- The data of the blocks `es` is the same before and after, and so are the pages `rest` of other
directories. -/
structure Moves (heap heap' : UserAllocator) (rest : List Page) (es : List Block)
    (s s' : Machine) : Prop where
  cr3 : s'.cr3 = s.cr3
  dir : heap'.pageDirectory = heap.pageDirectory
  data : UserBlock.layout.SameData es (heap.bytes rest s) (heap'.bytes rest s')
  other : ∀ d, d ≠ heap.pageDirectory → view rest s'.ram d = view rest s.ram d

/-- `total_allocated_` follows the sizes of the blocks in use. -/
structure Tallied (heap heap' : UserAllocator) (bs bs' : List Block) : Prop where
  allocated : (heap'.totalAllocated + usedSize bs) % 2 ^ 32 =
    (heap.totalAllocated + usedSize bs') % 2 ^ 32
  small : heap.totalAllocated < 2 ^ 32 → heap'.totalAllocated < 2 ^ 32

/-- `num_blocks_` follows the length of the list. -/
structure Numbered (heap heap' : UserAllocator) (bs bs' : List Block) : Prop where
  blocks : (heap'.numBlocks + bs.length) % 2 ^ 32 = (heap.numBlocks + bs'.length) % 2 ^ 32
  small : heap.numBlocks < 2 ^ 32 → heap'.numBlocks < 2 ^ 32

/-- The size a request of `size` bytes is rounded to, cut to 32 bits. -/
def roundSize (size : Nat) : Nat := toUInt32 (alignUp size)

section
variable {W : Nat} {dirs : List Nat} {owned rest : List Page} {s s' s'' : Machine} {m m' : Mem}
  {self self' self'' : UserAllocator} {bs bs' xs ys es es' : List Block} {d a k : Nat}

/-! ### The invariant -/

theorem SamePlace.refl (self : UserAllocator) : SamePlace self self := ⟨rfl, rfl, rfl, rfl⟩

theorem SamePlace.trans (h : SamePlace self self') (h' : SamePlace self' self'') :
    SamePlace self self'' :=
  ⟨h'.heapStart.trans h.heapStart, h'.heapCurrent.trans h.heapCurrent,
    h'.firstBlock.trans h.firstBlock, h'.pageDirectory.trans h.pageDirectory⟩

theorem SamePlace.pages_eq (h : SamePlace self self') : self'.pages = self.pages := by
  rw [pages, h.heapStart, h.heapCurrent, h.pageDirectory, pages]

theorem SamePlace.bytes_eq (h : SamePlace self self') (s : Machine) :
    self'.bytes rest s = self.bytes rest s := by
  rw [bytes, h.pages_eq, h.pageDirectory, bytes]

theorem Moves.refl (self : UserAllocator) (rest : List Page) (es : List Block) (s : Machine) :
    Moves self self rest es s s := ⟨rfl, rfl, Layout.SameData.refl, fun _ _ => rfl⟩

theorem Moves.trans (h : Moves self self' rest es s s') (h' : Moves self' self'' rest es s' s'') :
    Moves self self'' rest es s s'' :=
  ⟨h'.cr3.trans h.cr3, h'.dir.trans h.dir, h.data.trans h'.data,
    fun d hd => (h'.other d (by rwa [h.dir])).trans (h.other d hd)⟩

theorem Moves.subset (h : Moves self self' rest es s s') (hs : es' ⊆ es) :
    Moves self self' rest es' s s' := ⟨h.cr3, h.dir, h.data.subset hs, h.other⟩

theorem Moves.samePlace (h : Moves self self' rest es s s') (h' : SamePlace self' self'') :
    Moves self self'' rest es s s' :=
  ⟨h.cr3, h'.pageDirectory.trans h.dir, by rw [h'.bytes_eq]; exact h.data, h.other⟩

theorem Tallied.refl (self : UserAllocator) (bs : List Block) : Tallied self self bs bs :=
  ⟨rfl, id⟩

theorem Tallied.trans {bs'' : List Block} (h : Tallied self self' bs bs')
    (h' : Tallied self' self'' bs' bs'') : Tallied self self'' bs bs'' := by
  obtain ⟨h1, h2⟩ := h
  obtain ⟨h3, h4⟩ := h'
  exact ⟨by omega, fun h => h4 (h2 h)⟩

theorem Numbered.refl (self : UserAllocator) (bs : List Block) : Numbered self self bs bs :=
  ⟨rfl, id⟩

theorem Numbered.trans {bs'' : List Block} (h : Numbered self self' bs bs')
    (h' : Numbered self' self'' bs' bs'') : Numbered self self'' bs bs'' := by
  obtain ⟨h1, h2⟩ := h
  obtain ⟨h3, h4⟩ := h'
  exact ⟨by omega, fun h => h4 (h2 h)⟩

theorem Inv.heapStart_le (H : Inv W dirs self rest bs s) : self.heapStart ≤ self.heapCurrent :=
  H.tiles.le

theorem Inv.mem_pages (H : Inv W dirs self rest bs s) {n : Nat} : ⟨d, n⟩ ∈ self.pages ↔
    d = self.pageDirectory ∧ self.heapStart ≤ 4096 * n ∧ 4096 * n < self.heapCurrent := by
  have h1 := H.heapStart_le
  have h2 := H.aligned
  have h3 := H.start
  have h4 : userHeapStartAddr % 4096 = 0 := by decide
  rw [pages, mem_pagesOf]
  simp only
  constructor
  · rintro ⟨rfl, h5, h6⟩
    exact ⟨rfl, by omega, by omega⟩
  · rintro ⟨rfl, h5, h6⟩
    exact ⟨rfl, by omega, by omega⟩

/-- The counters do not matter. -/
theorem Inv.samePlace (H : Inv W dirs self rest bs s) (h : SamePlace self self') :
    Inv W dirs self' rest bs s := by
  refine ⟨?_, ?_, ?_, ?_, ?_, ?_, ?_, ?_, ?_⟩
  · rw [h.pages_eq]; exact H.space
  · rw [h.pageDirectory]; exact H.dir
  · rw [h.pageDirectory]; exact H.foreign
  · rw [h.pages_eq, h.pageDirectory, h.bytes_eq]; exact H.listed
  · rw [h.firstBlock]; exact H.first
  · rw [h.heapStart]; exact H.start
  · rw [h.heapStart, h.heapCurrent]; exact H.tiles
  · rw [h.heapCurrent]; exact H.aligned
  · rw [h.heapCurrent]; exact H.top

/-- After writes that leave a list of the same extent. -/
theorem Inv.wrote (H : Inv W dirs self rest bs s) (ha : s.cr3 = self.pageDirectory)
    (hself : SamePlace self self') (w : Wrote W dirs (self.pages ++ rest) m s s')
    (l : Listed UserBlock.layout userHeapMaxAddr (self.pages ++ rest) s.cr3 m bs')
    (hfirst : headAddr bs' 0 = headAddr bs 0)
    (htiles : Tiles 24 self.heapStart bs self.heapCurrent →
      Tiles 24 self.heapStart bs' self.heapCurrent)
    (hd : UserBlock.layout.SameData es (self.bytes rest s) m) :
    Inv W dirs self' rest bs' s' ∧ Moves self self' rest es s s' ∧ self'.bytes rest s' = m := by
  have hbytes : self'.bytes rest s' = m := by rw [hself.bytes_eq, bytes, ← ha, w.shows]
  refine ⟨⟨?_, ?_, ?_, ?_, ?_, ?_, ?_, ?_, ?_⟩, ⟨w.cr3, hself.pageDirectory, by rwa [hbytes],
    fun d hne => ?_⟩, hbytes⟩
  · rw [hself.pages_eq]; exact w.space
  · rw [hself.pageDirectory]; exact H.dir
  · rw [hself.pageDirectory]; exact H.foreign
  · rw [hself.pages_eq, hself.pageDirectory, hbytes, ← ha]; exact l
  · rw [hself.firstBlock, H.first, hfirst]
  · rw [hself.heapStart]; exact H.start
  · rw [hself.heapStart, hself.heapCurrent]; exact htiles H.tiles
  · rw [hself.heapCurrent]; exact H.aligned
  · rw [hself.heapCurrent]; exact H.top
  · have := w.other d (by rwa [ha])
    exact funext (view_subset (fun v => by rw [this]) (List.subset_append_right self.pages rest))

/-- The list of the heap, in the current directory. -/
theorem Inv.current (H : Inv W dirs self rest bs s) (ha : s.cr3 = self.pageDirectory) :
    Listed UserBlock.layout userHeapMaxAddr (self.pages ++ rest) s.cr3
      (view (self.pages ++ rest) s.ram s.cr3) bs := by
  rw [ha]
  exact H.listed

theorem Inv.bytes_eq (_ : Inv W dirs self rest bs s) (ha : s.cr3 = self.pageDirectory) :
    view (self.pages ++ rest) s.ram s.cr3 = self.bytes rest s := by
  rw [ha, bytes]

/-! ### Pages -/

/-- The allocator does not clear the pages it gets. -/
theorem clearsPage_none (c d : Nat) : ClearsPage W dirs c d fun _ => pure () :=
  fun _ s _ H _ _ => ⟨s, rfl, H, rfl, fun _ _ _ => rfl, fun _ _ _ => rfl⟩

/-- `sys_request_memory` makes all pages of the range owned pages, or none. -/
theorem sysRequestMemory_safe {p n : Nat} (H : Space W dirs owned s)
    (hd : self.pageDirectory ∈ dirs) (hnot : ∀ pg ∈ pagesOf self.pageDirectory p n, pg ∉ owned)
    (hp : p + n ≤ 2 ^ 27) :
    Prog.Safe (Promise W) Trap.IsDirectMap (sysRequestMemory self (4096 * p) (4096 * n)) s
      fun r s' => Space W dirs (if r then pagesOf self.pageDirectory p n ++ owned else owned) s' ∧
        Kept owned s s' ∧ r = decide (n ≤ s.freeFrames.length) := by
  have hn : alignUp (4096 * n) / frameSize = n := by
    rw [alignUp_of_aligned (by omega) (by omega), frameSize]
    omega
  have := @mapFramesFrom_safe _ _ owned _ _ p n 0 s.cr3 (pure self.pageDirectory) _ 0x07 H hd rfl
      (fun _ _ => rfl) (clearsPage_none s.cr3 self.pageDirectory) (by decide)
      (by rwa [Nat.zero_add]) hp
  rw [Nat.zero_add] at this
  rw [sysRequestMemory, hn]
  refine this.mono fun _ _ _ h => ?_
  obtain ⟨h1, h2, -, h3, -⟩ := h
  exact ⟨h1, h2, h3⟩

/-- With room for the tables, it ends: it succeeds when there are frames enough. -/
theorem sysRequestMemory_ok {p n : Nat} (H : Space W dirs owned s)
    (hd : self.pageDirectory ∈ dirs) (hnot : ∀ pg ∈ pagesOf self.pageDirectory p n, pg ∉ owned)
    (hp : p + n ≤ 2 ^ 27) (hC : s ∈ Promise W)
    (hroom : s.placement + 16384 * n ≤ kvirtualAddress + W) (hW : W ≤ directMapSize) :
    ∃ s', (sysRequestMemory self (4096 * p) (4096 * n)).run s =
        (.ok (decide (n ≤ s.freeFrames.length)), s') ∧ s' ∈ Promise W ∧
      s'.placement ≤ s.placement + 16384 * n ∧ s'.freeFrames = s.freeFrames.drop n := by
  have hn : alignUp (4096 * n) / frameSize = n := by
    rw [alignUp_of_aligned (by omega) (by omega), frameSize]
    omega
  obtain ⟨s', hrun, h⟩ := @mapFramesFrom_ok _ _ owned _ _ p n 0 s.cr3 (pure self.pageDirectory) _
      0x07 H hd rfl (fun _ _ => rfl) (clearsPage_none s.cr3 self.pageDirectory) (by decide)
      (by rwa [Nat.zero_add]) hp hC hroom hW
  rw [sysRequestMemory, hn]
  exact ⟨s', hrun, h⟩

/-! ### malloc -/

theorem splitBlock_run {b : Block} {r : Bool} (h : (userBlock.splitBlock b.addr k).run s = (.ok r, s')) :
    ∃ self', (splitBlock self b.addr k).run s = (.ok self', s') ∧ SamePlace self self' ∧
      self'.totalAllocated = self.totalAllocated ∧
      self'.numBlocks = if r then toUInt32 (self.numBlocks + 1) else self.numBlocks := by
  rw [splitBlock, Prog.run_bind_ok h]
  cases r
  · exact ⟨self, rfl, SamePlace.refl self, rfl, rfl⟩
  · exact ⟨_, rfl, ⟨rfl, rfl, rfl, rfl⟩, rfl, rfl⟩

/-- The block found is handed out. -/
theorem mallocFrom_run {b : Block} (H : Inv W dirs self rest (xs ++ b :: ys) s)
    (ha : s.cr3 = self.pageDirectory) (hk : k ≤ b.size) :
    ∃ self' s', (mallocFrom self b.addr k).run s = (.ok (b.addr + 24, self'), s') ∧
      Inv W dirs self' rest (xs ++ FreeList.take 24 16 k b ++ ys) s' ∧
      Moves self self' rest (xs ++ ys) s s' ∧ s' = { s with ram := s'.ram } ∧
      SamePlace self self' ∧
      (b.free = true → b.size = k ∨ k + 40 ≤ b.size →
        Tallied self self' (xs ++ b :: ys) (xs ++ FreeList.take 24 16 k b ++ ys)) ∧
      Numbered self self' (xs ++ b :: ys) (xs ++ FreeList.take 24 16 k b ++ ys) := by
  obtain ⟨s1, s2, m, r1, r2, w, l, hd⟩ :=
    userBlock_lawful.takeBlock_run (Wrote.refl H.space) (H.current ha) hk
  obtain ⟨self1, hrun1, hsame, halloc, hsplit⟩ := @splitBlock_run _ _ self _ _ _ r1
  have hmem : b ∈ xs ++ b :: ys := by simp
  have hdata := userBlock_lawful.data_eq H.listed hmem
  obtain ⟨self2, hself2⟩ : ∃ self2, self2 = { self1 with
      totalAllocated := toUInt32 (self1.totalAllocated + k) } := ⟨_, rfl⟩
  have hplace : SamePlace self self2 := by
    rw [hself2]
    exact hsame.trans ⟨rfl, rfl, rfl, rfl⟩
  rw [H.bytes_eq ha] at hd
  obtain ⟨h1, h2, -⟩ := H.wrote ha hplace w l (headAddr_take 0) tiles_take.mpr hd
  have hta : self2.totalAllocated = toUInt32 (self.totalAllocated + k) := by rw [hself2, halloc]
  have hnb : self2.numBlocks =
      if k + 40 ≤ b.size then toUInt32 (self.numBlocks + 1) else self.numBlocks := by
    rw [hself2]
    simp only [hsplit, decide_eq_true_eq]
    rfl
  have hsmall : self.numBlocks < 2 ^ 32 → self2.numBlocks < 2 ^ 32 := fun h => by
    rw [hnb]
    split
    · exact toUInt32_lt _
    · exact h
  refine ⟨self2, s2, ?_, h1, h2, w.eq, hplace, fun hfree hexact => ?_, ?_, hsmall⟩
  · rw [mallocFrom, if_neg (H.listed.nonnull b hmem), Prog.run_bind_ok hrun1,
      Prog.run_bind_ok (by exact r2), Prog.run_pure, hdata, hself2]
    rfl
  · have h3 := @usedSize_take 24 16 _ xs ys _ hfree hexact
    refine ⟨?_, fun _ => hta ▸ toUInt32_lt _⟩
    rw [hta, h3]
    unfold toUInt32
    omega
  · have h3 := @length_take 24 16 k xs ys b
    rw [hnb]
    unfold toUInt32
    by_cases hroom : k + 40 ≤ b.size
    · rw [if_pos hroom] at h3 ⊢
      omega
    · rw [if_neg hroom] at h3 ⊢
      omega

/-! ### The constructor -/

/-- The block of a heap whose first pages could be had. -/
def initialBlock : Block := ⟨userHeapStartAddr, userHeapInitialSize - UserBlock.sizeofUserBlock, true⟩

/-- What the constructor leaves: no block, or one that fills the first pages. -/
structure Built (W : Nat) (dirs : List Nat) (heap : UserAllocator) (rest : List Page)
    (bs : List Block) (s s' : Machine) : Prop where
  inv : Inv W dirs heap rest bs s'
  blocks : bs = if 256 ≤ s.freeFrames.length then [initialBlock] else []
  cr3 : s'.cr3 = s.cr3
  totalAllocated : heap.totalAllocated = 0
  numBlocks : heap.numBlocks = 0
  other : ∀ d, d ≠ heap.pageDirectory → view rest s'.ram d = view rest s.ram d

theorem new_safe (H : Space W dirs rest s) (ha : s.cr3 = d) (hf : Foreign d rest) :
    Prog.Safe (Promise W) Trap.IsDirectMap (new d) s fun self s' =>
      self.pageDirectory = d ∧ ∃ bs, Built W dirs self rest bs s s' := by
  subst ha
  have hd := H.cr3_mem
  have hstart : userHeapStartAddr = 4096 * 32768 := by decide
  have hsize : userHeapInitialSize = 4096 * 256 := by decide
  have hmax : userHeapMaxAddr = 4096 * 262144 := by decide
  have hmod : userHeapStartAddr % 4096 = 0 := by decide
  have hbelow : userHeapStartAddr ≤ userHeapMaxAddr := by decide
  have hend : add64 userHeapStartAddr userHeapInitialSize = 4096 * 33024 := by decide
  have hnot : ∀ pg ∈ pagesOf s.cr3 32768 256, pg ∉ rest := by
    intro pg hpg hr
    obtain ⟨h1, h2, h3⟩ := mem_pagesOf.mp hpg
    have := hf pg hr h1
    rw [hstart, hmax] at this
    omega
  obtain ⟨self0, hself0⟩ : ∃ self0 : UserAllocator, self0 = ⟨userHeapStartAddr,
    userHeapStartAddr, userHeapMaxAddr, 0, s.cr3, 0, 0⟩ := ⟨_, rfl⟩
  have hsafe := @sysRequestMemory_safe _ _ rest s self0 32768 256 H (by rw [hself0]; exact hd)
      (by rw [hself0]; exact hnot) (by decide)
  rw [hself0, ← hstart, ← hsize] at hsafe
  rw [new]
  refine Prog.Safe.bind hsafe ?_
  rintro r s1 - ⟨hsp, hk, hr⟩
  simp only at hsp hr
  cases r with
  | false =>
    have hlt : ¬256 ≤ s.freeFrames.length := of_decide_eq_false hr.symm
    simp only [Bool.false_eq_true, if_false] at hsp ⊢
    rw [← hself0]
    have hdir : self0.pageDirectory = s.cr3 := by rw [hself0]
    have hpages : self0.pages = [] := by
      rw [hself0, pages]
      simp only [Nat.sub_self, Nat.zero_div]
      rfl
    refine Prog.Safe.pure ⟨hdir, [], ⟨?_, hdir ▸ hd, hdir ▸ hf,
      ⟨⟨trivial, List.Pairwise.nil⟩, by simp, by simp, by simp⟩, by rw [hself0]; rfl,
      by rw [hself0], by rw [hself0]; rfl, by rw [hself0]; exact hmod, by rw [hself0]; exact hbelow⟩,
      by rw [if_neg hlt], hk.cr3, by rw [hself0], by rw [hself0], fun d _ => hk.shows d⟩
    rw [hpages]
    exact hsp
  | true =>
    have hle : 256 ≤ s.freeFrames.length := of_decide_eq_true hr.symm
    simp only [if_true] at hsp ⊢
    have hcov : Covers (pagesOf s.cr3 32768 256 ++ rest) s1.cr3 initialBlock.addr
        (24 + initialBlock.size) := by
      rw [hk.cr3]
      exact covers_pagesOf (p := 32768) (n := 256) (List.subset_append_left _ _)
    obtain ⟨s2, m, hrun, w, hl⟩ := userBlock_lawful.newBlock_run (Wrote.refl hsp) rfl hcov
      (by decide) (by decide)
    refine Prog.Safe.bind_run hrun (Prog.Safe.pure ⟨rfl, [initialBlock], ?_⟩)
    generalize hself : UserAllocator.mk _ _ _ _ _ _ _ = self
    have hdir : self.pageDirectory = s.cr3 := by rw [← hself]
    have hpages : self.pages = pagesOf s.cr3 32768 256 := by
      rw [← hself, pages]
      simp only [hstart]
      rfl
    have hbytes : self.bytes rest s2 = m := by
      have := w.shows
      rw [hk.cr3] at this
      rw [bytes, hdir, hpages, this]
    have hother : ∀ d, d ≠ s.cr3 → view rest s2.ram d = view rest s.ram d := by
      intro d hne
      rw [← hk.shows d]
      have := w.other d (by rwa [hk.cr3])
      exact funext (view_subset (fun v => by rw [this])
        (List.subset_append_right (pagesOf s.cr3 32768 256) rest))
    refine ⟨⟨?_, hdir ▸ hd, hdir ▸ hf, ?_, ?_, ?_, ?_, ?_, ?_⟩, by rw [if_pos hle],
      w.cr3.trans hk.cr3, by rw [← hself], by rw [← hself], by rwa [hdir]⟩
    · rw [hpages]
      exact w.space
    · rw [hpages, hdir, hbytes]
      rwa [hk.cr3] at hl
    all_goals
      rw [← hself]
    · rfl
    · exact ⟨rfl, hend.symm⟩
    · simp only [hend]
    · simp only [hend]
      decide

/-- With room for the tables and frames for its first pages, the heap starts with a block. -/
theorem new_ok (H : Space W dirs [] s) (hC : s ∈ Promise W)
    (hroom : s.placement + 16384 * 256 ≤ kvirtualAddress + W) (hW : W ≤ directMapSize)
    (hfree : 256 ≤ s.freeFrames.length) :
    ∃ self s', (new s.cr3).run s = (.ok self, s') ∧ s' ∈ Promise W ∧
      self.pageDirectory = s.cr3 ∧ Built W dirs self [] [initialBlock] s s' ∧
      s'.placement ≤ s.placement + 16384 * 256 ∧ s'.freeFrames = s.freeFrames.drop 256 := by
  have hstart : userHeapStartAddr = 4096 * 32768 := by decide
  have hsize : userHeapInitialSize = 4096 * 256 := by decide
  obtain ⟨self0, hself0⟩ : ∃ self0 : UserAllocator, self0 = ⟨userHeapStartAddr,
    userHeapStartAddr, userHeapMaxAddr, 0, s.cr3, 0, 0⟩ := ⟨_, rfl⟩
  have hd : self0.pageDirectory ∈ dirs := by
    rw [hself0]
    exact H.cr3_mem
  have hnot : ∀ pg ∈ pagesOf self0.pageDirectory 32768 256, pg ∉ ([] : List Page) :=
    fun _ _ => List.not_mem_nil
  obtain ⟨s1, hrun1, hC1, hpl1, hfree1⟩ := sysRequestMemory_ok (p := 32768) (n := 256) H hd hnot
    (by decide) hC hroom hW
  obtain ⟨hsp, hk, -⟩ := (sysRequestMemory_safe (p := 32768) (n := 256) H hd hnot (by decide)).ok
    hrun1 hC1
  rw [decide_eq_true hfree] at hrun1 hsp
  simp only [if_true, List.append_nil] at hsp
  have hdir : self0.pageDirectory = s1.cr3 := by rw [hk.cr3, hself0]
  have hcov : Covers (pagesOf self0.pageDirectory 32768 256) s1.cr3 initialBlock.addr 24 := by
    rw [hdir]
    exact (covers_pagesOf (p := 32768) (n := 256) (List.Subset.refl _)).mono (Nat.le_refl _)
      (by decide)
  obtain ⟨s2, m, hrun2, w, -, -⟩ := userBlock_lawful.new_run true (Wrote.refl hsp) hcov
    (v := initialBlock.size) (by decide)
  have hrun : ∃ self, (new s.cr3).run s = (.ok self, s2) := by
    rw [hself0, ← hstart, ← hsize] at hrun1
    rw [new, Prog.run_bind_ok hrun1, if_pos rfl, Prog.run_bind_ok (by exact hrun2)]
    exact ⟨_, Prog.run_pure _ _⟩
  obtain ⟨self, hrun⟩ := hrun
  have hC2 : s2 ∈ Promise W := by rw [w.eq]; exact hC1
  obtain ⟨hpd, bs, hbuilt⟩ := (new_safe H rfl fun _ h => absurd h List.not_mem_nil).ok hrun hC2
  obtain rfl : bs = [initialBlock] := by rw [hbuilt.blocks, if_pos hfree]
  refine ⟨self, s2, hrun, hC2, hpd, hbuilt, ?_, ?_⟩
  · rw [w.eq]
    exact hpl1
  · rw [w.eq]
    exact hfree1

/-! ### expand_heap -/

/-- `expand_heap(minSize)` stays below the end of the user heap, and has frames for all its pages. -/
def CanGrow (self : UserAllocator) (s : Machine) (minSize : Nat) : Prop :=
  self.heapCurrent + alignUp minSize ≤ userHeapMaxAddr ∧
    alignUp minSize / frameSize ≤ s.freeFrames.length

/-- What `expand_heap` leaves: a list that has grown, or the same list and heap. -/
def Grown (s : Machine) (minSize : Nat) (bs bs' : List Block) (self self' : UserAllocator)
    (r : Bool) : Prop :=
  r = true ∧ CanGrow self s minSize ∧ self'.heapCurrent = self.heapCurrent + alignUp minSize ∧
    (∃ c : Block, c.free = true ∧ 24 + c.size = alignUp minSize ∧
      bs' = FreeList.coalesce 24 bs c []) ∨
  r = false ∧ ¬CanGrow self s minSize ∧ bs' = bs ∧ self' = self

/-- The pages of a heap that has grown. -/
theorem pages_grown {p n : Nat} (H : Inv W dirs self rest bs s) (hp : self.heapCurrent = 4096 * p)
    (hdir : self'.pageDirectory = self.pageDirectory) (hstart : self'.heapStart = self.heapStart)
    (hcur : self'.heapCurrent = 4096 * (p + n)) :
    self'.pages = pagesOf self.pageDirectory p n ++ self.pages := by
  have h1 := H.heapStart_le
  have h2 : self.heapStart % 4096 = 0 := by rw [H.start]; decide
  obtain ⟨q, hq⟩ : ∃ q, self.heapStart = 4096 * q := ⟨self.heapStart / 4096, by omega⟩
  have h3 : (4096 * (p + n) - 4096 * q) / 4096 = (p - q) + n := by omega
  have h4 : (4096 * p - 4096 * q) / 4096 = p - q := by omega
  have h5 : q + (p - q) = p := by omega
  rw [pages, pages, hdir, hstart, hcur, hp, hq, h3, h4, Nat.mul_div_cancel_left _ (by decide),
    pagesOf_add, h5]

/-- The end of `expand_heap`, on new pages behind the heap. -/
theorem Inv.grow_run {p n : Nat} (H : Inv W dirs self rest bs s) (ha : s.cr3 = self.pageDirectory)
    (hs : Space W dirs (pagesOf self.pageDirectory p n ++ (self.pages ++ rest)) s')
    (hk : Kept (self.pages ++ rest) s s') (hp : self.heapCurrent = 4096 * p) (hn : 0 < n)
    (htop : 4096 * (p + n) ≤ userHeapMaxAddr) {c : Block} (hc : c = ⟨4096 * p, 4096 * n - 24, true⟩)
    (hself : self' = { self with
      firstBlock := if self.firstBlock ≠ 0 then self.firstBlock else 4096 * p
      heapCurrent := 4096 * (p + n) }) :
    ∃ s1 s2 s3 r, (userBlock.new c.addr c.size true).run s' = (.ok (), s1) ∧
      (if self.firstBlock ≠ 0 then userBlock.appendBlock self.firstBlock c.addr else pure ()).run s1 =
        (.ok (), s2) ∧
      (userBlock.coalesceBlock c.addr).run s2 = (.ok r, s3) ∧
      Inv W dirs self' rest (FreeList.coalesce 24 bs c []) s3 ∧
      Moves self self' rest (used bs) s s3 ∧
      (FreeList.coalesce 24 bs c []).length + r = bs.length + 1 ∧
      s3 = { s' with ram := s3.ram } := by
  have hca : c.addr = 4096 * p := by rw [hc]
  have hcs : 24 + c.size = 4096 * n := by rw [hc]; simp only; omega
  have hcf : c.free = true := by rw [hc]
  have hst : 0 < self.heapStart := by rw [H.start]; decide
  have hle := H.heapStart_le
  have hdir : self'.pageDirectory = self.pageDirectory := by rw [hself]
  have hpages : self'.pages ++ rest = pagesOf self.pageDirectory p n ++ (self.pages ++ rest) := by
    rw [@pages_grown _ _ _ _ _ self' _ _ n H hp hdir (by rw [hself]) (by rw [hself]),
      List.append_assoc]
  have hcr : s'.cr3 = self.pageDirectory := hk.cr3.trans ha
  rw [← hpages] at hs
  have hsub : self.pages ++ rest ⊆ self'.pages ++ rest := by
    rw [hpages]
    exact List.subset_append_right _ _
  -- the old blocks, on the larger set of pages
  have hold : ∀ e ∈ bs, ∀ i < 24 + e.size,
      self'.bytes rest s' (e.addr + i) = self.bytes rest s (e.addr + i) := by
    intro e he i hi
    have hm := H.listed.covers e he i hi
    rw [bytes, bytes, hdir, ← hk.shows, view_of_mem (hsub hm), view_of_mem hm]
  have hl : Listed UserBlock.layout userHeapMaxAddr (self'.pages ++ rest) s'.cr3
      (view (self'.pages ++ rest) s'.ram s'.cr3) bs := by
    have hb : view (self'.pages ++ rest) s'.ram s'.cr3 = self'.bytes rest s' := by
      rw [bytes, hcr, hdir]
    rw [hb, hcr]
    exact ⟨H.listed.blocks.congr fun e he i hi => hold e he i (Nat.lt_add_right _ hi),
      fun e he => (H.listed.covers e he).subset hsub, H.listed.nonnull, H.listed.top⟩
  have hap : ∀ x ∈ bs, x.addr + 24 + x.size ≤ c.addr ∨ c.addr + 24 + c.size ≤ x.addr := by
    intro x hx
    have := (H.tiles.bounds hx).2
    omega
  have hcov : Covers (self'.pages ++ rest) s'.cr3 c.addr (24 + c.size) := by
    rw [hca, hcs, hcr]
    exact covers_pagesOf (by rw [hpages]; exact List.subset_append_left _ _)
  have hrun : ∃ r s1 s2 s3 m, (userBlock.new c.addr c.size true).run s' = (.ok (), s1) ∧
      (if self.firstBlock ≠ 0 then userBlock.appendBlock self.firstBlock c.addr else pure ()).run s1 =
        (.ok (), s2) ∧ (userBlock.coalesceBlock c.addr).run s2 = (.ok r, s3) ∧
      Wrote W dirs (self'.pages ++ rest) m s' s3 ∧
      Listed UserBlock.layout userHeapMaxAddr (self'.pages ++ rest) s'.cr3 m
        (FreeList.coalesce 24 bs c []) ∧
      UserBlock.layout.SameData (used bs) (view (self'.pages ++ rest) s'.ram s'.cr3) m ∧
      (FreeList.coalesce 24 bs c []).length + r = bs.length + 1 := by
    by_cases hbs : bs = []
    · -- the first block of the heap
      subst hbs
      obtain ⟨s1, m1, r1, w1, l1⟩ := userBlock_lawful.newBlock_run (Wrote.refl hs) hcf hcov
        (by omega) (by change c.addr + (24 + c.size) ≤ _; omega)
      obtain ⟨r, s3, m3, r3, w3, l3, -, hlen, -⟩ :=
        @BlockType.Lawful.coalesceBlock_run _ _ _ _ _ _ _ _ _ [] [] userBlock_lawful _ w1 l1 hcf
      exact ⟨r, s1, s1, s3, m3, r1, by rw [H.first]; rfl, r3, w3, l3, by simp [Layout.SameData],
        hlen⟩
    · have hne : self.firstBlock ≠ 0 := by
        obtain ⟨b, bs, rfl⟩ := List.exists_cons_of_ne_nil hbs
        rw [H.first]
        exact H.listed.nonnull b List.mem_cons_self
      obtain ⟨r, s1, s2, s3, m, r1, r2, r3, w, l, hd, hlen⟩ := userBlock_lawful.growBlock_run
        (Wrote.refl hs) hl hbs hcf hcov (by omega) (by change c.addr + (24 + c.size) ≤ _; omega) hap
      exact ⟨r, s1, s2, s3, m, r1, by rw [if_pos hne, H.first]; exact r2, r3, w, l, hd, hlen⟩
  obtain ⟨r, s1, s2, s3, m, r1, r2, r3, w, l, hd, hlen⟩ := hrun
  have hbytes : self'.bytes rest s3 = m := by rw [bytes, hdir, ← hcr, w.shows]
  have hother : ∀ d, d ≠ self.pageDirectory → view rest s3.ram d = view rest s.ram d := by
    intro d hne
    have h1 := w.other d (by rwa [hcr])
    have h2 := (hk.subset (List.subset_append_right self.pages rest)).shows d
    rw [← h2]
    exact funext (view_subset (fun v => by rw [h1]) (List.subset_append_right self'.pages rest))
  refine ⟨s1, s2, s3, r, r1, r2, r3, ⟨w.space, ?_, ?_, ?_, ?_, ?_, ?_, ?_, ?_⟩,
    ⟨w.cr3.trans hk.cr3, hdir, fun e he a ha => ?_, hother⟩, hlen, w.eq⟩
  · rw [hdir]; exact H.dir
  · rw [hdir]; exact H.foreign
  · rw [hbytes, hdir, ← hcr]
    exact l
  · rw [headAddr_coalesce, headAddr_append, hself]
    simp only [H.first]
    cases bs with
    | nil => simp [hca]
    | cons b bs =>
      have := H.listed.nonnull b List.mem_cons_self
      simp [this]
  · rw [hself]; exact H.start
  · have h1 : self'.heapStart = self.heapStart := by rw [hself]
    have h2 : self'.heapCurrent = 4096 * (p + n) := by rw [hself]
    rw [h1, h2]
    refine tiles_coalesce.mpr (Tiles.append_iff.mpr ⟨_, H.tiles, ?_⟩)
    exact ⟨by omega, by simp only [Tiles]; omega⟩
  · rw [hself]; simp only; omega
  · rw [hself]; exact htop
  · have h1 : e.addr + 24 ≤ a ∧ a < e.addr + 24 + e.size := ha
    have h3 := hold e (mem_used.mp he).1 (a - e.addr) (by omega)
    rw [Nat.add_sub_cancel' (by omega)] at h3
    have h4 := hd e he a ha
    rw [hbytes, h4, ← h3, bytes, hcr, hdir]

/-- The pages behind the heap are owned by nobody. -/
theorem Inv.new_pages {p n : Nat} (H : Inv W dirs self rest bs s) (hp : self.heapCurrent = 4096 * p)
    (htop : 4096 * (p + n) ≤ userHeapMaxAddr) :
    ∀ pg ∈ pagesOf self.pageDirectory p n, pg ∉ self.pages ++ rest := by
  have hle := H.heapStart_le
  have hst : self.heapStart = 4096 * (userHeapStartAddr / 4096) := by rw [H.start]; decide
  have hmax : userHeapMaxAddr = 4096 * (userHeapMaxAddr / 4096) := by decide
  rintro ⟨d, q⟩ hpg hmem
  obtain ⟨h1, h2, h3⟩ := mem_pagesOf.mp hpg
  simp only at h1 h2 h3
  rcases List.mem_append.mp hmem with hmem | hmem
  · have := H.mem_pages.mp hmem
    omega
  · have := H.foreign _ hmem h1
    simp only at this
    omega

/-- `expand_heap` adds pages to the list, or leaves the list alone. -/
theorem expandHeap_safe (H : Inv W dirs self rest bs s) (ha : s.cr3 = self.pageDirectory)
    {minSize : Nat} (h1 : 24 ≤ minSize) (h2 : minSize < 2 ^ 32) :
    Prog.Safe (Promise W) Trap.IsDirectMap (expandHeap self minSize) s fun r s' =>
      ∃ bs', Inv W dirs r.2 rest bs' s' ∧ Grown s minSize bs bs' self r.2 r.1 ∧
        Moves self r.2 rest (used bs) s s' ∧ Tallied self r.2 bs bs' := by
  have htop := H.top
  have hmax : userHeapMaxAddr = 2 ^ 30 := by decide
  obtain ⟨e, he⟩ : ∃ e, e = alignUp minSize := ⟨_, rfl⟩
  have hle : minSize ≤ e := he ▸ le_alignUp (by omega)
  have hlt : e < minSize + 4096 := he ▸ alignUp_lt_add (by omega)
  have hmod : e % 4096 = 0 := he ▸ alignUp_mod minSize
  have hgrow : CanGrow self s minSize ↔ self.heapCurrent + e ≤ userHeapMaxAddr ∧
      e / 4096 ≤ s.freeFrames.length := by
    rw [he]
    rfl
  rw [expandHeap]
  simp only [← he]
  rw [add64_eq (by omega)]
  by_cases hlim : userHeapMaxAddr < self.heapCurrent + e
  · rw [if_pos hlim]
    exact Prog.Safe.pure ⟨bs, H, .inr ⟨rfl, fun h => by have := (hgrow.mp h).1; omega, rfl, rfl⟩,
      .refl .., .refl ..⟩
  rw [if_neg hlim]
  obtain ⟨p, hp⟩ : ∃ p, self.heapCurrent = 4096 * p :=
    ⟨self.heapCurrent / 4096, by have := H.aligned; omega⟩
  obtain ⟨n, rfl⟩ : ∃ n, e = 4096 * n := ⟨e / 4096, by omega⟩
  have hsub : sub64 (4096 * n) UserBlock.sizeofUserBlock = 4096 * n - 24 :=
    sub64_eq (show 24 ≤ 4096 * n by omega) (by omega)
  rw [hp, hsub]
  refine Prog.Safe.bind (sysRequestMemory_safe H.space H.dir
    (H.new_pages hp (n := n) (by omega)) (by omega)) ?_
  rintro r s1 - ⟨hsp, hk, hr⟩
  cases r with
  | false =>
    have hno : ¬n ≤ s.freeFrames.length := of_decide_eq_false hr.symm
    simp only [Bool.false_eq_true, if_false, Bool.not_false, if_true] at hsp ⊢
    have hshow : self.bytes rest s1 = self.bytes rest s := hk.shows self.pageDirectory
    refine Prog.Safe.pure ⟨bs, ⟨hsp, H.dir, H.foreign, ?_, H.first, H.start, H.tiles, H.aligned,
      H.top⟩, .inr ⟨rfl, fun h => ?_, rfl, rfl⟩, ⟨hk.cr3, rfl, ?_, fun d _ => ?_⟩, .refl ..⟩
    · rw [hshow]; exact H.listed
    · have := (hgrow.mp h).2
      omega
    · rw [hshow]; exact Layout.SameData.refl
    · exact (hk.subset (List.subset_append_right self.pages rest)).shows d
  | true =>
    have hyes : n ≤ s.freeFrames.length := of_decide_eq_true hr.symm
    simp only [if_true, Bool.not_true, Bool.false_eq_true, if_false] at hsp ⊢
    obtain ⟨c, hc⟩ : ∃ c : Block, c = ⟨4096 * p, 4096 * n - 24, true⟩ := ⟨_, rfl⟩
    obtain ⟨self1, hself1⟩ : ∃ self1, self1 = { self with
        firstBlock := if self.firstBlock ≠ 0 then self.firstBlock else 4096 * p
        heapCurrent := 4096 * (p + n) } := ⟨_, rfl⟩
    obtain ⟨s2, s3, s4, r, r1, r2, r3, hinv, hmoves, -⟩ := H.grow_run ha hsp hk hp (by omega)
      (by omega) hc hself1
    obtain ⟨self2, hself2⟩ : ∃ self2, self2 = { self1 with
        numBlocks := toUInt32 (sub64 self1.numBlocks r) } := ⟨_, rfl⟩
    have hplace : SamePlace self1 self2 := by
      rw [hself2]
      exact ⟨rfl, rfl, rfl, rfl⟩
    have hrun : (coalesceBlock self1 c.addr).run s3 = (.ok self2, s4) := by
      rw [coalesceBlock, Prog.run_bind_ok r3, Prog.run_pure, hself2]
    have htotal : self2.totalAllocated = self.totalAllocated := by rw [hself2, hself1]
    have hcf : c.free = true := by rw [hc]
    have hcs : 24 + c.size = 4096 * n := by rw [hc]; simp only; omega
    have hend : Prog.Safe (Promise W) Trap.IsDirectMap
        (do return (true, ← coalesceBlock self1 c.addr)) s3 fun r s' =>
          ∃ bs', Inv W dirs r.2 rest bs' s' ∧ Grown s minSize bs bs' self r.2 r.1 ∧
            Moves self r.2 rest (used bs) s s' ∧ Tallied self r.2 bs bs' := by
      refine Prog.Safe.bind_run hrun (Prog.Safe.pure ⟨_, hinv.samePlace hplace,
        .inl ⟨rfl, hgrow.mpr ⟨by omega, by omega⟩, ?_, c, hcf, hcs.trans he, rfl⟩,
        hmoves.samePlace hplace, ?_, ?_⟩)
      · rw [hplace.heapCurrent, hself1, hp, ← he]
        exact Nat.mul_add ..
      · rw [htotal, usedSize_coalesce hcf]
        rfl
      · rw [htotal]
        exact id
    rw [← Nat.mul_add]
    have hca : c.addr = 4096 * p := by rw [hc]
    have hcsize : c.size = 4096 * n - 24 := by rw [hc]
    rw [hca, hcsize] at r1
    rw [hself1, hca] at hend
    rw [hca] at r2
    refine Prog.Safe.bind_run r1 ?_
    by_cases h0 : self.firstBlock = 0
    · rw [if_neg (not_not.mpr h0)] at r2 ⊢
      cases r2
      exact hend
    · rw [if_pos h0] at r2 ⊢
      exact Prog.Safe.bind_run r2 hend

/-- With room for the tables it ends, and the heap grows if it can. -/
theorem Inv.expandHeap_ok (H : Inv W dirs self rest bs s) (ha : s.cr3 = self.pageDirectory)
    {minSize : Nat} (h1 : 24 ≤ minSize) (h2 : minSize < 2 ^ 32) (hcan : CanGrow self s minSize)
    (hC : s ∈ Promise W)
    (hroom : s.placement + 4 * alignUp minSize ≤ kvirtualAddress + W) (hW : W ≤ directMapSize) :
    ∃ self' s', (expandHeap self minSize).run s = (.ok (true, self'), s') ∧ s' ∈ Promise W := by
  have htop := H.top
  have hmax : userHeapMaxAddr = 2 ^ 30 := by decide
  obtain ⟨hlim, hfree⟩ := hcan
  obtain ⟨e, he⟩ : ∃ e, e = alignUp minSize := ⟨_, rfl⟩
  have hle : minSize ≤ e := he ▸ le_alignUp (by omega)
  have hmod : e % 4096 = 0 := he ▸ alignUp_mod minSize
  rw [← he] at hlim hfree hroom
  obtain ⟨p, hp⟩ : ∃ p, self.heapCurrent = 4096 * p :=
    ⟨self.heapCurrent / 4096, by have := H.aligned; omega⟩
  obtain ⟨n, rfl⟩ : ∃ n, e = 4096 * n := ⟨e / 4096, by omega⟩
  rw [frameSize, Nat.mul_div_cancel_left n (by decide)] at hfree
  have hnot := H.new_pages hp (n := n) (by omega)
  obtain ⟨s1, hrun1, hC1, -⟩ := sysRequestMemory_ok (p := p) (n := n) H.space H.dir hnot
    (by omega) hC (by omega) hW
  obtain ⟨hsp, hk, -⟩ := (sysRequestMemory_safe H.space H.dir hnot (by omega)).ok hrun1 hC1
  rw [decide_eq_true hfree] at hrun1 hsp
  rw [if_pos rfl] at hsp
  obtain ⟨c, hc⟩ : ∃ c : Block, c = ⟨4096 * p, 4096 * n - 24, true⟩ := ⟨_, rfl⟩
  have hca : c.addr = 4096 * p := by rw [hc]
  have hcs : c.size = 4096 * n - 24 := by rw [hc]
  obtain ⟨s2, s3, s4, r, r1, r2, r3, -, -, -, heq⟩ := H.grow_run ha hsp hk hp (by omega)
    (by omega) hc rfl
  rw [hca, hcs] at r1
  rw [hca] at r2 r3
  have hsub : sub64 (4096 * n) UserBlock.sizeofUserBlock = 4096 * n - 24 :=
    sub64_eq (show 24 ≤ 4096 * n by omega) (by omega)
  have hend : ∀ self : UserAllocator, ∃ self' s',
      (do return (true, ← coalesceBlock self (4096 * p)) : Kernel _).run s3 =
        (.ok (true, self'), s') ∧ s' ∈ Promise W := fun self => by
    refine ⟨{ self with numBlocks := toUInt32 (sub64 self.numBlocks r) }, s4, ?_, ?_⟩
    · rw [coalesceBlock, bind_assoc, Prog.run_bind_ok r3]
      rfl
    · rw [heq]
      exact hC1
  rw [expandHeap]
  simp only [← he]
  rw [add64_eq (by omega), if_neg (by omega), hp, hsub, Prog.run_bind_ok hrun1,
    if_neg (by decide), Prog.run_bind_ok (by exact r1)]
  by_cases h0 : self.firstBlock = 0
  · rw [if_neg (not_not.mpr h0)] at r2 ⊢
    cases r2
    exact hend _
  · rw [if_pos h0] at r2 ⊢
    rw [Prog.run_bind_ok r2]
    exact hend _

/-! ### malloc and free -/

theorem roundSize_lt (size : Nat) : roundSize size < 2 ^ 32 := toUInt32_lt _

/-- Up to 2 GB, rounding is exact. -/
theorem roundSize_eq {size : Nat} (h : size ≤ maxAlloc) :
    roundSize size = alignUp size ∧ size ≤ roundSize size ∧ roundSize size ≤ maxAlloc := by
  have hmax : maxAlloc = 2 ^ 31 := by decide
  have h1 : alignUp size ≤ maxAlloc := alignUp_le (by decide) (by decide) h
  have h2 : roundSize size = alignUp size := toUInt32_eq (by omega)
  have h3 := le_alignUp (a := size) (by omega)
  exact ⟨h2, by omega, by omega⟩

/-- `malloc(size)` expands the heap. -/
def Grows (self : UserAllocator) (s : Machine) (bs : List Block) (size : Nat) : Prop :=
  size ≠ 0 ∧ size ≤ maxAlloc ∧ FreeList.firstFit (roundSize size) bs = none ∧
    CanGrow self s (roundSize size + UserBlock.sizeofUserBlock)

/-- The pages that `malloc(size)` expands the heap by, in bytes. -/
def growth (size : Nat) : Nat := alignUp (roundSize size + UserBlock.sizeofUserBlock)

/-- Where the heap ends after `malloc(size)` returned `r`: it has grown, or it has not and the list
served the request if it could. -/
def Extent (heap heap' : UserAllocator) (bs : List Block) (size r : Nat) (s : Machine) : Prop :=
  Grows heap s bs size ∧ heap'.heapCurrent = heap.heapCurrent + growth size ∨
  ¬Grows heap s bs size ∧ heap'.heapCurrent = heap.heapCurrent ∧
    (size ≠ 0 → size ≤ maxAlloc → FreeList.firstFit (roundSize size) bs = none → r = 0)

/-- What `malloc(size)` leaves. -/
structure Handed (heap : UserAllocator) (rest : List Page) (bs bs' : List Block) (size : Nat)
    (r : Nat × UserAllocator) (s s' : Machine) : Prop where
  served : Served 24 (roundSize size) bs bs' r.1
  moves : Moves heap r.2 rest (used bs) s s'
  tallied : (size ≠ 0 → size ≤ maxAlloc → FitsExactly 24 16 (roundSize size) bs) →
    Tallied heap r.2 bs bs'
  numbered : ¬Grows heap s bs size → Numbered heap r.2 bs bs'
  small : r.1 ≠ 0 → size ≤ maxAlloc
  extent : Extent heap r.2 bs size r.1 s

theorem Extent.samePlace {size r : Nat} (h : Extent self self' bs size r s)
    (hp : SamePlace self' self'') : Extent self self'' bs size r s := by
  rw [Extent, hp.heapCurrent]
  exact h

/-- Without a size that is looked for the heap ends where it did. -/
theorem Extent.heapCurrent {size r : Nat} (h : Extent self self' bs size r s)
    (hno : size ≠ 0 → ¬size ≤ maxAlloc) : self'.heapCurrent = self.heapCurrent := by
  rcases h with ⟨hg, -⟩ | ⟨-, h, -⟩
  · exact absurd hg.2.1 (hno hg.1)
  · exact h

/-- A size that is refused at once. -/
theorem Handed.refused {size : Nat} (self : UserAllocator) (rest : List Page) (bs : List Block)
    (s : Machine) (h : ¬(size ≠ 0 ∧ size ≤ maxAlloc)) :
    Handed self rest bs bs size (0, self) s s :=
  ⟨.refused, .refl .., fun _ => .refl .., fun _ => .refl .., fun h => absurd rfl h,
    .inr ⟨fun hg => h ⟨hg.1, hg.2.1⟩, rfl, fun _ _ _ => rfl⟩⟩

/-- First fit, then the end of `malloc`. -/
theorem Inv.mallocFound_run {b : Block} (H : Inv W dirs self rest bs s)
    (ha : s.cr3 = self.pageDirectory) (hr : FreeList.firstFit k bs = some (xs, b, ys)) :
    b.addr ≠ 0 ∧ ∃ self' s', (mallocFrom self b.addr k).run s = (.ok (b.addr + 24, self'), s') ∧
      Inv W dirs self' rest (xs ++ FreeList.take 24 16 k b ++ ys) s' ∧
      Moves self self' rest (used bs) s s' ∧ s' = { s with ram := s'.ram } ∧
      SamePlace self self' ∧
      (b.size = k ∨ k + 40 ≤ b.size →
        Tallied self self' bs (xs ++ FreeList.take 24 16 k b ++ ys)) ∧
      Numbered self self' bs (xs ++ FreeList.take 24 16 k b ++ ys) := by
  obtain ⟨rfl, hfree, hk, -⟩ := firstFit_eq_some hr
  refine ⟨H.listed.nonnull b (by simp), ?_⟩
  obtain ⟨self', s', hrun, hinv, hmoves, heq, hplace, htally, hnum⟩ := mallocFrom_run H ha hk
  have hused : used (xs ++ b :: ys) = used xs ++ used ys := by
    rw [used_append, used_cons_of_free hfree]
  refine ⟨self', s', hrun, hinv, hmoves.subset ?_, heq, hplace, htally hfree, hnum⟩
  rw [hused]
  exact List.append_subset.mpr ⟨fun e he => by simp [(mem_used.mp he).1],
    fun e he => by simp [(mem_used.mp he).1]⟩

theorem Inv.findFreeBlock_run (H : Inv W dirs self rest bs s) (ha : s.cr3 = self.pageDirectory)
    (k : Nat) : (findFreeBlock self k).run s =
      (.ok (((FreeList.firstFit k bs).map (·.2.1.addr)).getD 0), s) := by
  rw [findFreeBlock, H.first]
  exact userBlock_lawful.findFreeBlock_run (Wrote.refl H.space) (H.current ha)

/-- `malloc` hands out one more block, or nothing. -/
theorem malloc_safe (H : Inv W dirs self rest bs s) (ha : s.cr3 = self.pageDirectory)
    (size : Nat) :
    Prog.Safe (Promise W) Trap.IsDirectMap (malloc self size) s fun r s' =>
      ∃ bs', Inv W dirs r.2 rest bs' s' ∧ Handed self rest bs bs' size r s s' := by
  rw [malloc]
  by_cases h0 : size = 0
  · rw [if_pos h0]
    exact Prog.Safe.pure ⟨bs, H, .refused self rest bs s fun h => h.1 h0⟩
  rw [if_neg h0]
  by_cases hbig : maxAlloc < size
  · rw [if_pos hbig]
    exact Prog.Safe.pure ⟨bs, H, .refused self rest bs s fun h => by omega⟩
  rw [if_neg hbig]
  have hsize : size ≤ maxAlloc := by omega
  obtain ⟨hk, hle, hmaxk⟩ := roundSize_eq hsize
  have hmax : maxAlloc = 2 ^ 31 := by decide
  have hround : toUInt32 (alignUp size) = roundSize size := rfl
  simp only [hround]
  refine Prog.Safe.bind_run (H.findFreeBlock_run ha _) ?_
  rcases hf : FreeList.firstFit (roundSize size) bs with _ | ⟨xs, b, ys⟩
  · -- nothing fits: the heap is expanded
    simp only [Option.map_none, Option.getD_none, if_true]
    have hadd : toUInt32 (add64 (roundSize size) UserBlock.sizeofUserBlock) =
        roundSize size + UserBlock.sizeofUserBlock := by
      have h24 : UserBlock.sizeofUserBlock = 24 := rfl
      rw [add64_eq (by omega), toUInt32_eq (by omega)]
    rw [hadd]
    have h24 : UserBlock.sizeofUserBlock = 24 := rfl
    refine Prog.Safe.bind (expandHeap_safe H ha (by omega) (by omega)) ?_
    rintro ⟨grown, self1⟩ s1 - ⟨bs1, H1, hgrown, hmoves, htally⟩
    rcases hgrown with ⟨h, hcan, hcur, c, hc, hcs, rfl⟩ | ⟨h, hcan, rfl, h'⟩
    · simp only at h hcur H1 hmoves htally
      subst h
      simp only [Bool.not_true, Bool.false_eq_true, if_false]
      have hused : used (FreeList.coalesce 24 bs c []) = used bs := by
        rw [used_coalesce hc, used_nil, List.append_nil]
      have hup := le_alignUp (a := roundSize size + UserBlock.sizeofUserBlock) (by omega)
      have ha1 : s1.cr3 = self1.pageDirectory := by rw [hmoves.cr3, ha, hmoves.dir]
      have hgrows : Grows self s bs size := ⟨h0, hsize, hf, hcan⟩
      refine Prog.Safe.bind_run (H1.findFreeBlock_run ha1 _) ?_
      rcases hf1 : FreeList.firstFit (roundSize size) (FreeList.coalesce 24 bs c []) with
        _ | ⟨xs, b, ys⟩
      · exact absurd hf1 (firstFit_grown hc (by omega))
      · obtain ⟨hne, self2, s2, hrun, H2, hmoves2, -, hplace2, htally2, -⟩ :=
          H1.mallocFound_run ha1 hf1
        simp only [Option.map_some, Option.getD_some]
        rw [hused] at hmoves2
        refine Prog.Safe.of_run hrun fun _ => ⟨_, H2, .grown hf hc (by omega) hf1, hmoves.trans hmoves2,
          fun _ => htally.trans (htally2 (.inr ?_)), fun h => absurd hgrows h, fun _ => hsize,
          .inl ⟨hgrows, hplace2.heapCurrent.trans hcur⟩⟩
        -- the new pages are more than a header larger than the request
        have h2 := le_firstFit_grown hf hf1
        have h3 := alignUp_mod (roundSize size + UserBlock.sizeofUserBlock)
        have h4 := alignUp_mod size
        omega
    · obtain rfl : grown = false := h
      obtain rfl : self1 = self := h'
      exact Prog.Safe.pure ⟨bs1, H1, .refused, hmoves, fun _ => htally, fun _ => .refl ..,
        fun h => absurd rfl h, .inr ⟨fun hg => hcan hg.2.2.2, rfl, fun _ _ _ => rfl⟩⟩
  · obtain ⟨hne, self2, s2, hrun, H2, hmoves, -, hplace, htally, hnum⟩ := H.mallocFound_run ha hf
    have hnot : ¬Grows self s bs size := fun hg => by
      have h := hg.2.2.1
      rw [hf] at h
      cases h
    simp only [Option.map_some, Option.getD_some, hne, if_false]
    exact Prog.Safe.of_run hrun fun _ => ⟨_, H2, .found hf, hmoves, fun hexact =>
      htally (hexact h0 hsize _ hf), fun _ => hnum, fun _ => hsize,
      .inr ⟨hnot, hplace.heapCurrent, fun _ _ h => by rw [hf] at h; cases h⟩⟩

/-- `free` takes one block back. -/
theorem free_run {b : Block} (H : Inv W dirs self rest (xs ++ b :: ys) s)
    (ha : s.cr3 = self.pageDirectory) (hb : b.free = false) :
    ∃ self' s', (free self (b.addr + 24)).run s = (.ok self', s') ∧
      Inv W dirs self' rest (FreeList.coalesce 24 xs ⟨b.addr, b.size, true⟩ ys) s' ∧
      Moves self self' rest ((used (xs ++ b :: ys)).erase b) s s' ∧
      Tallied self self' (xs ++ b :: ys) (FreeList.coalesce 24 xs ⟨b.addr, b.size, true⟩ ys) ∧
      Numbered self self' (xs ++ b :: ys) (FreeList.coalesce 24 xs ⟨b.addr, b.size, true⟩ ys) ∧
      SamePlace self self' ∧ s' = { s with ram := s'.ram } := by
  obtain ⟨n, s1, m, hrun, w, l, hd, hn, -⟩ :=
    userBlock_lawful.freeBlock_run (Wrote.refl H.space) (H.current ha) hb
  obtain ⟨self', hself'⟩ : ∃ self', self' = { self with
      totalAllocated := toUInt32 (sub64 self.totalAllocated b.size)
      numBlocks := toUInt32 (sub64 self.numBlocks n) } := ⟨_, rfl⟩
  have hplace : SamePlace self self' := by
    rw [hself']
    exact ⟨rfl, rfl, rfl, rfl⟩
  rw [H.bytes_eq ha] at hd
  obtain ⟨h1, h2, -⟩ := H.wrote ha hplace w l
    (by rw [headAddr_coalesce, headAddr_append, headAddr_append]; rfl)
    (fun h => tiles_coalesce.mpr (Tiles.mark_iff.mp h)) hd
  refine ⟨self', s1, ?_, h1, h2.subset (used_erase_perm hb).subset, ⟨?_, fun _ => ?_⟩,
    ⟨?_, fun _ => ?_⟩, hplace, w.eq⟩
  · rw [free, Prog.run_bind_ok (by exact hrun)]
    simp only [Prog.run_pure, hself']
  · have h3 : self'.totalAllocated = toUInt32 (sub64 self.totalAllocated b.size) := by rw [hself']
    rw [h3, usedSize_coalesce rfl, usedSize_append, usedSize_cons, hb, if_neg (by decide)]
    unfold toUInt32 sub64
    omega
  · rw [hself']
    exact toUInt32_lt _
  · have h3 : self'.numBlocks = toUInt32 (sub64 self.numBlocks n) := by rw [hself']
    have h4 : (FreeList.coalesce 24 xs ⟨b.addr, b.size, true⟩ ys).length + n =
      xs.length + ys.length + 1 := hn
    rw [h3, List.length_append, List.length_cons]
    unfold toUInt32 sub64
    omega
  · rw [hself']
    exact toUInt32_lt _

/-! ### realloc and calloc -/

theorem Inv.nodup_used (H : Inv W dirs self rest bs s) : (used bs).Nodup :=
  (H.listed.nodup.of_map _).filter _

/-- Two blocks have disjoint extents. -/
theorem Inv.apart {b e : Block} (H : Inv W dirs self rest bs s) (hb : b ∈ bs) (he : e ∈ bs)
    (hne : b ≠ e) : b.addr + 24 + b.size ≤ e.addr ∨ e.addr + 24 + e.size ≤ b.addr :=
  H.listed.blocks.apart_of_ne hb he hne

/-- Writing the data of a block changes neither the list nor the data of another block. -/
theorem Inv.payload {b : Block} (H : Inv W dirs self rest bs s) (ha : s.cr3 = self.pageDirectory)
    (hb : b ∈ bs) (w : Wrote W dirs (self.pages ++ rest) m s s')
    (hm : ∀ a, a ∉ b.payload 24 → m a = self.bytes rest s a) (hes : es ⊆ bs) (hnot : b ∉ es) :
    Inv W dirs self rest bs s' ∧ Moves self self rest es s s' ∧ self.bytes rest s' = m := by
  have hl : Listed UserBlock.layout userHeapMaxAddr (self.pages ++ rest) s.cr3 m bs := by
    rw [ha]
    refine ⟨H.listed.blocks.congr fun e he i hi => hm _ ?_, H.listed.covers, H.listed.nonnull,
      H.listed.top⟩
    have hi : i < 24 := hi
    rw [Block.mem_payload]
    by_cases hne : b = e
    · rw [hne]; omega
    · have := H.apart hb he hne
      omega
  refine H.wrote ha (SamePlace.refl self) w hl rfl id fun e he a ha => ?_
  have ha : e.addr + 24 ≤ a ∧ a < e.addr + 24 + e.size := ha
  have := H.apart hb (hes he) fun hc => hnot (hc ▸ he)
  refine hm a ?_
  rw [Block.mem_payload]
  omega

/-- The data of a block lies on the pages of the heap. -/
theorem Inv.covers_payload {b : Block} (H : Inv W dirs self rest bs s)
    (ha : s.cr3 = self.pageDirectory) (hb : b ∈ bs) (hk : k ≤ b.size) :
    Covers (self.pages ++ rest) s.cr3 (b.addr + 24) k := by
  rw [ha]
  exact (H.listed.covers b hb).mono (by omega) (by change _ ≤ b.addr + (24 + b.size); omega)

/-- What `realloc` of the block `b` to `k` bytes leaves of the data. -/
structure Carried (heap heap' : UserAllocator) (rest : List Page) (bs bs' : List Block) (b : Block)
    (k newSize r : Nat) (s s' : Machine) : Prop where
  moves : Moves heap heap' rest ((used bs).erase b) s s'
  holds : r ≠ 0 → ∃ c ∈ used bs', r = c.addr + 24 ∧ k ≤ c.size
  copied : r ≠ 0 → ∀ i < min b.size k,
    heap'.bytes rest s' (r + i) = heap.bytes rest s (b.addr + 24 + i)
  refused : r = 0 → newSize ≠ 0 → bs' = bs ∧ Moves heap heap' rest (used bs) s s'

/-- A block in use is cut by `realloc`. -/
theorem reallocCut_run {b : Block} (H : Inv W dirs self rest (xs ++ b :: ys) s)
    (ha : s.cr3 = self.pageDirectory) (hfree : b.free = false) (hk : k + 40 < b.size) :
    ∃ self' s', (splitBlock self b.addr k).run s = (.ok self', s') ∧
      Inv W dirs self' rest (xs ++ FreeList.split 24 16 k b ++ ys) s' ∧
      Moves self self' rest (⟨b.addr, k, false⟩ :: (used (xs ++ b :: ys)).erase b) s s' ∧
      s' = { s with ram := s'.ram } ∧ SamePlace self self' ∧
      self'.totalAllocated = self.totalAllocated ∧
      Numbered self self' (xs ++ b :: ys) (xs ++ FreeList.split 24 16 k b ++ ys) := by
  obtain ⟨s1, m, hrun, w, l, hd⟩ :=
    userBlock_lawful.splitBlock_run (Wrote.refl H.space) (H.current ha) (k := k) (by omega)
  obtain ⟨self', hrun', hplace, halloc, hnum⟩ := @splitBlock_run _ _ self _ _ _ hrun
  rw [decide_eq_true (by rw [UserBlock.layout_hd]; omega), if_pos rfl] at hnum
  rw [H.bytes_eq ha] at hd
  obtain ⟨h1, h2, -⟩ := H.wrote ha hplace w l (headAddr_split 0) tiles_split.mpr hd
  refine ⟨self', s1, hrun', h1, h2.subset ?_, w.eq, hplace, halloc, ?_, fun _ => hnum ▸ toUInt32_lt _⟩
  · refine List.cons_subset_cons _ fun e he => ?_
    have he := (used_erase_perm hfree).subset he
    exact List.mem_append.mpr ((List.mem_append.mp he).imp (fun he => (mem_used.mp he).1)
      fun he => (mem_used.mp he).1)
  · have hlen : (xs ++ FreeList.split 24 16 k b ++ ys).length = (xs ++ b :: ys).length + 1 := by
      rw [FreeList.split, if_neg (by omega)]
      simp
      omega
    rw [hnum, hlen]
    unfold toUInt32
    omega

/-- `realloc` of a block in use, after its checks. -/
theorem realloc_run_used {b : Block} (H : Inv W dirs self rest bs s)
    (ha : s.cr3 = self.pageDirectory) (hb : b ∈ used bs) {newSize : Nat} (h0 : newSize ≠ 0) :
    (realloc self (b.addr + 24) newSize).run s =
      (if roundSize newSize ≤ b.size then
        if add64 (add64 (roundSize newSize) UserBlock.sizeofUserBlock) 16 < b.size then do
          let self ← splitBlock self b.addr (roundSize newSize)
          return (b.addr + 24, self)
        else return (b.addr + 24, self)
      else do
        let r ← malloc self newSize
        if r.1 = 0 then
          return (0, r.2)
        memcpy r.1 (b.addr + 24) b.size
        let self ← free r.2 (b.addr + 24)
        return (r.1, self)).run s := by
  obtain ⟨hmem, hfree⟩ := mem_used.mp hb
  have hw := Wrote.refl H.space
  obtain ⟨nx, pv, hnode⟩ := H.listed.blocks.chain.header hmem
  have hnode : UserBlock.layout.node (view (self.pages ++ rest) s.ram s.cr3) b.addr =
    some ⟨b.size, b.free, nx, pv⟩ := by rwa [H.bytes_eq ha]
  have hcov := (H.current ha).header hmem
  have hfrom : userBlock.fromData (b.addr + 24) = b.addr :=
    userBlock_lawful.fromData_eq H.listed hmem
  have hvalid : (UserBlock.isValid b.addr).run s = (.ok true, s) :=
    userBlock_lawful.isValid_run hw hcov hnode
  have hisFree : (UserBlock.isFree b.addr).run s = (.ok b.free, s) :=
    userBlock_lawful.isFree_run hw hcov hnode
  have hsize : (UserBlock.size b.addr).run s = (.ok b.size, s) :=
    userBlock_lawful.size_run hw hcov hnode
  rw [realloc, if_neg (by omega), if_neg h0]
  simp only [hfrom]
  exact (Prog.run_bind_to hvalid (if_neg (by decide))).trans
    ((Prog.run_bind_to hisFree (if_neg (by rw [hfree]; decide))).trans
      (Prog.run_bind_to hsize rfl))

/-- `realloc` to a size that the block holds, once it is rounded and cut to 32 bits, returns the same
pointer; the block is cut when that leaves one. -/
theorem reallocInPlace_run {b : Block} (H : Inv W dirs self rest (xs ++ b :: ys) s)
    (ha : s.cr3 = self.pageDirectory) (hfree : b.free = false) {newSize : Nat} (h0 : newSize ≠ 0)
    (hfit : roundSize newSize ≤ b.size) :
    ∃ bs' self' s', (realloc self (b.addr + 24) newSize).run s = (.ok (b.addr + 24, self'), s') ∧
      bs' = (if roundSize newSize + 40 < b.size then
        xs ++ FreeList.split 24 16 (roundSize newSize) b ++ ys else xs ++ b :: ys) ∧
      Inv W dirs self' rest bs' s' ∧
      Moves self self' rest
        (⟨b.addr, roundSize newSize, false⟩ :: (used (xs ++ b :: ys)).erase b) s s' ∧
      s' = { s with ram := s'.ram } ∧ SamePlace self self' ∧
      Numbered self self' (xs ++ b :: ys) bs' ∧
      (¬roundSize newSize + 40 < b.size → self' = self) ∧
      self'.totalAllocated = self.totalAllocated := by
  have hlt := roundSize_lt newSize
  have hmem : b ∈ xs ++ b :: ys := by simp
  have hadd : add64 (add64 (roundSize newSize) UserBlock.sizeofUserBlock) 16 =
      roundSize newSize + 40 := by
    have h24 : UserBlock.sizeofUserBlock = 24 := rfl
    have h1 : add64 (roundSize newSize) 24 = roundSize newSize + 24 := add64_eq (by omega)
    rw [h24, h1, add64_eq (by omega)]
  rw [realloc_run_used H ha (mem_used.mpr ⟨hmem, hfree⟩) h0, if_pos hfit, hadd]
  generalize roundSize newSize = k at hfit ⊢
  by_cases hcut : k + 40 < b.size
  · rw [if_pos hcut, if_pos hcut]
    obtain ⟨self1, s', hrun, hinv, hmoves, heq, hplace, halloc, hnum⟩ :=
      reallocCut_run H ha hfree hcut
    refine ⟨_, self1, s', ?_, rfl, hinv, hmoves, heq, hplace, hnum, fun h => absurd hcut h, halloc⟩
    rw [Prog.run_bind_ok hrun, Prog.run_pure]
  · rw [if_neg hcut, if_neg hcut]
    exact ⟨_, self, s, Prog.run_pure _ s, rfl, H, ⟨rfl, rfl, Layout.SameData.refl, fun _ _ => rfl⟩,
      rfl, .refl self, .refl .., fun _ => rfl, rfl⟩

/-- What `realloc(b, newSize)` leaves. -/
structure Changed (heap : UserAllocator) (rest : List Page) (bs bs' : List Block) (b : Block)
    (newSize : Nat) (r : Nat × UserAllocator) (s s' : Machine) : Prop where
  resized : Resized 24 (roundSize newSize) newSize bs b bs' r.1
  carried : Carried heap r.2 rest bs bs' b (roundSize newSize) newSize r.1 s s'
  tallied : (newSize ≠ 0 → newSize ≤ maxAlloc → b.size < roundSize newSize →
      FitsExactly 24 16 (roundSize newSize) bs) →
    (newSize ≠ 0 → b.size ≤ roundSize newSize + 40) → Tallied heap r.2 bs bs'
  numbered : (newSize ≠ 0 → b.size < roundSize newSize → ¬Grows heap s bs newSize) →
    Numbered heap r.2 bs bs'
  small : newSize ≠ 0 → b.size < roundSize newSize → r.1 ≠ 0 → newSize ≤ maxAlloc
  extent : newSize ≠ 0 → b.size < roundSize newSize → Extent heap r.2 bs newSize r.1 s
  inPlace : newSize = 0 ∨ roundSize newSize ≤ b.size → r.2.heapCurrent = heap.heapCurrent

/-- `realloc` to more bytes than the block holds: a new block, a copy, and the old block freed. -/
theorem reallocMove_safe {b : Block} (H : Inv W dirs self rest bs s)
    (ha : s.cr3 = self.pageDirectory) (hb : b ∈ used bs) {newSize : Nat} (h0 : newSize ≠ 0)
    (hlt : b.size < roundSize newSize) :
    Prog.Safe (Promise W) Trap.IsDirectMap (realloc self (b.addr + 24) newSize) s fun r s' =>
      ∃ bs', Inv W dirs r.2 rest bs' s' ∧ Changed self rest bs bs' b newSize r s s' := by
  obtain ⟨hmem, hfree⟩ := mem_used.mp hb
  refine Prog.Safe.of_run_eq (realloc_run_used H ha hb h0) ?_
  rw [if_neg (by omega)]
  refine Prog.Safe.bind (malloc_safe H ha newSize) ?_
  rintro ⟨ptr, self1⟩ s1 - ⟨bs1, H1, hserved, hmoves, htally, hnum, hsmall, hextent⟩
  have herase : (used bs).erase b ⊆ used bs := List.erase_subset
  simp only at H1 hmoves hserved htally hnum hsmall hextent ⊢
  by_cases hptr : ptr = 0
  · rw [if_pos hptr]
    rcases hserved.used_cases with ⟨-, rfl⟩ | ⟨_, c, _, -, -, hc, -⟩
    · exact Prog.Safe.pure ⟨bs1, H1, .refused h0,
        ⟨hmoves.subset herase, fun h => absurd rfl h, fun h => absurd rfl h,
          fun _ _ => ⟨rfl, hmoves⟩⟩,
        fun hexact _ => htally fun h0 hle => hexact h0 hle hlt, fun hgrow => hnum (hgrow h0 hlt),
        fun _ _ h => absurd rfl h, fun _ _ => hptr ▸ hextent, fun h => by omega⟩
    · omega
  rw [if_neg hptr]
  have ha1 : s1.cr3 = self1.pageDirectory := by rw [hmoves.cr3, ha, hmoves.dir]
  obtain ⟨c, rfl, hck, hperm1⟩ := hserved.exists_block hptr
  have hcnot : c ∉ used bs := (List.nodup_cons.mp (hperm1.nodup_iff.mp H1.nodup_used)).1
  have hc1 : c ∈ used bs1 := hperm1.symm.subset List.mem_cons_self
  have hb1 := hserved.used_subset hb
  have hbc : b ≠ c := fun h => hcnot (h ▸ hb)
  have hcm := (mem_used.mp hc1).1
  have hbm := (mem_used.mp hb1).1
  have hap := H1.apart hbm hcm hbc
  obtain ⟨s2, hrun2, w2⟩ := memcpy_run H1.space (H1.covers_payload ha1 hcm (k := b.size) (by omega))
    (H1.covers_payload ha1 hbm (Nat.le_refl _)) (by omega)
  rw [H1.bytes_eq ha1] at w2
  have hsub1 : (used bs).erase b ⊆ used bs1 := fun e he => hserved.used_subset (herase he)
  obtain ⟨H2, hm2, hbytes2⟩ := @Inv.payload _ _ _ _ _ _ _ _ ((used bs).erase b) _ H1 ha1 hcm w2
      (fun a ha => by
    rw [Block.mem_payload] at ha
    exact copy_of_not_mem (by omega)) (fun e he => (mem_used.mp (hsub1 he)).1)
      fun hc => hcnot (herase hc)
  refine Prog.Safe.bind_run hrun2 ?_
  obtain ⟨us, vs, rfl⟩ := List.append_of_mem hbm
  have ha2 : s2.cr3 = self1.pageDirectory := hm2.cr3.trans ha1
  obtain ⟨self3, s3, hrun3, H3, hmoves3, htally3, hnum3, hplace3, -⟩ := free_run H2 ha2 hfree
  have hc3 : c ∈ (used (us ++ b :: vs)).erase b :=
    (List.mem_erase_of_ne fun h => hbc h.symm).mpr hc1
  refine Prog.Safe.bind_run hrun3 (Prog.Safe.pure ⟨_, H3, .moved h0 hserved hptr rfl,
    ⟨?_, fun _ => ⟨c, (used_free hfree).symm.subset hc3, rfl, by omega⟩, fun _ i hi => ?_,
      fun h => absurd h hptr⟩,
    fun hexact _ => (htally fun h0 hle => hexact h0 hle hlt).trans htally3,
    fun hgrow => (hnum (hgrow h0 hlt)).trans hnum3, fun _ _ => hsmall,
    fun _ _ => hextent.samePlace hplace3, fun h => by omega⟩)
  · refine ((hmoves.subset herase).trans hm2).trans (hmoves3.subset fun e he => ?_)
    have hne : e ≠ b := fun h => by
      have := H.nodup_used.mem_erase_iff.mp he
      exact this.1 h
    exact (List.mem_erase_of_ne hne).mpr (hsub1 he)
  · -- the copy survives the `free`, and its source the `malloc`
    have hi : i < b.size := lt_of_lt_of_le hi (Nat.min_le_left ..)
    have h1 : self3.bytes rest s3 (c.addr + 24 + i) = self1.bytes rest s2 (c.addr + 24 + i) :=
      hmoves3.data c hc3 _ (Block.mem_payload.mpr
        ⟨Nat.le_add_right .., Nat.add_lt_add_left (by omega) _⟩)
    have h2 : self1.bytes rest s1 (b.addr + 24 + i) = self.bytes rest s (b.addr + 24 + i) :=
      hmoves.data b hb _ (Block.mem_payload.mpr
        ⟨Nat.le_add_right .., Nat.add_lt_add_left hi _⟩)
    rw [h1, hbytes2, copy_of_mem (by omega) (by omega), ← h2]
    congr 1
    omega

theorem realloc_safe {b : Block} (H : Inv W dirs self rest bs s)
    (ha : s.cr3 = self.pageDirectory) (hb : b ∈ used bs) (newSize : Nat) :
    Prog.Safe (Promise W) Trap.IsDirectMap (realloc self (b.addr + 24) newSize) s fun r s' =>
      ∃ bs', Inv W dirs r.2 rest bs' s' ∧ Changed self rest bs bs' b newSize r s s' := by
  obtain ⟨hmem, hfree⟩ := mem_used.mp hb
  obtain ⟨xs, ys, hbs⟩ := List.append_of_mem hmem
  by_cases h0 : newSize = 0
  · rw [realloc, if_neg (by omega), if_pos h0]
    subst hbs
    obtain ⟨self', s', hrun, hinv, hmoves, htally, hnum, hplace, -⟩ := free_run H ha hfree
    exact Prog.Safe.bind_run hrun (Prog.Safe.pure ⟨_, hinv, .freed h0 rfl,
      ⟨hmoves, fun h => absurd rfl h, fun h => absurd rfl h, fun _ h => absurd h0 h⟩,
      fun _ _ => htally, fun _ => hnum, fun h => absurd h0 h, fun h => absurd h0 h,
      fun _ => hplace.heapCurrent⟩)
  by_cases hfit : roundSize newSize ≤ b.size
  · -- the block is kept
    subst hbs
    obtain ⟨bs', self', s', hrun, hbs', hinv, hmoves, -, hplace, hnum, hsame, -⟩ :=
      reallocInPlace_run H ha hfree h0 hfit
    refine Prog.Safe.of_run hrun fun _ => ⟨bs', hinv, ?_,
      ⟨hmoves.subset (List.subset_cons_self _ _), fun _ => ?_, fun _ i hi => ?_,
        fun h => by simp only at h; omega⟩, fun _ hcut => ?_, fun _ => hnum,
      fun _ h => absurd h (by omega), fun _ h => absurd h (by omega),
      fun _ => hplace.heapCurrent⟩
    · by_cases hcut : roundSize newSize + 40 < b.size
      · rw [if_pos hcut] at hbs'
        exact hbs' ▸ .cut h0 hcut rfl
      · rw [if_neg hcut] at hbs'
        exact hbs' ▸ .kept h0
    · by_cases hcut : roundSize newSize + 40 < b.size
      · rw [if_pos hcut] at hbs'
        refine ⟨⟨b.addr, roundSize newSize, false⟩, ?_, rfl, Nat.le_refl _⟩
        rw [hbs', used_split hfree, if_neg (by omega)]
        simp
      · rw [if_neg hcut] at hbs'
        exact ⟨b, hbs' ▸ hb, rfl, hfit⟩
    · have hi : i < roundSize newSize := lt_of_lt_of_le hi (Nat.min_le_right ..)
      exact hmoves.data _ List.mem_cons_self _ (Block.mem_payload.mpr
        ⟨Nat.le_add_right .., Nat.add_lt_add_left hi _⟩)
    · have hno : ¬roundSize newSize + 40 < b.size := by have := hcut h0; omega
      rw [if_neg hno] at hbs'
      rw [hsame hno, hbs']
      exact .refl ..
  · exact reallocMove_safe H ha hb h0 (by omega)

/-- `calloc` is `malloc` of the product, cleared; a product above 2 GB is refused. -/
theorem calloc_safe (H : Inv W dirs self rest bs s) (ha : s.cr3 = self.pageDirectory)
    (num size : Nat) :
    Prog.Safe (Promise W) Trap.IsDirectMap (calloc self num size) s fun r s' =>
      ∃ bs', Inv W dirs r.2 rest bs' s' ∧ Handed self rest bs bs' (num * size) r s s' := by
  have hmax : maxAlloc = 2 ^ 31 := by decide
  rw [calloc]
  by_cases hbig : 0 < num ∧ maxAlloc / num < size
  · rw [if_pos hbig]
    refine Prog.Safe.pure ⟨bs, H, .refused self rest bs s fun h => ?_⟩
    have := (Nat.div_lt_iff_lt_mul hbig.1).mp hbig.2
    rw [Nat.mul_comm] at this
    omega
  rw [if_neg hbig]
  have hle : num * size ≤ maxAlloc := by
    rcases Nat.eq_zero_or_pos num with rfl | hnum
    · rw [Nat.zero_mul]
      exact Nat.zero_le _
    · have : size ≤ maxAlloc / num := by omega
      exact (Nat.mul_le_mul_left num this).trans (Nat.mul_div_le ..)
  rw [mul64_eq (by omega)]
  refine Prog.Safe.bind (malloc_safe H ha _) ?_
  rintro ⟨ptr, self1⟩ s1 - ⟨bs1, H1, hh⟩
  obtain ⟨hserved, hmoves, htally, hnum, hsmall, hextent⟩ := hh
  simp only at H1 hmoves hserved htally hnum hsmall hextent ⊢
  by_cases hptr : ptr = 0
  · rw [if_neg (not_not.mpr hptr)]
    exact Prog.Safe.pure ⟨bs1, H1, hserved, hmoves, htally, hnum, hsmall, hextent⟩
  rw [if_pos hptr]
  have ha1 : s1.cr3 = self1.pageDirectory := by rw [hmoves.cr3, ha, hmoves.dir]
  obtain ⟨-, hround, -⟩ := roundSize_eq hle
  obtain ⟨c, rfl, hck, hperm1⟩ := hserved.exists_block hptr
  have hcnot : c ∉ used bs := (List.nodup_cons.mp (hperm1.nodup_iff.mp H1.nodup_used)).1
  have hc1 : c ∈ used bs1 := hperm1.symm.subset List.mem_cons_self
  have hcm := (mem_used.mp hc1).1
  obtain ⟨s2, hrun2, w2⟩ := memset_run H1.space (H1.covers_payload ha1 hcm (k := num * size)
    (by omega)) 0
  rw [H1.bytes_eq ha1] at w2
  obtain ⟨H2, hm2, -⟩ := @Inv.payload _ _ _ _ _ _ _ _ (used bs) _ H1 ha1 hcm w2 (fun a ha => by
    rw [Block.mem_payload] at ha
    exact fill_of_not_mem (by omega)) (fun e he => (mem_used.mp (hserved.used_subset he)).1) hcnot
  exact Prog.Safe.bind_run hrun2 (Prog.Safe.pure
    ⟨bs1, H2, hserved, hmoves.trans hm2, htally, hnum, hsmall, hextent⟩)

end
end UserAllocator
end Coronel
