import Coronel.Verify.UserHeap

/-!
# Runs of a user heap

The states of a user heap under any sequence of `malloc`, `calloc`, `realloc` and `free` with 64-bit
sizes, with clients that write their allocations and a kernel that serves others in between. The
heap's directory is the current one whenever a method runs.
-/

namespace Coronel

open Theory Theory.Bytes

namespace UserAllocator

/-! ### Calls -/

/-- The call on the heap `self`: the pointer it returns, 0 for none, and the heap after it. -/
def call (self : UserAllocator) : Call → Kernel (Nat × UserAllocator)
  | .malloc size => malloc self size
  | .calloc num size => calloc self num size
  | .realloc ptr newSize => realloc self ptr newSize
  | .free ptr => do return (0, ← free self ptr)

/-- Pointers are null or live, and sizes are 64-bit values. -/
def Passed (live : List Nat) : Call → Prop
  | .malloc size => size < 2 ^ 64
  | .calloc num size => num < 2 ^ 64 ∧ size < 2 ^ 64
  | .realloc ptr newSize => (ptr = 0 ∨ ptr ∈ live) ∧ newSize < 2 ^ 64
  | .free ptr => ptr = 0 ∨ ptr ∈ live

/-- The header at `block`, through CR3. -/
def headerAt (s : Machine) (block : Nat) : Option Node := UserBlock.node (vmem s.ram s.cr3) block

/-- The payload behind a pointer, as long as the header in front of it says. -/
def payloadAt (s : Machine) (p : Nat) : Span := ⟨p, load (vmem s.ram s.cr3) 4 (p - 24)⟩

/-- What happens between two calls: clients write their payloads, and the kernel serves others. The
heap's pages stay its own, and its directory is current again. -/
structure Meanwhile (W : Nat) (dirs : List Nat) (heap : UserAllocator) (live : List Nat)
    (s s' : Machine) : Prop where
  space : Space W dirs heap.pages s'
  dir : heap.pageDirectory ∈ dirs
  cr3 : s'.cr3 = s.cr3
  writes : ∀ a, ⟨s.cr3, a / 4096⟩ ∈ heap.pages → (∀ p ∈ live, a ∉ payloadAt s p) →
    vmem s'.ram s'.cr3 a = vmem s.ram s.cr3 a

/-- The states a heap reaches from its construction as `heap₀` when every call meets `ok`, with its
live allocations. `W` separates placement memory from the frames of the physical manager. -/
inductive RunWhere (ok : UserAllocator → Machine → Call → Prop) (W : Nat) (heap₀ : UserAllocator) :
    List Nat → UserAllocator → Machine → List Nat → Prop
  | create {dirs s s'} : Space W dirs [] s → (new s.cr3).run s = (.ok heap₀, s') →
    s' ∈ Promise W → RunWhere ok W heap₀ dirs heap₀ s' []
  | call {dirs self s live call r self' s'} : RunWhere ok W heap₀ dirs self s live →
    Passed live call → ok self s call → (self.call call).run s = (.ok (r, self'), s') →
    s' ∈ Promise W → RunWhere ok W heap₀ dirs self' s' (Call.live live r call)
  | meanwhile {dirs dirs' self s live s'} : RunWhere ok W heap₀ dirs self s live →
    Meanwhile W dirs' self live s s' → RunWhere ok W heap₀ dirs' self s' live

/-- The states a heap reaches. -/
abbrev Run := RunWhere fun _ _ _ => True

/-- The blocks `bs` are the list of the heap, as its headers show it, and tile
`[heap_start_, heap_current_)`. The sizes are those stored in 32 bits, their sums are not cut. -/
structure Tiled (heap : UserAllocator) (bs : List Block) (s : Machine) : Prop where
  first : heap.firstBlock = headAddr bs 0
  chain : Chain (headerAt s) 0 bs 0
  tiles : Tiles UserBlock.sizeofUserBlock heap.heapStart bs heap.heapCurrent

/-! ### Steps -/

/-- The call looks for a block of `n` bytes. -/
def Asks (bs : List Block) (call : Call) (n : Nat) : Prop :=
  n ≠ 0 ∧ n ≤ maxAlloc ∧ match call with
    | .malloc size => n = size
    | .calloc num size => n = num * size
    | .realloc ptr newSize => n = newSize ∧
      ∀ b ∈ used bs, ptr = b.addr + 24 → b.size < roundSize newSize
    | .free _ => False

/-- The call is a `realloc` that cuts its block. -/
def Cuts (bs : List Block) : Call → Prop
  | .realloc ptr newSize => newSize ≠ 0 ∧
    ∃ b ∈ used bs, ptr = b.addr + 24 ∧ roundSize newSize + 40 < b.size
  | _ => False

/-- The blocks in use that are not passed. -/
def others (bs : List Block) (call : Call) : List Block :=
  (used bs).filter fun e => e.addr + 24 ≠ call.ptr

/-- What a call leaves: the list it serves, the data of the other blocks in use, and the counters. -/
structure After (W : Nat) (dirs : List Nat) (heap : UserAllocator) (rest : List Page)
    (bs bs' : List Block) (call : Call) (s : Machine) (r : Nat × UserAllocator) (s' : Machine) :
    Prop where
  inv : Inv W dirs r.2 rest bs' s'
  serves : Serves 24 roundSize bs call bs' r.1
  moves : Moves heap r.2 rest (others bs call) s s'
  tallied : (∀ n, Asks bs call n → FitsExactly 24 16 (roundSize n) bs) → ¬Cuts bs call →
    Tallied heap r.2 bs bs'
  numbered : (∀ n, Asks bs call n → ¬Grows heap s bs n) → Numbered heap r.2 bs bs'
  extent : ∀ n, Asks bs call n → Extent heap r.2 bs n r.1 s
  inPlace : (∀ n, ¬Asks bs call n) → r.2.heapCurrent = heap.heapCurrent

section
variable {W : Nat} {dirs dirs' : List Nat} {rest : List Page} {s s' : Machine}
  {heap₀ self self' : UserAllocator} {bs bs' xs ys : List Block} {live : List Nat}
  {a p r size num newSize : Nat} {b e : Block} {call : Call}

theorem mem_others : e ∈ others bs call ↔ e ∈ used bs ∧ e.addr + 24 ≠ call.ptr := by
  simp [others]

theorem others_subset : others bs call ⊆ used bs := fun _ he => (mem_others.mp he).1

/-- An address is the header of one block. -/
theorem Inv.eq_of_addr (H : Inv W dirs self rest bs s) (hb : b ∈ bs) (he : e ∈ bs)
    (h : b.addr = e.addr) : b = e := by
  by_contra hne
  have := H.apart hb he hne
  omega

theorem others_realloc_subset :
    others bs (.realloc (b.addr + 24) newSize) ⊆ (used bs).erase b := by
  intro e he
  obtain ⟨h1, h2⟩ := mem_others.mp he
  exact (List.mem_erase_of_ne fun h => h2 (by rw [h]; rfl)).mpr h1

/-- Every call keeps the invariant. -/
theorem Inv.call_safe (H : Inv W dirs self rest bs s) (ha : s.cr3 = self.pageDirectory)
    (hl : live.Perm (pointers 24 bs)) (hcall : Passed live call) :
    Prog.Safe (Promise W) Trap.IsDirectMap (self.call call) s fun r s' =>
      ∃ bs', After W dirs self rest bs bs' call s r s' := by
  cases call with
  | malloc size =>
    refine (malloc_safe H ha size).mono ?_
    rintro ⟨ptr, self'⟩ s' - ⟨bs', H', hs, hm, ht, hn, -, hx⟩
    refine ⟨bs', H', .malloc hs, hm.subset others_subset,
      fun h _ => ht fun h0 hle => h _ ⟨h0, hle, rfl⟩, fun h => hn fun hg => ?_, ?_, fun h => ?_⟩
    · exact h size ⟨hg.1, hg.2.1, rfl⟩ hg
    · rintro n ⟨-, -, rfl⟩
      exact hx
    · exact hx.heapCurrent fun h0 hle => h size ⟨h0, hle, rfl⟩
  | calloc num size =>
    refine (calloc_safe H ha num size).mono ?_
    rintro ⟨ptr, self'⟩ s' - ⟨bs', H', hs, hm, ht, hn, -, hx⟩
    refine ⟨bs', H', .calloc hs, hm.subset others_subset,
      fun h _ => ht fun h0 hle => h _ ⟨h0, hle, rfl⟩, fun h => hn fun hg => ?_, ?_, fun h => ?_⟩
    · exact h (num * size) ⟨hg.1, hg.2.1, rfl⟩ hg
    · rintro n ⟨-, -, rfl⟩
      exact hx
    · exact hx.heapCurrent fun h0 hle => h (num * size) ⟨h0, hle, rfl⟩
  | realloc ptr newSize =>
    by_cases h0 : ptr = 0
    · -- `realloc` of nothing is `malloc`
      subst h0
      have hrun : realloc self 0 newSize = malloc self newSize := by rw [realloc, if_pos rfl]
      rw [call, hrun]
      refine (malloc_safe H ha newSize).mono ?_
      rintro ⟨ptr, self'⟩ s' - ⟨bs', H', hs, hm, ht, hn, -, hx⟩
      refine ⟨bs', H', .reallocNull hs, hm.subset others_subset,
        fun h _ => ht fun h0 hle => h _ ⟨h0, hle, rfl, fun b _ hb => by omega⟩,
        fun h => hn fun hg => ?_, ?_, fun h => ?_⟩
      · exact h newSize ⟨hg.1, hg.2.1, rfl, fun b _ hb => by omega⟩ hg
      · rintro n ⟨-, -, rfl, -⟩
        exact hx
      · exact hx.heapCurrent fun h0 hle => h newSize ⟨h0, hle, rfl, fun b _ hb => by omega⟩
    · obtain ⟨b, hb, rfl⟩ := used_of_pointer (hl.subset (hcall.1.resolve_left h0))
      refine (realloc_safe H ha hb newSize).mono ?_
      rintro ⟨ptr, self'⟩ s' - ⟨bs', H', hs, hcar, ht, hn, -, hx, hin⟩
      have hlt : b.size < roundSize newSize → ∀ c ∈ used bs, b.addr + 24 = c.addr + 24 →
          c.size < roundSize newSize := fun hlt c hc heq => by
        rwa [← H.eq_of_addr (mem_used.mp hb).1 (mem_used.mp hc).1 (by omega)]
      refine ⟨bs', H', .realloc hb hs, hcar.moves.subset others_realloc_subset, fun h hcut => ht
        (fun h0 hle hk => h _ ⟨h0, hle, rfl, hlt hk⟩) fun h0 => ?_, fun h => hn fun h0 hk hg => ?_,
        ?_, fun h => ?_⟩
      · by_contra hk
        exact hcut ⟨h0, b, hb, rfl, by omega⟩
      · exact h newSize ⟨h0, hg.2.1, rfl, hlt hk⟩ hg
      · rintro n ⟨hn0, -, rfl, hk⟩
        exact hx hn0 (hk b hb rfl)
      · by_cases hin' : newSize = 0 ∨ roundSize newSize ≤ b.size
        · exact hin hin'
        · exact (hx (by omega) (by omega)).heapCurrent fun h0 hle =>
            h newSize ⟨h0, hle, rfl, hlt (by omega)⟩
  | free ptr =>
    by_cases h0 : ptr = 0
    · subst h0
      have hrun : (free self 0).run s = (.ok self, s) := by
        rw [free, BlockType.freeBlock, if_pos rfl]
        rfl
      exact Prog.Safe.bind_run hrun (Prog.Safe.pure ⟨bs, H, .freeNull, .refl .., fun _ _ => .refl ..,
        fun _ => .refl .., fun _ h => h.2.2.elim, fun _ => rfl⟩)
    · obtain ⟨b, hb, rfl⟩ := used_of_pointer (hl.subset (hcall.resolve_left h0))
      obtain ⟨hmem, hfree⟩ := mem_used.mp hb
      obtain ⟨xs, ys, rfl⟩ := List.append_of_mem hmem
      obtain ⟨self', s', hrun, H', hm, ht, hn, hp, -⟩ := free_run H ha hfree
      refine Prog.Safe.bind_run hrun (Prog.Safe.pure ⟨_, H', .free rfl hfree,
        hm.subset fun e he => ?_, fun _ _ => ht, fun _ => hn, fun _ h => h.2.2.elim,
        fun _ => hp.heapCurrent⟩)
      obtain ⟨h1, h2⟩ := mem_others.mp he
      exact (List.mem_erase_of_ne fun h => h2 (by rw [h]; rfl)).mpr h1

/-! ### Through CR3 -/

theorem vmem_owned {owned : List Page} {d : Nat} (H : Space W dirs owned s)
    (h : ⟨d, a / 4096⟩ ∈ owned) : vmem s.ram d a = view owned s.ram d a := by
  rw [vmem, H.translate_owned h, view_of_mem h]

/-- The bytes of a block, through the heap's directory. -/
theorem Inv.vmem_eq (H : Inv W dirs self rest bs s) (he : e ∈ bs) (h1 : e.addr ≤ a)
    (h2 : a < e.addr + (24 + e.size)) : vmem s.ram self.pageDirectory a = self.bytes rest s a := by
  have := H.listed.covers e he (a - e.addr) (by change _ < 24 + e.size; omega)
  rw [Nat.add_sub_cancel' h1] at this
  exact vmem_owned H.space this

theorem Inv.headerAt_eq (H : Inv W dirs self rest (xs ++ b :: ys) s)
    (ha : s.cr3 = self.pageDirectory) :
    headerAt s b.addr = some ⟨b.size, b.free, headAddr ys 0, lastAddr 0 xs⟩ := by
  rw [headerAt, ha, UserBlock.node_congr fun i hi =>
    H.vmem_eq (e := b) (by simp) (by omega) (by omega)]
  exact H.listed.blocks.node_eq

/-- The header of a block on the list. -/
theorem Inv.headerAt_of_mem (H : Inv W dirs self rest bs s) (ha : s.cr3 = self.pageDirectory)
    (hb : b ∈ bs) : ∃ n, headerAt s b.addr = some n ∧ n.size = b.size ∧ n.free = b.free := by
  obtain ⟨xs, ys, rfl⟩ := List.append_of_mem hb
  exact ⟨_, H.headerAt_eq ha, rfl, rfl⟩

theorem Inv.payloadAt_eq (H : Inv W dirs self rest bs s) (ha : s.cr3 = self.pageDirectory)
    (he : e ∈ bs) : payloadAt s (e.addr + 24) = e.payload 24 := by
  obtain ⟨n, hn, hsize, -⟩ := H.headerAt_of_mem ha he
  have := (UserBlock.node_eq_some.mp hn).size
  rw [payloadAt, Nat.add_sub_cancel, this, hsize, Block.payload]

theorem Inv.tiled (H : Inv W dirs self rest bs s) (ha : s.cr3 = self.pageDirectory) :
    Tiled self bs s :=
  ⟨H.first, H.listed.blocks.chain.congr fun e he => by
    rw [headerAt, ha]
    exact UserBlock.node_congr fun i hi => H.vmem_eq he (by omega) (by omega), H.tiles⟩

/-- A state shows one list. -/
theorem Tiled.eq (h : Tiled self bs s) (h' : Tiled self bs' s) : bs = bs' :=
  h.tiles.unique (by decide) h'.tiles h.chain h'.chain

/-- The payloads of blocks that stay, through CR3. -/
theorem Moves.vmem_eq {es : List Block} (hm : Moves self self' rest es s s')
    (H : Inv W dirs self rest bs s) (H' : Inv W dirs' self' rest bs' s')
    (ha : s.cr3 = self.pageDirectory) (he : e ∈ es) (hb : e ∈ bs) (hb' : e ∈ bs')
    (hp : a ∈ payloadAt s (e.addr + 24)) : vmem s'.ram s'.cr3 a = vmem s.ram s.cr3 a := by
  rw [H.payloadAt_eq ha hb] at hp
  obtain ⟨h1, h2⟩ := Block.mem_payload.mp hp
  have ha' : s'.cr3 = self'.pageDirectory := by rw [hm.cr3, ha, hm.dir]
  rw [ha, ha', H.vmem_eq hb (by omega) (by omega), H'.vmem_eq hb' (by omega) (by omega)]
  exact hm.data e he a hp

/-! ### The invariant of a run -/

/-- What happens between calls keeps the invariant. -/
theorem Meanwhile.inv (h : Meanwhile W dirs' self live s s') (H : Inv W dirs self [] bs s)
    (ha : s.cr3 = self.pageDirectory) (hl : live.Perm (pointers 24 bs)) :
    Inv W dirs' self [] bs s' := by
  have hs : Space W dirs' (self.pages ++ []) s' := by
    rw [List.append_nil]
    exact h.space
  have hhead : ∀ e ∈ bs, ∀ i < 24,
      self.bytes [] s' (e.addr + i) = self.bytes [] s (e.addr + i) := by
    intro e he i hi
    have hm := H.listed.covers e he i (by change _ < 24 + e.size; omega)
    have h1 : vmem s'.ram s'.cr3 (e.addr + i) = self.bytes [] s' (e.addr + i) := by
      rw [h.cr3, ha]
      exact vmem_owned hs hm
    rw [← h1, ← H.vmem_eq he (by omega) (by omega), ← ha]
    rw [List.append_nil] at hm
    refine h.writes _ (ha ▸ hm) fun p hp => ?_
    -- a header lies in no payload
    obtain ⟨f, hf, rfl⟩ := used_of_pointer (hl.subset hp)
    rw [H.payloadAt_eq ha (mem_used.mp hf).1, Block.mem_payload]
    by_cases hfe : f = e
    · rw [hfe]; omega
    · have := H.apart (mem_used.mp hf).1 he hfe
      omega
  exact ⟨hs, h.dir, fun _ h => absurd h List.not_mem_nil,
    ⟨H.listed.blocks.congr hhead, H.listed.covers, H.listed.nonnull, H.listed.top⟩, H.first,
    H.start, H.tiles, H.aligned, H.top⟩

/-- The invariant of a heap whose directory is current. -/
structure Held (W : Nat) (dirs : List Nat) (heap : UserAllocator) (bs : List Block) (s : Machine)
    (live : List Nat) : Prop where
  inv : Inv W dirs heap [] bs s
  current : s.cr3 = heap.pageDirectory
  live : live.Perm (pointers 24 bs)

theorem Held.step {r : Nat × UserAllocator} (h : Held W dirs self bs s live)
    (hafter : After W dirs self [] bs bs' call s r s') :
    Held W dirs r.2 bs' s' (Call.live live r.1 call) :=
  ⟨hafter.inv, by rw [hafter.moves.cr3, h.current, hafter.moves.dir],
    hafter.serves.live_perm (by decide) h.live⟩

theorem Held.meanwhile (h : Held W dirs self bs s live) (hm : Meanwhile W dirs' self live s s') :
    Held W dirs' self bs s' live :=
  ⟨hm.inv h.inv h.current h.live, by rw [hm.cr3, h.current], h.live⟩

theorem Held.call_safe (h : Held W dirs self bs s live) (hcall : Passed live call) :
    Prog.Safe (Promise W) Trap.IsDirectMap (self.call call) s fun r s' =>
      ∃ bs', After W dirs self [] bs bs' call s r s' :=
  h.inv.call_safe h.current h.live hcall

/-- A new heap. -/
theorem Held.new (H : Space W dirs [] s) (hrun : (new s.cr3).run s = (.ok self, s'))
    (hC : s' ∈ Promise W) : ∃ bs, Held W dirs self bs s' [] ∧ Built W dirs self [] bs s s' := by
  obtain ⟨hdir, bs, h⟩ := (new_safe H rfl fun _ h => absurd h List.not_mem_nil).ok hrun hC
  refine ⟨bs, ⟨h.inv, by rw [h.cr3, hdir], ?_⟩, h⟩
  rw [h.blocks]
  split <;> exact .nil

/-- A property of the heap and its list that holds at the construction, and that the calls which meet
`ok` keep, holds in every state of a run. -/
theorem RunWhere.inv_of {ok : UserAllocator → Machine → Call → Prop}
    {P : UserAllocator → List Block → Prop}
    (hnew : ∀ {dirs s s' bs}, Built W dirs heap₀ [] bs s s' → P heap₀ bs)
    (hcall : ∀ {dirs self bs bs' s live call r s'}, Held W dirs self bs s live → Passed live call →
      ok self s call → P self bs → After W dirs self [] bs bs' call s r s' → P r.2 bs')
    (h : RunWhere ok W heap₀ dirs self s live) : ∃ bs, Held W dirs self bs s live ∧ P self bs := by
  induction h with
  | create H hrun hC =>
    obtain ⟨bs, h, hb⟩ := Held.new H hrun hC
    exact ⟨bs, h, hnew hb⟩
  | call _ hpassed hok hrun hC ih =>
    obtain ⟨bs, h, hP⟩ := ih
    obtain ⟨bs', hafter⟩ := (h.call_safe hpassed).ok hrun hC
    exact ⟨bs', h.step hafter, hcall h hpassed hok hP hafter⟩
  | meanwhile _ hm ih =>
    obtain ⟨bs, h, hP⟩ := ih
    exact ⟨bs, h.meanwhile hm, hP⟩

theorem RunWhere.held {ok : UserAllocator → Machine → Call → Prop}
    (h : RunWhere ok W heap₀ dirs self s live) : ∃ bs, Held W dirs self bs s live := by
  obtain ⟨bs, h, -⟩ := h.inv_of (P := fun _ _ => True) (fun _ => trivial)
    fun _ _ _ _ _ => trivial
  exact ⟨bs, h⟩

/-- **Exact tiling.** In every state a user heap reaches it has no pages and no blocks, or its list
tiles `[heap_start_, heap_current_)` block by block, at most up to `USER_HEAP_MAX_ADDR`. -/
theorem Run.exact_tiling (h : Run W heap₀ dirs self s live) :
    self.heapCurrent ≤ userHeapMaxAddr ∧
    (self.firstBlock = 0 ∧ self.heapCurrent = self.heapStart ∨ ∃ b bs, Tiled self (b :: bs) s) := by
  obtain ⟨bs, h⟩ := h.held
  refine ⟨h.inv.top, ?_⟩
  rcases bs with _ | ⟨b, bs⟩
  · exact .inl ⟨h.inv.first, h.inv.tiles.symm⟩
  · exact .inr ⟨b, bs, h.inv.tiled h.current⟩

/-! ### A heap of one block -/

/-- First fit serves `malloc` without growing the heap. -/
theorem Held.malloc_run (h : Held W dirs self bs s live) (h0 : size ≠ 0) (hsize : size ≤ maxAlloc)
    (hfit : FreeList.firstFit (roundSize size) bs = some (xs, b, ys)) : ∃ self' s',
      (self.call (.malloc size)).run s = (.ok (b.addr + 24, self'), s') ∧
      s' = { s with ram := s'.ram } ∧
      Held W dirs self' (xs ++ FreeList.take 24 16 (roundSize size) b ++ ys) s'
        (Call.live live (b.addr + 24) (.malloc size)) ∧
      (b.size = roundSize size ∨ roundSize size + 40 ≤ b.size →
        Tallied self self' bs (xs ++ FreeList.take 24 16 (roundSize size) b ++ ys)) ∧
      Numbered self self' bs (xs ++ FreeList.take 24 16 (roundSize size) b ++ ys) := by
  obtain ⟨hne, self', s', hrun, H', hm, heq, -, ht, hn⟩ := h.inv.mallocFound_run h.current hfit
  have hserves : Serves 24 roundSize bs (.malloc size) _ (b.addr + 24) := .malloc (.found hfit)
  refine ⟨self', s', ?_, heq, ⟨H', by rw [hm.cr3, h.current, hm.dir],
    hserves.live_perm (by decide) h.live⟩, ht, hn⟩
  have hround : toUInt32 (alignUp size) = roundSize size := rfl
  rw [call, malloc, if_neg h0, if_neg (by omega)]
  simp only [hround]
  rw [Prog.run_bind_ok (h.inv.findFreeBlock_run h.current _), hfit]
  simp only [Option.map_some, Option.getD_some, if_neg hne]
  exact hrun

/-- `free` of a block in use. -/
theorem Held.free_run (h : Held W dirs self (xs ++ b :: ys) s live) (hb : b.free = false) :
    ∃ self' s', (self.call (.free (b.addr + 24))).run s = (.ok (0, self'), s') ∧
      s' = { s with ram := s'.ram } ∧
      Held W dirs self' (FreeList.coalesce 24 xs ⟨b.addr, b.size, true⟩ ys) s'
        (live.erase (b.addr + 24)) := by
  obtain ⟨self', s', hrun, H', hm, -, -, -, heq⟩ := UserAllocator.free_run h.inv h.current hb
  have hserves : Serves 24 roundSize (xs ++ b :: ys) (.free (b.addr + 24)) _ 0 := .free rfl hb
  refine ⟨self', s', ?_, heq, H', by rw [hm.cr3, h.current, hm.dir],
    hserves.live_perm (by decide) h.live⟩
  rw [call, Prog.run_bind_ok hrun]
  rfl

/-- A new heap with its first pages, and no frames left. -/
theorem exists_run : ∃ self s, (∀ ok, RunWhere ok (mb 16) self [mb 2] self s []) ∧
    Held (mb 16) [mb 2] self [initialBlock] s [] ∧ s ∈ Promise (mb 16) ∧
    self.totalAllocated = 0 ∧ self.numBlocks = 0 := by
  have hspace : Space (mb 16) [mb 2] [] (managedMachine 256) := space_managedMachine (by decide)
  have hC := promise_managedMachine (W := mb 16) 256
  have hfree : 256 ≤ (managedMachine 256).freeFrames.length := by
    rw [freeFrames_managedMachine, List.length_map, List.length_range]
  have hroom : (managedMachine 256).placement + 16384 * 256 ≤ kvirtualAddress + mb 16 := by
    change kvirtualAddress + mb 5 + 16384 * 256 ≤ _
    decide
  obtain ⟨self, s, hrun, hC', -⟩ := new_ok hspace hC hroom (by decide) hfree
  obtain ⟨bs, h, hb⟩ := Held.new hspace hrun hC'
  obtain rfl : bs = [initialBlock] := by rw [hb.blocks, if_pos hfree]
  exact ⟨self, s, fun ok => .create hspace hrun hC', h, hC', hb.totalAllocated, hb.numBlocks⟩

/-- One allocation is made from it. -/
theorem exists_run_malloc (hsize : size ≤ maxAlloc) (h0 : size ≠ 0)
    (hfit : roundSize size ≤ initialBlock.size) : ∃ self₀ self s,
      (∀ ok, (∀ self s, Held (mb 16) [mb 2] self [initialBlock] s [] → ok self s (.malloc size)) →
        RunWhere ok (mb 16) self₀ [mb 2] self s [userHeapStartAddr + 24]) ∧
      Held (mb 16) [mb 2] self (FreeList.take 24 16 (roundSize size) initialBlock) s
        [userHeapStartAddr + 24] ∧ s ∈ Promise (mb 16) ∧
      (initialBlock.size = roundSize size ∨ roundSize size + 40 ≤ initialBlock.size →
        Tallied self₀ self [initialBlock] (FreeList.take 24 16 (roundSize size) initialBlock)) ∧
      Numbered self₀ self [initialBlock] (FreeList.take 24 16 (roundSize size) initialBlock) ∧
      self₀.totalAllocated = 0 ∧ self₀.numBlocks = 0 ∧ self₀.firstBlock = userHeapStartAddr := by
  obtain ⟨self, s, R, H, hC, htot, hnum⟩ := exists_run
  have hff : FreeList.firstFit (roundSize size) [initialBlock] = some ([], initialBlock, []) := by
    have : (initialBlock.free && decide (roundSize size ≤ initialBlock.size)) = true := by
      rw [decide_eq_true hfit]
      rfl
    rw [FreeList.firstFit, if_pos this]
  obtain ⟨self', s', hrun, heq, H', ht, hn⟩ := H.malloc_run h0 hsize hff
  have hmax : maxAlloc = 2 ^ 31 := by decide
  have hpassed : Passed [] (.malloc size) := show size < 2 ^ 64 by omega
  have hlive : Call.live [] (initialBlock.addr + 24) (.malloc size) = [userHeapStartAddr + 24] := by
    rw [Call.live, if_neg (by omega)]
    rfl
  have hC' : s' ∈ Promise (mb 16) := by
    rw [heq]
    exact hC
  have hlist : [] ++ FreeList.take 24 16 (roundSize size) initialBlock ++ [] =
      FreeList.take 24 16 (roundSize size) initialBlock := by rw [List.nil_append, List.append_nil]
  rw [hlist] at H' ht hn
  rw [hlive] at H'
  refine ⟨self, self', s', fun ok hok => ?_, H', hC', ht, hn, htot, hnum, H.inv.first⟩
  have := (R ok).call hpassed (hok self s H) hrun hC'
  rwa [hlive] at this

theorem Run.exact_tiling_malloc : ∃ heap₀ self s p, Run (mb 16) heap₀ [mb 2] self s [p] ∧
    self.heapCurrent ≤ userHeapMaxAddr := by
  have hround : roundSize 8 = 4096 := by decide
  obtain ⟨heap₀, self, s, R, -⟩ := @exists_run_malloc 8 (by decide) (by decide)
      (by rw [hround]; decide)
  have h : Run (mb 16) heap₀ [mb 2] self s [userHeapStartAddr + 24] := R _ fun _ _ _ => trivial
  exact ⟨heap₀, self, s, _, h, (Run.exact_tiling h).1⟩

end
end UserAllocator
end Coronel
