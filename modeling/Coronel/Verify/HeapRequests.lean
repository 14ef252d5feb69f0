import Coronel.Verify.HeapRuns

/-!
# Requests of every size

The kernel heap under requests of any 64-bit size. `ALIGN_UP` takes the sizes of the last page of
the address space to 0, so `malloc` looks for a block that holds nothing. The sizes of the page
before it leave no room for the header: `expand_heap` asks for zero pages, and builds its block at
an address that `virt` did not hand out. All other sizes are served in full or not at all.
-/

namespace Coronel

open Theory Theory.Bytes

namespace Heap

/-- Pointers are null or live, and sizes are 64-bit values. -/
def Passed (live : List Nat) : Call → Prop
  | .malloc size => size < 2 ^ 64
  | .calloc num size => num < 2 ^ 64 ∧ size < 2 ^ 64
  | .realloc ptr newSize => (ptr = 0 ∨ ptr ∈ live) ∧ newSize < 2 ^ 64
  | .free ptr => ptr = 0 ∨ ptr ∈ live

/-- The address that `virt` names for zero pages is null or not mapped. -/
def Quiet (s : Machine) : Prop :=
  ∀ v, s.gKernelVirtualManager = some v →
    (v.alloc 0).1 = 0 ∨ translate s.ram s.cr3 (v.alloc 0).1 = none

/-- The heap has no free block, and cannot grow by a header. -/
def Full (heap : Heap) (s : Machine) : Prop :=
  (findFreeBlock heap 0).run s = (.ok 0, s) ∧ ¬CanGrow s HeapBlock.sizeofHeapBlock

/-- When `malloc(size)` serves the whole request or refuses it. -/
def Exact (heap : Heap) (s : Machine) (size : Nat) : Prop :=
  (size + 4095 < 2 ^ 64 → Expandable size ∨ Quiet s) ∧ (2 ^ 64 ≤ size + 4095 → Full heap s)

/-- When a call serves the whole request or refuses it. -/
def CallExact (heap : Heap) (s : Machine) : Call → Prop
  | .malloc size => Exact heap s size
  | .calloc num size => num * size < 2 ^ 64 → Exact heap s (num * size)
  | .realloc ptr newSize => (ptr = 0 → Exact heap s newSize) ∧
    (ptr ≠ 0 → newSize + 4095 < 2 ^ 64 ∧ (Expandable newSize ∨ Quiet s))
  | .free _ => True

/-- When a call keeps the list: it builds no block where nothing was mapped for it, and `calloc`
does not clear more than a block holds. -/
def Harmless (heap : Heap) (s : Machine) : Call → Prop
  | .malloc size => Expandable size ∨ Quiet s
  | .calloc num size => num * size < 2 ^ 64 → Exact heap s (num * size)
  | .realloc _ newSize => Expandable newSize ∨ Quiet s
  | .free _ => True

/-- The states a heap reaches when calls of any size are made that keep its list. -/
inductive Reached (W : Nat) : List Nat → Heap → Machine → List Nat → Prop
  | run {dirs self s live} : Run W dirs self s live → Reached W dirs self s live
  | call {dirs self s live call r self' s'} : Reached W dirs self s live → Passed live call →
    Harmless self s call → (self.call call).run s = (.ok (r, self'), s') → s' ∈ Promise W →
    Reached W dirs self' s' (Call.live live r call)
  | meanwhile {dirs dirs' self s live s'} : Reached W dirs self s live →
    Meanwhile W dirs' self live s s' → Reached W dirs' self s' live

section
variable {W : Nat} {dirs dirs' : List Nat} {s s' : Machine} {self self' : Heap}
  {bs bs' : List Block} {others others' : List Span} {live : List Nat} {a r size num newSize : Nat}
  {b c : Block} {call : Call}

/-! ### Requests for zero pages -/

theorem Expandable.of_wrap (hsize : size < 2 ^ 64) (h : 2 ^ 64 ≤ size + 4095) :
    Expandable size := by
  rw [Expandable, alignUp_wrap hsize h]
  decide

/-- The sizes whose rounding leaves no room for the header. -/
theorem alignUp_of_not_expandable (h : ¬Expandable size) : alignUp size = 2 ^ 64 - 4096 := by
  have h1 := alignUp_lt size
  have h2 := alignUp_mod size
  unfold Expandable HeapBlock.sizeofHeapBlock at h
  omega

theorem virt_alloc_zero {v : Virt} {live : List Span} (h : Virt.Inv v live) : (v.alloc 0).2 = v := by
  have h0 : alignUp 0 = 0 := by decide
  unfold Virt.alloc
  rw [h0]
  rcases hr : Virt.allocFrom 0 v.freeMemList with _ | ⟨a, nodes⟩
  · rfl
  obtain ⟨xs, n, ys, he, -, hne, -, -, rfl⟩ := Virt.allocFrom_eq_some hr
  have hb := h.bounded n (by rw [he]; simp) hne
  have hadd : add64 n.start 0 = n.start := add64_eq (by
    have : Virt.vaddrSize < 2 ^ 64 := by decide
    omega)
  cases v
  simp only at he ⊢
  rw [he, if_neg hne, hadd, Nat.sub_zero]

/-- An expansion by zero pages ends with nothing changed, or does not end. -/
theorem expandHeap_quiet (H : Inv W dirs self bs others s) (hq : Quiet s) {minSize : Nat}
    (h0 : alignUp minSize = 0) {r : Bool × Heap}
    (hrun : (expandHeap self minSize).run s = (.ok r, s')) : r = (false, self) ∧ s' = s := by
  obtain ⟨v, hv, hvi⟩ := H.virt
  have hs : { s with gKernelVirtualManager := some (v.alloc 0).2 } = s := by
    rw [virt_alloc_zero hvi, ← hv]
  rw [expandHeap] at hrun
  simp only [h0] at hrun
  rw [Prog.run_bind_ok (virtAlloc_run hv 0), hs] at hrun
  by_cases hreg : (v.alloc 0).1 = 0
  · rw [if_pos hreg] at hrun
    cases hrun
    exact ⟨rfl, rfl⟩
  · -- the header is written where nothing is mapped
    have hmap : (mapPages (v.alloc 0).1 0).run s = (.ok true, s) := rfl
    have hnew : ∀ size, (HeapBlock.new (v.alloc 0).1 size true).run s =
        (.error (.pageFault (v.alloc 0).1), s) := by
      intro size
      have h1 : (store8 (v.alloc 0).1 (UInt8.ofNat size)).run s =
          (.error (.pageFault (v.alloc 0).1), s) := by
        rw [store8, Prog.run_bind_ok (Prog.run_get s)]
        simp only [(hq v hv).resolve_left hreg]
        rfl
      have h2 : (HeapBlock.setSize (v.alloc 0).1 size).run s =
          (.error (.pageFault (v.alloc 0).1), s) := by
        rw [HeapBlock.setSize, storeN]
        exact Prog.run_bind_error h1
      rw [HeapBlock.new]
      exact Prog.run_bind_error h2
    rw [if_neg hreg, Prog.run_bind_ok hmap] at hrun
    simp only [Bool.not_true, Bool.false_eq_true, if_false] at hrun
    rw [Prog.run_bind_error (hnew _)] at hrun
    cases hrun

/-- Such a `malloc` ends with nothing changed, or does not end. -/
theorem malloc_quiet (H : Inv W dirs self bs others s) (hq : Quiet s) (hsize : ¬Expandable size)
    {r : Nat × Heap} (hrun : (malloc self size).run s = (.ok r, s')) : r = (0, self) ∧ s' = s := by
  have hal := alignUp_of_not_expandable hsize
  have h0 : size ≠ 0 := by
    rintro rfl
    exact hsize (by unfold Expandable; decide)
  have hnone : FreeList.firstFit (alignUp size) bs = none := by
    refine firstFit_eq_none.mpr fun b hb h => ?_
    have := H.listed.top b hb
    omega
  have hmin : alignUp (add64 (alignUp size) HeapBlock.sizeofHeapBlock) = 0 := by
    rw [hal]
    decide
  rw [malloc, if_neg h0, Prog.run_bind_ok (H.findFreeBlock_run _), hnone] at hrun
  simp only [Option.map_none, Option.getD_none, ne_eq, not_true_eq_false, if_false] at hrun
  obtain ⟨r1, s1, hrun1, hrun2⟩ := Prog.run_bind_eq_ok.mp hrun
  obtain ⟨rfl, rfl⟩ := expandHeap_quiet H hq hmin hrun1
  cases hrun2
  exact ⟨rfl, rfl⟩

theorem full_iff (H : Inv W dirs self bs others s) :
    Full self s ↔ FreeList.firstFit 0 bs = none ∧ ¬CanGrow s HeapBlock.sizeofHeapBlock := by
  refine and_congr_left fun _ => ?_
  rw [H.findFreeBlock_run]
  rcases hf : FreeList.firstFit 0 bs with _ | ⟨xs, b, ys⟩
  · simp
  · obtain ⟨rfl, -⟩ := firstFit_eq_some hf
    have := H.listed.nonnull b (by simp)
    simpa using this

/-- In the last page of sizes, `malloc` refuses when the heap is full. -/
theorem refused_iff_full (H : Inv W dirs self bs others s) (hsize : size < 2 ^ 64)
    (h : 2 ^ 64 ≤ size + 4095) : Refused s bs size ↔ Full self s := by
  rw [full_iff H, Refused, alignUp_wrap hsize h, Nat.zero_add]
  exact or_iff_right (by omega)

/-- A refusal leaves the list as it was. -/
theorem malloc_refused (H : Inv W dirs self bs others s) (hsize : Expandable size)
    (hr : Refused s bs size) {r : Nat × Heap} (hrun : (malloc self size).run s = (.ok r, s'))
    (hC : s' ∈ Promise W) : r.1 = 0 ∧ ∃ others', Inv W dirs r.2 bs others' s' ∧
      Moves self r.2 (used bs) s s' ∧ Tallied self r.2 bs bs := by
  obtain ⟨bs', others', H', hserved, hmoves, htally, hiff⟩ := (malloc_safe H hsize).ok hrun hC
  have h0 := hiff.mpr hr
  obtain ⟨-, rfl⟩ : r.1 = 0 ∧ bs' = bs := by
    rcases hserved.used_cases with h | ⟨us, c, vs, -, -, hc, -⟩
    · exact h
    · omega
  refine ⟨h0, others', H', hmoves, htally fun hne r hr' => ?_⟩
  rw [(hr.resolve_left hne).1] at hr'
  cases hr'

/-- An exact `malloc` of a size that wraps hands out nothing. -/
theorem malloc_exact (H : Inv W dirs self bs others s) (he : Exact self s size)
    (hsize : size < 2 ^ 64) (hr : ¬Roundable size) {r : Nat × Heap}
    (hrun : (malloc self size).run s = (.ok r, s')) (hC : s' ∈ Promise W) :
    r.1 = 0 ∧ ∃ others', Inv W dirs r.2 bs others' s' ∧ Moves self r.2 (used bs) s s' ∧
      Tallied self r.2 bs bs := by
  by_cases hlt : size + 4095 < 2 ^ 64
  · have hne : ¬Expandable size := fun h => hr ⟨hlt, h⟩
    obtain ⟨rfl, rfl⟩ := malloc_quiet H ((he.1 hlt).resolve_left hne) hne hrun
    exact ⟨rfl, others, H, Moves.refl .., .refl self bs⟩
  · have hge : 2 ^ 64 ≤ size + 4095 := by omega
    exact malloc_refused H (.of_wrap hsize hge) ((refused_iff_full H hsize hge).mpr (he.2 hge))
      hrun hC

/-! ### Runs -/

/-- `realloc` of a live block for which `malloc` asks for zero pages. -/
theorem realloc_quiet (H : Inv W dirs self bs others s) (hb : b ∈ used bs) (hq : Quiet s)
    (hsize : ¬Expandable newSize) {r : Nat × Heap}
    (hrun : (realloc self (b.addr + 40) newSize).run s = (.ok r, s')) :
    r = (0, self) ∧ s' = s := by
  have hal := alignUp_of_not_expandable hsize
  have h0 : newSize ≠ 0 := by
    rintro rfl
    exact hsize (by unfold Expandable; decide)
  have htop := H.listed.top b (mem_used.mp hb).1
  have hup : alignUp (alignUp newSize) = alignUp newSize := by
    rw [hal]
    decide
  rw [realloc_run_used H hb h0, if_neg (by omega)] at hrun
  obtain ⟨r1, s1, hrun1, hrun2⟩ := Prog.run_bind_eq_ok.mp hrun
  obtain ⟨rfl, rfl⟩ := malloc_quiet H hq (by rw [Expandable, hup]; exact hsize) hrun1
  cases hrun2
  exact ⟨rfl, rfl⟩

/-- Every harmless call keeps the invariant. -/
theorem Inv.call_after (H : Inv W dirs self bs others s) (hl : live.Perm (pointers 40 bs))
    (hp : Passed live call) (hh : Harmless self s call)
    (hrun : (self.call call).run s = (.ok (r, self'), s')) (hC : s' ∈ Promise W) :
    After W dirs self bs call s (r, self') s' := by
  by_cases ho : Ordinary live call
  · exact (H.call_safe hl ho).ok hrun hC
  cases call with
  | malloc size =>
    obtain ⟨h, rfl⟩ := malloc_quiet H (hh.resolve_left ho) ho hrun
    cases h
    exact .intro H H (.malloc .refused) (Moves.refl ..) (fun _ => .refl self bs) fun e he _ => he
  | calloc num size =>
    obtain ⟨hlt, hr⟩ := Classical.not_imp.mp ho
    rw [call, calloc_eq hlt] at hrun
    obtain ⟨r1, s1, hrun1, hrun2⟩ := Prog.run_bind_eq_ok.mp hrun
    obtain ⟨h0, others', H', hm, ht⟩ := malloc_exact H (hh hlt) hlt hr hrun1
      ((Promise W).lower (Prog.le_of_run hrun2) hC)
    rw [if_pos h0] at hrun2
    cases hrun2
    obtain rfl : r = 0 := h0
    exact .intro H H' (.calloc .refused) hm (fun _ => ht) fun e he _ => he
  | realloc ptr newSize =>
    obtain ⟨hptr, -⟩ := hp
    have hne : ¬Expandable newSize := fun h => ho ⟨hptr, h⟩
    have hq := hh.resolve_left hne
    by_cases h0 : ptr = 0
    · subst h0
      rw [call, realloc, if_pos rfl] at hrun
      obtain ⟨h, rfl⟩ := malloc_quiet H hq hne hrun
      cases h
      exact .intro H H (.reallocNull .refused) (Moves.refl ..) (fun _ => .refl self bs)
        fun e he _ => he
    · obtain ⟨e, he, rfl⟩ := used_of_pointer (hl.subset (hptr.resolve_left h0))
      obtain ⟨h, rfl⟩ := realloc_quiet H he hq hne hrun
      cases h
      refine .intro H H (.realloc he (.refused fun h => hne ?_)) (Moves.refl ..)
        (fun _ => .refl self bs) fun e he _ => he
      rw [h]
      unfold Expandable
      decide
  | free ptr => exact absurd hp ho

/-- A property of the list that holds at the construction, and that the calls keep, holds in every
state that harmless calls reach. -/
theorem Reached.inv_of {P : List Block → Prop}
    (hnew : ∀ {addr size}, 4096 ≤ alignUp size → P [⟨addr, alignUp size - 40, true⟩])
    (hcall : ∀ {bs call bs' r}, Serves 40 alignUp bs call bs' r → P bs → P bs')
    (h : Reached W dirs self s live) :
    ∃ bs others, Inv W dirs self bs others s ∧ live.Perm (pointers 40 bs) ∧ P bs := by
  induction h with
  | run h =>
    exact h.inv_of (P := fun _ => P) (fun hal _ _ _ => hnew hal)
      fun _ _ _ _ hP _ hserves _ => hcall hserves hP
  | call _ hp hh hrun hC ih =>
    obtain ⟨bs, others, H, hl, hP⟩ := ih
    obtain ⟨bs', others', H', hs, -⟩ := H.call_after hl hp hh hrun hC
    exact ⟨bs', others', H', hs.live_perm (by decide) hl, hcall hs hP⟩
  | meanwhile _ hm ih =>
    obtain ⟨bs, others, H, hl, hP⟩ := ih
    obtain ⟨others', H'⟩ := hm.inv H hl
    exact ⟨bs, others', H', hl, hP⟩

/-- In every state that harmless calls reach the blocks are well formed, and those in use are the
live allocations. -/
theorem Reached.inv (h : Reached W dirs self s live) :
    ∃ bs others, Inv W dirs self bs others s ∧ live.Perm (pointers 40 bs) := by
  obtain ⟨bs, others, H, hl, -⟩ := h.inv_of (P := fun _ => True) (fun _ => trivial)
    fun _ _ => trivial
  exact ⟨bs, others, H, hl⟩

/-! ### Capacity -/

/-- The block behind `r` holds `n` bytes, on pages that the heap has mapped. -/
structure Capacity (heap : Heap) (s : Machine) (r n : Nat) : Prop where
  size : n ≤ (payloadAt s r).size
  mapped : ∀ a ∈ payloadAt s r,
    ⟨s.cr3, a / 4096⟩ ∈ heap.pages s.cr3 ∧ translate s.ram s.cr3 a ≠ none

theorem Inv.capacity {n : Nat} (H : Inv W dirs self bs others s) (hc : c ∈ bs) (hn : n ≤ c.size) :
    Capacity self s (c.addr + 40) n := by
  have hpay := H.payloadAt_eq hc
  refine ⟨by rw [hpay]; exact hn, fun a ha => ?_⟩
  rw [hpay] at ha
  obtain ⟨h1, h2⟩ := Block.mem_payload.mp ha
  have hm := H.listed.covers c hc (a - c.addr) (by change _ < 40 + c.size; omega)
  rw [Nat.add_sub_cancel' (by omega)] at hm
  refine ⟨hm, ?_⟩
  rw [H.space.translate_owned hm]
  simp

/-- The pages of a heap lie below 512 GB, so no block holds more. -/
theorem Inv.not_capacity {n : Nat} (H : Inv W dirs self bs others s) (hn : 2 ^ 39 < n) :
    ¬Capacity self s' r n := by
  rintro ⟨h1, h2⟩
  obtain ⟨hm, -⟩ := h2 (r + n - 1) ⟨by simp only [payloadAt]; omega, by
    simp only [payloadAt] at h1 ⊢
    omega⟩
  obtain ⟨-, hr⟩ := mem_pages.mp hm
  have := H.space.low ⟨s.cr3, (r + n - 1) / 4096⟩ (mem_pages.mpr ⟨rfl, hr⟩)
  simp only at this
  omega

/-- `malloc` of a size that rounds to pages. -/
theorem Inv.malloc_capacity (H : Inv W dirs self bs others s) (hsize : Roundable size)
    (hrun : (malloc self size).run s = (.ok (r, self'), s')) (hC : s' ∈ Promise W) (h0 : r ≠ 0) :
    Capacity self' s' r size := by
  obtain ⟨bs', others', H', hserved, -⟩ := (malloc_safe H hsize.2).ok hrun hC
  obtain ⟨c, rfl, hk, hperm⟩ := hserved.exists_block h0
  have hle := le_alignUp hsize.1
  exact H'.capacity (mem_used.mp (hperm.symm.subset List.mem_cons_self)).1 (by omega)

/-- An exact `malloc`. -/
theorem Inv.exact_capacity (H : Inv W dirs self bs others s) (he : Exact self s size)
    (hsize : size < 2 ^ 64) (hrun : (malloc self size).run s = (.ok (r, self'), s'))
    (hC : s' ∈ Promise W) (h0 : r ≠ 0) : Capacity self' s' r size := by
  by_cases hr : Roundable size
  · exact H.malloc_capacity hr hrun hC h0
  · exact absurd (malloc_exact H he hsize hr hrun hC).1 h0

/-- A `malloc` that does not ask for zero pages is exact when its block is large enough. -/
theorem Inv.exact_of_capacity (H : Inv W dirs self bs others s) (he : Expandable size)
    (hsize : size < 2 ^ 64) {r : Nat × Heap} (hrun : (malloc self size).run s = (.ok r, s'))
    (hC : s' ∈ Promise W) {s'' : Machine} (hcap : r.1 ≠ 0 → Capacity r.2 s'' r.1 size) :
    Exact self s size := by
  refine ⟨fun _ => .inl he, fun hge => ?_⟩
  obtain ⟨bs', others', H', -, -, -, hiff⟩ := (malloc_safe H he).ok hrun hC
  refine (refused_iff_full H hsize hge).mp (hiff.mp ?_)
  by_contra h0
  exact H'.not_capacity (by omega) (hcap h0)

/-- What `calloc` returns is what `malloc` returns to it. -/
theorem calloc_run_malloc (hlt : num * size < 2 ^ 64) {r : Nat × Heap}
    (hrun : (calloc self num size).run s = (.ok r, s')) (hC : s' ∈ Promise W) :
    ∃ r1 s1, (malloc self (num * size)).run s = (.ok r1, s1) ∧ s1 ∈ Promise W ∧ r1 = r := by
  rw [calloc_eq hlt] at hrun
  obtain ⟨r1, s1, hrun1, hrun2⟩ := Prog.run_bind_eq_ok.mp hrun
  refine ⟨r1, s1, hrun1, (Promise W).lower (Prog.le_of_run hrun2) hC, ?_⟩
  by_cases h0 : r1.1 = 0
  · rw [if_pos h0] at hrun2
    cases hrun2
    rfl
  · rw [if_neg h0] at hrun2
    obtain ⟨-, s2, -, hrun3⟩ := Prog.run_bind_eq_ok.mp hrun2
    cases hrun3
    rfl

/-- `calloc` of a product that rounds to pages. -/
theorem Inv.calloc_capacity (H : Inv W dirs self bs others s) (hsize : Roundable (num * size))
    (hrun : (calloc self num size).run s = (.ok (r, self'), s')) (hC : s' ∈ Promise W)
    (h0 : r ≠ 0) : Capacity self' s' r (num * size) := by
  obtain ⟨bs', others', H', hserved, -⟩ := (calloc_safe H fun _ => hsize).ok hrun hC
  obtain ⟨c, rfl, hk, hperm⟩ := hserved.exists_block h0
  have hle := le_alignUp hsize.1
  exact H'.capacity (mem_used.mp (hperm.symm.subset List.mem_cons_self)).1 (by omega)

/-- `realloc` of a live block to a size that rounds to pages. -/
theorem Inv.realloc_capacity (H : Inv W dirs self bs others s) (hb : b ∈ used bs)
    (hsize : Roundable newSize)
    (hrun : (realloc self (b.addr + 40) newSize).run s = (.ok (r, self'), s'))
    (hC : s' ∈ Promise W) (h0 : r ≠ 0) : Capacity self' s' r newSize := by
  obtain ⟨bs', others', H', -, hcar, -⟩ := (realloc_safe H hb hsize.2).ok hrun hC
  obtain ⟨c, hc, rfl, hk⟩ := hcar.holds h0
  have hle := le_alignUp hsize.1
  exact H'.capacity (mem_used.mp hc).1 (by omega)

/-- In the last page of sizes, `realloc` of a live block keeps the block. -/
theorem Inv.realloc_not_capacity (H : Inv W dirs self bs others s) (hb : b ∈ used bs)
    (hsize : newSize < 2 ^ 64) (hge : 2 ^ 64 ≤ newSize + 4095)
    (hrun : (realloc self (b.addr + 40) newSize).run s = (.ok (r, self'), s')) :
    r ≠ 0 ∧ ¬Capacity self' s' r newSize := by
  obtain ⟨hmem, hfree⟩ := mem_used.mp hb
  obtain ⟨xs, ys, rfl⟩ := List.append_of_mem hmem
  obtain ⟨bs', self1, s1, hrun1, -, H1, -⟩ := @reallocInPlace_run _ _ _ _ _ _ _ _ H hfree newSize
      (by omega) (by rw [alignUp_wrap hsize hge]; exact Nat.zero_le _)
  cases hrun.symm.trans hrun1
  exact ⟨by omega, H1.not_capacity (by omega)⟩

/-- **Capacity.** In every state that harmless calls reach, a call of any 64-bit size that is exact
returns null or a block of the size it was asked for. Unless it asks `expand_heap` for zero pages, a
call does so only if it is exact. -/
theorem Reached.capacity_iff (h : Reached W dirs self s live) (hp : Passed live call)
    (hrun : (self.call call).run s = (.ok (r, self'), s')) (hC : s' ∈ Promise W) :
    (CallExact self s call → r ≠ 0 → Capacity self' s' r call.bytes) ∧
    (Expandable call.bytes → (r ≠ 0 → Capacity self' s' r call.bytes) → CallExact self s call) := by
  obtain ⟨bs, others, H, hl⟩ := h.inv
  cases call with
  | malloc size =>
    exact ⟨fun he h0 => H.exact_capacity he hp hrun hC h0, fun hexp hcap =>
      H.exact_of_capacity hexp hp hrun hC hcap⟩
  | calloc num size =>
    by_cases hlt : num * size < 2 ^ 64
    swap
    · rw [Heap.call, calloc_run_wrap (Nat.le_of_not_lt hlt)] at hrun
      cases hrun
      exact ⟨fun _ h0 => absurd rfl h0, fun _ _ h => absurd h hlt⟩
    obtain ⟨_, s1, hrun1, hC1, rfl⟩ := calloc_run_malloc hlt hrun hC
    refine ⟨fun he h0 => ?_, fun hexp hcap _ => H.exact_of_capacity hexp hlt hrun1 hC1 hcap⟩
    by_cases hround : Roundable (num * size)
    · exact H.calloc_capacity hround hrun hC h0
    · exact absurd (malloc_exact H (he hlt) hlt hround hrun1 hC1).1 h0
  | realloc ptr newSize =>
    obtain ⟨hptr, hsize⟩ := hp
    by_cases h0 : ptr = 0
    · subst h0
      rw [Heap.call, realloc, if_pos rfl] at hrun
      exact ⟨fun he h0 => H.exact_capacity (he.1 rfl) hsize hrun hC h0, fun hexp hcap =>
        ⟨fun _ => H.exact_of_capacity hexp hsize hrun hC hcap, fun h => absurd rfl h⟩⟩
    · obtain ⟨b, hb, rfl⟩ := used_of_pointer (hl.subset (hptr.resolve_left h0))
      refine ⟨fun he hr => ?_, fun hexp hcap => ⟨fun h => absurd h h0, fun _ => ⟨?_, .inl hexp⟩⟩⟩
      · obtain ⟨hlt, he⟩ := he.2 h0
        by_cases hexp : Expandable newSize
        · exact H.realloc_capacity hb ⟨hlt, hexp⟩ hrun hC hr
        · obtain ⟨h, -⟩ := realloc_quiet H hb (he.resolve_left hexp) hexp hrun
          cases h
          exact absurd rfl hr
      · by_contra hge
        obtain ⟨h1, h2⟩ := H.realloc_not_capacity hb hsize (by omega) hrun
        exact h2 (hcap h1)
  | free ptr =>
    obtain ⟨self1, s1, -, hrun⟩ := Prog.run_bind_eq_ok.mp hrun
    cases hrun
    exact ⟨fun _ h0 => absurd rfl h0, fun _ _ => trivial⟩

/-- A request of 8 bytes is exact. -/
theorem Reached.capacity_iff_small : ∃ self s self' s' r,
    Reached (mb 16) [mb 2] self s [] ∧ CallExact self s (.malloc 8) ∧
    (self.call (.malloc 8)).run s = (.ok (r, self'), s') ∧ r ≠ 0 ∧ Capacity self' s' r 8 := by
  obtain ⟨self, s, R, H, hC, -⟩ := exists_run
  have hfit : FreeList.firstFit (alignUp 8) [⟨4096, 16344, true⟩] =
      some ([], ⟨4096, 16344, true⟩, []) := by decide
  obtain ⟨self', s', hrun, -, heq, -⟩ := H.malloc_run (by decide) hfit
  have hexact : CallExact self s (.malloc 8) :=
    ⟨fun _ => .inl (by unfold Expandable; decide), fun h => by omega⟩
  have hreach : Reached (mb 16) [mb 2] self s [] := .run (R _)
  have hpassed : Passed [] (.malloc 8) := by
    unfold Passed
    omega
  obtain ⟨hcap, -⟩ := Reached.capacity_iff hreach hpassed hrun (by rw [heq]; exact hC)
  exact ⟨self, s, self', s', _, hreach, hexact, hrun, by decide, hcap hexact (by decide)⟩

/-- `malloc(2^64 - 1)` returns a block of no bytes. -/
theorem not_capacity_max : ¬∀ {W dirs self s live call r self' s'}, Reached W dirs self s live →
    Passed live call → (self.call call).run s = (.ok (r, self'), s') → s' ∈ Promise W →
    r ≠ 0 → Capacity self' s' r call.bytes := by
  intro hall
  obtain ⟨self, s, R, H, hC, -⟩ := exists_run
  have hal : alignUp (2 ^ 64 - 1) = 0 := alignUp_wrap (by omega) (by omega)
  have hfit : FreeList.firstFit (alignUp (2 ^ 64 - 1)) [⟨4096, 16344, true⟩] =
      some ([], ⟨4096, 16344, true⟩, []) := by
    rw [hal]
    decide
  obtain ⟨self', s', hrun, H', heq, -⟩ := H.malloc_run (by omega) hfit
  have hpassed : Passed [] (.malloc (2 ^ 64 - 1)) := by
    unfold Passed
    omega
  have hcap := hall (.run (R _)) hpassed hrun (by rw [heq]; exact hC) (by decide)
  refine H'.not_capacity ?_ hcap
  simp only [Call.bytes]
  omega

/-! ### realloc and data -/

theorem Inv.pointers_nodup (H : Inv W dirs self bs others s) : (pointers 40 bs).Nodup := by
  have h1 : ((used bs).map (·.addr)).Nodup := H.listed.nodup.sublist (List.filter_sublist.map _)
  have h2 := h1.map (f := (· + 40)) fun _ _ => Nat.add_right_cancel
  rwa [List.map_map] at h2

/-- **`realloc` preserves data.** In every state that harmless calls reach, `realloc` of a live
pointer to a size that rounds to pages returns a live pointer to the first bytes, with the old one
no longer live unless it is returned, or null, with all blocks as they were. -/
theorem Reached.realloc_data {p n q : Nat} (h : Reached W dirs self s live) (hp : p ∈ live)
    (h1 : 1 ≤ n) (hn : Roundable n) (hrun : (realloc self p n).run s = (.ok (q, self'), s'))
    (hC : s' ∈ Promise W) :
    (q ≠ 0 → (∃ bs', WellFormed self' bs' s' ∧ q ∈ pointers 40 bs' ∧
        (q ≠ p → p ∉ pointers 40 bs')) ∧
      ∀ i < min (payloadAt s p).size n, vmem s'.ram s'.cr3 (q + i) = vmem s.ram s.cr3 (p + i)) ∧
    (q = 0 → ∃ bs', WellFormed self bs' s ∧ WellFormed self' bs' s' ∧ ∀ e ∈ live,
      e ∈ pointers 40 bs' ∧ payloadAt s' e = payloadAt s e ∧
      ∀ a ∈ payloadAt s e, vmem s'.ram s'.cr3 a = vmem s.ram s.cr3 a) := by
  obtain ⟨bs, others, H, hl⟩ := h.inv
  obtain ⟨b, hb, rfl⟩ := used_of_pointer (hl.subset hp)
  obtain ⟨bs', others', H', hres, hcar, -⟩ := (realloc_safe H hb hn.2).ok hrun hC
  have hbm := (mem_used.mp hb).1
  have hle := le_alignUp hn.1
  constructor
  · intro hq
    obtain ⟨c, hc, hqc, hk⟩ := hcar.holds hq
    simp only at hqc
    subst hqc
    have hcm := (mem_used.mp hc).1
    refine ⟨⟨bs', H'.wellFormed, List.mem_map_of_mem hc, fun hne hmem => ?_⟩, fun i hi => ?_⟩
    · -- the live allocations are the new one and the old ones but `p`
      have hperm := hres.live_perm (by decide) hb (List.Perm.refl _)
      rw [Call.live, if_pos hq] at hperm
      rcases List.mem_cons.mp (hperm.symm.subset hmem) with heq | hmem
      · exact hne heq.symm
      · exact H.pointers_nodup.not_mem_erase hmem
    · rw [H.payloadAt_eq hbm] at hi
      have hi : i < b.size ∧ i < n := lt_min_iff.mp hi
      rw [H'.vmem_eq hcm (by omega) (by omega), H.vmem_eq hbm (by omega) (by omega)]
      exact hcar.copied hq i (lt_min_iff.mpr ⟨hi.1, by omega⟩)
  · intro hq
    obtain ⟨rfl, hmoves⟩ := hcar.refused hq (by omega)
    refine ⟨bs', H.wellFormed, H'.wellFormed, fun e he => ?_⟩
    obtain ⟨f, hf, rfl⟩ := used_of_pointer (hl.subset he)
    have hfm := (mem_used.mp hf).1
    refine ⟨List.mem_map_of_mem hf, ?_, fun a ha => hmoves.vmem_eq H H' hf hfm hfm ha⟩
    rw [H.payloadAt_eq hfm, H'.payloadAt_eq hfm]

/-- A page is allocated, and kept for 100 bytes. -/
theorem Reached.realloc_data_kept : ∃ self s self' s' p,
    Reached (mb 16) [mb 2] self s [p] ∧ (realloc self p 100).run s = (.ok (p, self'), s') ∧
    ∀ i < min (payloadAt s p).size 100, vmem s'.ram s'.cr3 (p + i) = vmem s.ram s.cr3 (p + i) := by
  obtain ⟨self, s, R, H, hC, -⟩ := exists_run
  have hfit : FreeList.firstFit (alignUp 8) [⟨4096, 16344, true⟩] =
      some ([], ⟨4096, 16344, true⟩, []) := by decide
  obtain ⟨self1, s1, hrun1, H1, heq1, -⟩ := H.malloc_run (by decide) hfit
  have hC1 : s1 ∈ Promise (mb 16) := by rw [heq1]; exact hC
  have hround : ∀ n, n ≤ 4096 → Roundable n := fun n hn => by
    have h1 : alignUp n ≤ 4096 := alignUp_le (by decide) (by decide) hn
    unfold Roundable HeapBlock.sizeofHeapBlock
    omega
  have hallowed : Allowed [] (.malloc 8) := hround 8 (by decide)
  have R1 : Reached (mb 16) [mb 2] self1 s1 [4096 + 40] :=
    .run ((R _).call hallowed trivial hrun1 hC1)
  obtain ⟨-, self2, s2, hrun2, -, -, -, heq2, -⟩ := @reallocInPlace_run _ _ _ _ [] _ _
      ⟨4096, 4096, false⟩ H1 rfl 100 (by decide) (by decide)
  have hdata := Reached.realloc_data R1 List.mem_cons_self (by decide) (hround 100 (by decide))
    hrun2 (by rw [heq2]; exact hC1)
  exact ⟨self1, s1, self2, s2, _, R1, hrun2, (hdata.1 (by decide)).2⟩

end
end Heap
end Coronel
