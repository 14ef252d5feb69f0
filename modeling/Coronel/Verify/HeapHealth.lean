import Coronel.Verify.HeapRuns

/-!
# The health of the kernel heap

What a heap's list and counters look like after any run: when neighbours stay coalesced, and how
far `total_free_` is from the free bytes. `realloc` splits without coalescing, and splitting and
coalescing move the counter by a header in the wrong direction.
-/

namespace Coronel

open Theory Theory.Bytes

namespace Heap

/-- The header at `block`, through CR3. -/
def headerAt (s : Machine) (block : Nat) : Option Node := HeapBlock.node (vmem s.ram s.cr3) block

section
variable {W : Nat} {dirs : List Nat} {s s' : Machine} {self self' : Heap} {bs bs' xs ys : List Block}
  {others others' : List Span} {live : List Nat} {b : Block} {call : Call} {n : Node}

theorem Inv.headerAt_eq (H : Inv W dirs self (xs ++ b :: ys) others s) :
    headerAt s b.addr = some ⟨b.size, b.free, headAddr ys 0, lastAddr 0 xs⟩ := by
  rw [headerAt, HeapBlock.node_congr fun i hi => H.vmem_eq (e := b) (by simp) (by omega) (by omega)]
  exact H.listed.blocks.node_eq

/-- The header of a block on the list. -/
theorem Inv.headerAt_of_mem (H : Inv W dirs self bs others s) (hb : b ∈ bs) :
    ∃ n, headerAt s b.addr = some n ∧ n.size = b.size ∧ n.free = b.free := by
  obtain ⟨xs, ys, rfl⟩ := List.append_of_mem hb
  exact ⟨_, H.headerAt_eq, rfl, rfl⟩

/-! ### Fragmentation -/

/-- The call is a `realloc` that cuts its block, and the block behind it is free and contiguous. -/
def CutsBesideFree (s : Machine) : Call → Prop
  | .realloc ptr newSize => ptr ≠ 0 ∧ newSize ≠ 0 ∧ ∃ n m, headerAt s (ptr - 40) = some n ∧
    alignUp newSize + minBlockSize < n.size ∧ headerAt s n.next = some m ∧ n.next ≠ 0 ∧
      m.free = true ∧ ptr + n.size = n.next
  | _ => False

theorem Inv.cutsApart (H : Inv W dirs self bs others s) (h : ¬CutsBesideFree s call) :
    call.CutsApart 40 alignUp bs := by
  cases call with
  | realloc ptr newSize =>
    rintro h0 xs b y ys rfl hb rfl hk ⟨hfree, hadj⟩
    have hmin : minBlockSize = 56 := rfl
    have hb' : headerAt s (b.addr + 40 - 40) = some ⟨b.size, b.free, y.addr, lastAddr 0 xs⟩ := by
      rw [Nat.add_sub_cancel]
      exact H.headerAt_eq
    obtain ⟨m, hm, -, hmf⟩ := H.headerAt_of_mem (b := y) (by simp)
    exact h ⟨by omega, h0, _, m, hb', by simp only; omega, hm, H.listed.nonnull y (by simp),
      hmf.trans hfree, hadj⟩
  | _ => trivial

/-- **No fragmentation.** As long as no `realloc` cuts a block in front of a free one, no two
neighbours of the list are both free and contiguous. -/
theorem RunWhere.coalesced
    (h : RunWhere (fun _ s call => ¬CutsBesideFree s call) W dirs self s live) :
    ∃ bs, WellFormed self bs s ∧ Coalesced 40 bs := by
  obtain ⟨bs, others, H, -, hc⟩ := h.inv_of (P := fun _ bs => Coalesced 40 bs)
    (fun _ _ _ _ _ => List.isChain_singleton _)
    fun H _ _ hok hc _ hserves _ => hserves.keepsCoalesced hc (H.cutsApart hok)
  exact ⟨bs, H.wellFormed, hc⟩

/-- A run with an allocation, of which no call cuts a block. -/
theorem RunWhere.coalesced_malloc : ∃ self s p,
    RunWhere (fun _ s call => ¬CutsBesideFree s call) (mb 16) [mb 2] self s [p] ∧
      ∃ bs, WellFormed self bs s ∧ Coalesced 40 bs := by
  obtain ⟨self, s, R, H, hC, -⟩ := exists_run
  have hfit : FreeList.firstFit (alignUp 8) [⟨4096, 16344, true⟩] =
      some ([], ⟨4096, 16344, true⟩, []) := by decide
  obtain ⟨self', s', hrun, -, heq, -⟩ := H.malloc_run (by decide) hfit
  have hallowed : Allowed [] (.malloc 8) := ⟨by decide, by decide⟩
  have R' : RunWhere (fun _ s call => ¬CutsBesideFree s call) (mb 16) [mb 2] self' s' [4096 + 40] :=
    (R _).call hallowed id hrun (by rw [heq]; exact hC)
  exact ⟨self', s', _, R', R'.coalesced⟩

/-- Two pages are allocated and cut down to one, in front of the free rest of the heap. -/
theorem Run.not_coalesced : ∃ self s p bs, Run (mb 16) [mb 2] self s [p] ∧ WellFormed self bs s ∧
    ¬Coalesced 40 bs := by
  obtain ⟨self, s, R, H, hC, -⟩ := exists_run
  have hfit : FreeList.firstFit (alignUp 8192) [⟨4096, 16344, true⟩] =
      some ([], ⟨4096, 16344, true⟩, []) := by decide
  obtain ⟨self1, s1, hrun1, H1, heq1, -⟩ := H.malloc_run (by decide) hfit
  have hallowed : Allowed [] (.malloc 8192) := ⟨by decide, by decide⟩
  have R1 : Run (mb 16) [mb 2] self1 s1 [4136] :=
    (R _).call hallowed trivial hrun1 (by rw [heq1]; exact hC)
  have hlist : [] ++ FreeList.take 40 16 (alignUp 8192) ⟨4096, 16344, true⟩ ++ [] =
      [] ++ (⟨4096, 8192, false⟩ : Block) :: [⟨12328, 8112, true⟩] := by decide
  rw [hlist] at H1
  obtain ⟨bs, self2, s2, hrun2, rfl, H2, -, heq2, -⟩ :=
    @reallocInPlace_run _ _ _ _ _ _ _ _ H1 rfl 1 (by decide) (by decide)
  have hallowed : Allowed [4136] (.realloc 4136 1) :=
    ⟨.inr List.mem_cons_self, by decide, by decide⟩
  have R2 : Run (mb 16) [mb 2] self2 s2 [4136] :=
    R1.call hallowed trivial hrun2 (by rw [heq2, heq1]; exact hC)
  have hlist : (if alignUp 1 + 56 < 8192 then
      [] ++ FreeList.split 40 16 (alignUp 1) ⟨4096, 8192, false⟩ ++ [⟨12328, 8112, true⟩]
      else [] ++ (⟨4096, 8192, false⟩ : Block) :: [⟨12328, 8112, true⟩]) =
      [⟨4096, 4096, false⟩, ⟨8232, 4056, true⟩, ⟨12328, 8112, true⟩] := by decide
  simp only [hlist] at H2
  refine ⟨self2, s2, _, _, R2, H2.wellFormed, fun h => ?_⟩
  obtain ⟨-, -, hsep, -⟩ := (@Coalesced.append_cons _
    [⟨4096, 4096, false⟩, ⟨8232, 4056, true⟩] _ _).mp h
  exact hsep _ rfl ⟨rfl, rfl, rfl⟩

/-! ### Counters -/

/-- The call looks for a block of `k` bytes, in terms of the headers. -/
def Requests (s : Machine) : Call → Nat → Prop
  | .malloc size, k => size ≠ 0 ∧ k = alignUp size
  | .calloc num size, k => num * size ≠ 0 ∧ num * size < 2 ^ 64 ∧ k = alignUp (num * size)
  | .realloc ptr newSize, k => newSize ≠ 0 ∧ k = alignUp newSize ∧
    (ptr = 0 ∨ ∃ n, headerAt s (ptr - 40) = some n ∧ n.size < k)
  | .free _, _ => False

/-- A block that the call finds is of the size that it looks for, or is split. -/
def HandsOutExactly (self : Heap) (s : Machine) (call : Call) : Prop :=
  ∀ k, Requests s call k → ∀ block n, (findFreeBlock self k).run s = (.ok block, s) → block ≠ 0 →
    headerAt s block = some n → n.size = k ∨ k + minBlockSize ≤ n.size

theorem Inv.fitsExactly (H : Inv W dirs self bs others s) (hl : live.Perm (pointers 40 bs))
    (hcall : Allowed live call) (h : HandsOutExactly self s call) :
    call.FitsExactly 40 alignUp bs := by
  intro k hk
  have hk : Requests s call k := by
    cases call with
    | malloc size => exact hk
    | calloc num size => exact hk
    | realloc ptr newSize =>
      obtain ⟨h0, rfl, hlt⟩ := hk
      refine ⟨h0, rfl, hcall.1.imp_right fun hp => ?_⟩
      obtain ⟨b, hb, rfl⟩ := used_of_pointer (hl.subset hp)
      obtain ⟨n, hn, hsize, -⟩ := H.headerAt_of_mem (mem_used.mp hb).1
      rw [Nat.add_sub_cancel]
      exact ⟨n, hn, hsize ▸ hlt b hb rfl⟩
    | free ptr => exact hk
  intro r hr
  have hmem : r.2.1 ∈ bs := by
    rw [(firstFit_eq_some hr).1]
    simp
  obtain ⟨n, hn, hsize, -⟩ := H.headerAt_of_mem hmem
  have hrun := H.findFreeBlock_run k
  rw [hr] at hrun
  exact hsize ▸ h k hk _ n hrun (H.listed.nonnull _ hmem) hn

/-- `total_allocated_` is right, and `total_free_` is 80 bytes off for each block that splitting has
added to the regions' own and coalescing has not removed. -/
structure Counted (heap : Heap) (bs : List Block) : Prop where
  allocated : heap.totalAllocated = usedSize bs
  free : (heap.totalFree + 80 * heap.regions.length) % 2 ^ 64 =
    (freeSize bs + 80 * bs.length) % 2 ^ 64
  small : heap.totalFree < 2 ^ 64

/-- The blocks are disjoint below `2 ^ 39`. -/
theorem Inv.size_le (H : Inv W dirs self bs others s) :
    40 * bs.length + usedSize bs + freeSize bs ≤ 2 ^ 39 := by
  rw [← size_extents]
  refine sum_size_le (fun r hr => ?_) fun a => ?_
  · obtain ⟨b, hb, rfl⟩ := List.mem_map.mp hr
    exact H.listed.top b hb
  · obtain ⟨v, -, hv⟩ := H.virt
    have h1 := hv.cover a
    have h2 := Span.ind_le_one ⟨0, Virt.vaddrSize⟩ a
    rw [cover_append] at h1
    rw [H.cover a]
    omega

/-- A new heap. -/
theorem Counted.new {size addr : Nat} (h1 : self.totalAllocated = 0)
    (h2 : self.totalFree = alignUp size - 40) (h3 : self.regions.length = 1) :
    Counted self [⟨addr, alignUp size - 40, true⟩] := by
  have h4 := alignUp_lt size
  have h5 : freeSize [⟨addr, alignUp size - 40, true⟩] = alignUp size - 40 := by
    rw [freeSize_cons, if_pos rfl, freeSize_nil, Nat.add_zero]
  refine ⟨?_, by rw [h2, h3, h5, List.length_singleton], by omega⟩
  rw [h1, usedSize_cons, if_pos rfl, usedSize_nil]

/-- Counters that follow the list stay right: its blocks hold less than they can count. -/
theorem Counted.step (hc : Counted self bs) (H : Inv W dirs self bs others s)
    (H' : Inv W dirs self' bs' others' s') (ht : Tallied self self' bs bs') :
    Counted self' bs' := by
  obtain ⟨h1, h2, h3⟩ := hc
  obtain ⟨h4, h5, h6⟩ := ht
  have h7 := H.size_le
  have h8 := H'.size_le
  obtain ⟨h9, h10⟩ := h6 ⟨by rw [h1]; clear h2 h4 h5; omega, h3⟩
  refine ⟨?_, ?_, h10⟩
  · rw [h1] at h4
    clear h2 h5
    omega
  · clear h4
    omega

theorem RunWhere.counted (h : RunWhere HandsOutExactly W dirs self s live) :
    ∃ bs others, Inv W dirs self bs others s ∧ Counted self bs := by
  obtain ⟨bs, others, H, -, hc⟩ := h.inv_of (P := Counted) (fun _ h1 h2 h3 _ => .new h1 h2 h3)
    fun H hl hallowed hok hc H' _ ht => hc.step H H' (ht (H.fitsExactly hl hallowed hok))
  exact ⟨bs, others, H, hc⟩

end
end Heap
end Coronel
