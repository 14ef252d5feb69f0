import Coronel.Verify.UserRuns

/-!
# The health of a user heap

When the counters of a user heap follow its list, and when its blocks come together again. `realloc`
cuts a block without counting and without coalescing, a block that is handed out whole is counted by
the size that was asked for, and a heap that grows does not count the block it gets.
-/

namespace Coronel

open Theory Theory.Bytes

namespace UserAllocator

/-! ### Counters -/

/-- By how much `num_blocks_` is off from the construction on: by the first block, if there is one. -/
def uncounted (heap₀ : UserAllocator) : Nat := if heap₀.firstBlock = 0 then 0 else 1

/-- The counters follow the list of a heap that ends where it ended at first. -/
structure Counted (heap₀ heap : UserAllocator) (bs : List Block) : Prop where
  allocated : heap.totalAllocated = usedSize bs
  numbered : bs.length = heap.numBlocks + uncounted heap₀
  heapCurrent : heap.heapCurrent = heap₀.heapCurrent

section
variable {W : Nat} {dirs : List Nat} {rest : List Page} {s s' : Machine}
  {heap₀ self self' : UserAllocator} {bs bs' xs ys : List Block} {live : List Nat} {call : Call}

/-- The bytes of the blocks, below 1 GB. -/
theorem Inv.size_le (H : Inv W dirs self rest bs s) :
    24 * bs.length + usedSize bs + freeSize bs ≤ 2 ^ 30 := by
  have h1 := H.tiles.size_eq
  have h2 := H.top
  have h3 : userHeapMaxAddr = 2 ^ 30 := by decide
  omega

/-- A heap has blocks if it has pages. -/
theorem Inv.length_pos_iff (H : Inv W dirs self rest bs s) :
    0 < bs.length ↔ self.heapStart < self.heapCurrent := by
  have h := H.tiles.size_eq
  cases bs with
  | nil =>
    rw [usedSize_nil, freeSize_nil] at h
    simp only [List.length_nil] at h ⊢
    omega
  | cons b bs =>
    rw [List.length_cons] at h ⊢
    omega

theorem Inv.uncounted_eq (H : Inv W dirs heap₀ rest bs s) :
    uncounted heap₀ = if heap₀.heapStart < heap₀.heapCurrent then 1 else 0 := by
  have h := H.length_pos_iff
  rw [uncounted, H.first]
  cases bs with
  | nil =>
    rw [headAddr_nil, if_pos rfl, if_neg (h.not.mp (Nat.lt_irrefl 0))]
  | cons b bs =>
    rw [headAddr_cons, if_neg (H.listed.nonnull b List.mem_cons_self), if_pos (h.mp (Nat.succ_pos _))]

/-- A new heap. -/
theorem Counted.new (h : Built W dirs heap₀ rest bs s s') : Counted heap₀ heap₀ bs := by
  refine ⟨?_, ?_, rfl⟩
  · rw [h.totalAllocated, h.blocks]
    split <;> rfl
  · have hk := h.inv.uncounted_eq
    have hpos := h.inv.length_pos_iff
    have hlen : bs.length ≤ 1 := by
      rw [h.blocks]
      split
      · exact Nat.le_refl 1
      · exact Nat.zero_le 1
    rw [hk, h.numBlocks]
    split <;> omega

/-- A call that does not grow the heap leaves its end. -/
theorem After.heapCurrent_eq {r : Nat × UserAllocator}
    (h : After W dirs self rest bs bs' call s r s') (hno : ∀ n, Asks bs call n → ¬Grows self s bs n) :
    r.2.heapCurrent = self.heapCurrent := by
  by_cases hasks : ∃ n, Asks bs call n
  · obtain ⟨n, hasks⟩ := hasks
    rcases h.extent n hasks with ⟨hg, -⟩ | ⟨-, heq, -⟩
    · exact absurd hg (hno n hasks)
    · exact heq
  · exact h.inPlace fun n hn => hasks ⟨n, hn⟩

/-- Counters that follow the list stay right. -/
theorem Counted.step {r : Nat × UserAllocator} (hc : Counted heap₀ self bs)
    (h : Held W dirs self bs s live) (hafter : After W dirs self [] bs bs' call s r s')
    (hcuts : ¬Cuts bs call)
    (hasks : ∀ n, Asks bs call n → FitsExactly 24 16 (roundSize n) bs ∧ ¬Grows self s bs n) :
    Counted heap₀ r.2 bs' := by
  have hsize := h.inv.size_le
  have hsize' := hafter.inv.size_le
  have hcur := hafter.heapCurrent_eq fun n hn => (hasks n hn).2
  obtain ⟨halloc, hnum, hend⟩ := hc
  have htallied := hafter.tallied (fun n hn => (hasks n hn).1) hcuts
  have hnumbered := hafter.numbered fun n hn => (hasks n hn).2
  have hpos : uncounted heap₀ ≤ bs'.length := by
    have h1 := h.inv.length_pos_iff
    have h2 := hafter.inv.length_pos_iff
    rw [hcur, hafter.inv.start, ← h.inv.start] at h2
    have hle : uncounted heap₀ ≤ 1 := by
      unfold uncounted
      split <;> omega
    omega
  refine ⟨?_, ?_, hcur.trans hend⟩
  · have h1 := htallied.allocated
    have h2 := htallied.small (by omega)
    rw [halloc] at h1
    omega
  · have h1 := hnumbered.blocks
    have h2 := hnumbered.small (by omega)
    rw [hnum] at h1
    omega

/-- The call is a `realloc` that cuts its block, and the block behind it is free and contiguous. -/
def CutsBesideFree (s : Machine) : Call → Prop
  | .realloc ptr newSize => ptr ≠ 0 ∧ newSize ≠ 0 ∧ ∃ n m, headerAt s (ptr - 24) = some n ∧
    roundSize newSize + 40 < n.size ∧ headerAt s n.next = some m ∧ n.next ≠ 0 ∧
      m.free = true ∧ ptr + n.size = n.next
  | _ => False

theorem Held.cutsApart (h : Held W dirs self bs s live) (hno : ¬CutsBesideFree s call) :
    call.CutsApart 24 roundSize bs := by
  cases call with
  | realloc ptr newSize =>
    rintro h0 xs b y ys rfl hb rfl hk ⟨hfree, hadj⟩
    have hb' : headerAt s (b.addr + 24 - 24) = some ⟨b.size, b.free, y.addr, lastAddr 0 xs⟩ := by
      rw [Nat.add_sub_cancel]
      exact h.inv.headerAt_eq h.current
    obtain ⟨m, hm, -, hmf⟩ := h.inv.headerAt_of_mem h.current (b := y) (by simp)
    exact hno ⟨by omega, h0, _, m, hb', by simp only; omega, hm, h.inv.listed.nonnull y (by simp),
      hmf.trans hfree, hadj⟩
  | _ => trivial

end
end UserAllocator
end Coronel
