import Coronel.Verify.HeapRequests

/-!
# Freeing twice

A block that is given back may be taken in by a neighbour. Its header then lies in the data of that
neighbour, and says that the block is free, until the memory is handed out again: `free` only writes
headers of the list, and marks none of them as used. So a second `free` of the pointer does nothing.
-/

namespace Coronel

open Theory Theory.Bytes

namespace Heap

/-- The header in front of `p` is one of a free block, or lies in the data of one, and says that its
block is free. -/
def Freed (bs : List Block) (s : Machine) (p : Nat) : Prop :=
  ∃ a, p = a + 40 ∧ (∃ n, HeapBlock.node (vmem s.ram s.cr3) a = some n ∧ n.free = true) ∧
    ∃ e ∈ bs, Block.Within 40 ⟨a, 0, true⟩ e

/-- The states after `free(p)` when only frees follow, with the live allocations and the pointers
that have been given back: `p` and those after it, and before it others whose memory has not been
handed out again. -/
inductive Frees (W p : Nat) : List Nat → Heap → Machine → List Nat → List Nat → Prop
  | first {dirs self s live freed self' s'} : Reached W dirs self s live → p ∈ live →
    (∀ q ∈ freed, ∃ bs, WellFormed self bs s ∧ Freed bs s q) →
    (self.free p).run s = (.ok self', s') → s' ∈ Promise W →
    Frees W p dirs self' s' (live.erase p) (p :: freed)
  | next {dirs self s live freed q self' s'} : Frees W p dirs self s live freed →
    q ∈ live ∨ q ∈ freed → (self.free q).run s = (.ok self', s') → s' ∈ Promise W →
    Frees W p dirs self' s' (live.erase q) (q :: freed)
  | meanwhile {dirs dirs' self s live freed s'} : Frees W p dirs self s live freed →
    Meanwhile W dirs' self live s s' → Frees W p dirs' self s' live freed

section
variable {W p q : Nat} {dirs dirs' : List Nat} {s s' : Machine} {self self' : Heap}
  {bs xs ys : List Block} {others : List Span} {live freed : List Nat} {a : Nat} {b e : Block}

/-- A header in the block `e`, through CR3. -/
theorem Inv.freeAt_iff (H : Inv W dirs self bs others s) (he : e ∈ bs)
    (hin : Block.Within 40 ⟨a, 0, true⟩ e) :
    (∃ n, HeapBlock.node (vmem s.ram s.cr3) a = some n ∧ n.free = true) ↔
      HeapBlock.layout.FreeAt (self.bytes s) a := by
  have h1 := hin.addr
  have h2 := hin.size
  simp only at h1 h2
  rw [HeapBlock.node_congr fun i hi => H.vmem_eq he (by omega) (by omega)]
  exact Iff.rfl

/-- Such a header overlaps no header of the list. -/
theorem Inv.beside (H : Inv W dirs self bs others s) (he : e ∈ bs)
    (hin : Block.Within 40 ⟨a, 0, true⟩ e) : HeapBlock.layout.Beside bs a := by
  have h1 := hin.addr
  have h2 := hin.size
  simp only at h1 h2
  intro c hc
  rw [HeapBlock.layout_hd]
  by_cases hce : c = e
  · rw [hce]
    omega
  · have := H.apart hc he hce
    omega

/-- `free` of a pointer that was given back does nothing. -/
theorem Inv.free_freed (H : Inv W dirs self bs others s) (hf : Freed bs s p) :
    (self.free p).run s = (.ok self, s) := by
  obtain ⟨a, rfl, hfree, e, he, hin⟩ := hf
  have h1 := hin.addr
  have h2 := hin.size
  simp only at h1 h2
  have htop := H.listed.top e he
  rw [HeapBlock.layout_hd] at htop
  have hcov : Covers (self.pages s.cr3) s.cr3 a 40 := (H.listed.covers e he).mono (by omega)
    (by change a + 40 ≤ e.addr + (40 + e.size); omega)
  obtain ⟨n, hn, hnf⟩ := (H.freeAt_iff he hin).mp hfree
  have hfrom : heapBlock.fromData (a + 40) = a := by
    rw [BlockType.fromData, heapBlock_lawful.sizeof, HeapBlock.layout_hd,
      sub64_eq (by omega) (by omega), Nat.add_sub_cancel]
  have hrun : (heapBlock.freeBlock (a + 40)).run s = (.ok none, s) := by
    rw [BlockType.freeBlock, if_neg (by omega), hfrom,
      Prog.run_bind_ok (heapBlock_lawful.isValid_run (Wrote.refl H.space) hcov hn)]
    simp only [Bool.not_true, Bool.false_eq_true, if_false]
    rw [Prog.run_bind_ok (heapBlock_lawful.isFree_run (Wrote.refl H.space) hcov hn), hnf]
    rfl
  rw [free, Prog.run_bind_ok hrun]
  rfl

/-- `free` of a live pointer leaves it, and all others that were given back, as given back. -/
theorem Inv.free_step (H : Inv W dirs self (xs ++ b :: ys) others s) (hb : b.free = false) :
    ∃ self' s' bs', (self.free (b.addr + 40)).run s = (.ok self', s') ∧
      bs' = FreeList.coalesce 40 xs ⟨b.addr, b.size, true⟩ ys ∧ s' = { s with ram := s'.ram } ∧
      Inv W dirs self' bs' others s' ∧
      (pointers 40 bs').Perm ((pointers 40 (xs ++ b :: ys)).erase (b.addr + 40)) ∧
      Freed bs' s' (b.addr + 40) ∧ ∀ q, Freed (xs ++ b :: ys) s q → Freed bs' s' q := by
  obtain ⟨self', s', hrun, H', hm, -, hlists, heq, hkeeps, hfreed⟩ := free_run H hb
  have hserves : Serves 40 alignUp (xs ++ b :: ys) (.free (b.addr + 40)) _ 0 := .free rfl hb
  refine ⟨self', s', _, hrun, rfl, heq, H', (hserves.live_perm (by decide) (.refl _)).symm, ?_, ?_⟩
  · obtain ⟨e', he', hw⟩ := @coalesce_within 40 xs ys ⟨b.addr, b.size, true⟩ rfl _
      (List.mem_append_right xs List.mem_cons_self)
    have hfront : Block.Within 40 ⟨b.addr, 0, true⟩ ⟨b.addr, b.size, true⟩ :=
      ⟨rfl, .inl rfl, Nat.le_add_right ..⟩
    have hin := hfront.trans hw
    exact ⟨b.addr, rfl, (H'.freeAt_iff he' hin).mpr hfreed, e', he', hin⟩
  · rintro q ⟨a, rfl, hfree, e, he, hin⟩
    have hef : e.free = true := hin.free
    have he₁ : e ∈ xs ++ ⟨b.addr, b.size, true⟩ :: ys := by
      simp only [List.mem_append, List.mem_cons] at he ⊢
      rcases he with he | rfl | he
      · exact .inl he
      · rw [hb] at hef
        cases hef
      · exact .inr (.inr he)
    obtain ⟨e', he', hw⟩ := coalesce_within rfl he₁
    have hin' := hin.trans hw
    refine ⟨a, rfl, (H'.freeAt_iff he' hin').mpr ?_, e', he', hin'⟩
    exact hkeeps a (H.beside he hin) ((H.freeAt_iff he hin).mp hfree)

/-- What happens between frees leaves what was given back. -/
theorem Freed.meanwhile (h : Freed bs s q) (hm : Meanwhile W dirs' self live s s')
    (H : Inv W dirs self bs others s) {others' : List Span} (H' : Inv W dirs' self bs others' s')
    (hl : live.Perm (pointers 40 bs)) : Freed bs s' q := by
  obtain ⟨a, rfl, hfree, e, he, hin⟩ := h
  have h1 := hin.addr
  have h2 := hin.size
  simp only at h1 h2
  refine ⟨a, rfl, (H'.freeAt_iff he hin).mpr ?_, e, he, hin⟩
  obtain ⟨n, hn, hnf⟩ := (H.freeAt_iff he hin).mp hfree
  refine ⟨n, ?_, hnf⟩
  rw [← hn]
  exact HeapBlock.node_congr fun i hi =>
    hm.bytes_eq H hl he (by omega) (by omega) (.inl hin.free)

/-- Every pointer that was given back stays given back, whatever is freed next. -/
theorem Frees.inv (h : Frees W p dirs self s live freed) : p ∈ freed ∧
    ∃ bs others, Inv W dirs self bs others s ∧ live.Perm (pointers 40 bs) ∧
      ∀ q ∈ freed, Freed bs s q := by
  induction h with
  | first h hp hfreed hrun hC =>
    obtain ⟨bs, others, H, hl⟩ := h.inv
    obtain ⟨b, hb, rfl⟩ := used_of_pointer (hl.subset hp)
    obtain ⟨hmem, hbf⟩ := mem_used.mp hb
    obtain ⟨xs, ys, rfl⟩ := List.append_of_mem hmem
    obtain ⟨self', s', bs', hrun', -, -, H', hl', hnew, hold⟩ := H.free_step hbf
    cases hrun.symm.trans hrun'
    refine ⟨List.mem_cons_self, bs', others, H', (hl.erase _).trans hl'.symm, fun q hq => ?_⟩
    rcases List.mem_cons.mp hq with rfl | hq
    · exact hnew
    · obtain ⟨bs₁, hw, hq⟩ := hfreed q hq
      rw [← H.eq_of_wellFormed hw] at hq
      exact hold q hq
  | @next dirs self s live freed q self' s' _ hq hrun hC ih =>
    obtain ⟨hp, bs, others, H, hl, hfreed⟩ := ih
    refine ⟨List.mem_cons_of_mem _ hp, ?_⟩
    by_cases hlive : q ∈ live
    · obtain ⟨b, hb, rfl⟩ := used_of_pointer (hl.subset hlive)
      obtain ⟨hmem, hbf⟩ := mem_used.mp hb
      obtain ⟨xs, ys, rfl⟩ := List.append_of_mem hmem
      obtain ⟨self', s', bs', hrun', -, -, H', hl', hnew, hold⟩ := H.free_step hbf
      cases hrun.symm.trans hrun'
      refine ⟨bs', others, H', (hl.erase _).trans hl'.symm, fun q hq => ?_⟩
      rcases List.mem_cons.mp hq with rfl | hq
      · exact hnew
      · exact hold q (hfreed q hq)
    · -- freed twice
      have hqf := hfreed q (hq.resolve_left hlive)
      cases hrun.symm.trans (H.free_freed hqf)
      rw [List.erase_of_not_mem hlive]
      refine ⟨bs, others, H, hl, fun q hq => ?_⟩
      rcases List.mem_cons.mp hq with rfl | hq
      · exact hqf
      · exact hfreed q hq
  | meanwhile _ hm ih =>
    obtain ⟨hp, bs, others, H, hl, hfreed⟩ := ih
    obtain ⟨others', H'⟩ := hm.inv H hl
    exact ⟨hp, bs, others', H', hl, fun q hq => (hfreed q hq).meanwhile hm H H' hl⟩

end
end Heap
end Coronel
