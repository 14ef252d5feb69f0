import Coronel.Verify.HeapRequests

/-!
# First fit

`malloc` of the kernel heap takes the first block of its list that is free and large enough. When
there is none it expands the heap once, and finds one then: the region that `expand_heap` adds, or
the last block that this region was joined to, is large enough.
-/

namespace Coronel

open Theory Theory.Bytes

namespace Heap

/-- The block serves a request of `n` bytes, rounded to pages. -/
def Fits (n : Nat) (b : Block) : Prop := b.free = true ∧ alignUp n ≤ b.size

/-- `b` is the first block of `bs` that serves the request. -/
def FirstFit (n : Nat) (bs xs : List Block) (b : Block) (ys : List Block) : Prop :=
  bs = xs ++ b :: ys ∧ Fits n b ∧ ∀ x ∈ xs, ¬Fits n x

/-- How `malloc(n)` gets from the list `bs` to the pointer `r`. -/
inductive Placed (n : Nat) (heap : Heap) (bs : List Block) (s : Machine) :
    Nat → Heap → Machine → Prop
  /-- The first block that fits is taken, and the heap is not expanded. -/
  | found {xs b ys heap' s'} : FirstFit n bs xs b ys → heap'.regions = heap.regions →
    s' = { s with ram := s'.ram } →
    WellFormed heap' (xs ++ FreeList.take 40 16 (alignUp n) b ++ ys) s' →
    Placed n heap bs s (b.addr + 40) heap' s'
  /-- No block fits, and the heap is expanded. The first block that fits then is taken. -/
  | grown {heap₁ s₁ bs₁ xs b ys heap' s'} : (∀ x ∈ bs, ¬Fits n x) →
    (expandHeap heap (add64 (alignUp n) HeapBlock.sizeofHeapBlock)).run s = (.ok (true, heap₁), s₁) →
    WellFormed heap₁ bs₁ s₁ → FirstFit n bs₁ xs b ys → heap'.regions = heap₁.regions →
    s' = { s₁ with ram := s'.ram } →
    WellFormed heap' (xs ++ FreeList.take 40 16 (alignUp n) b ++ ys) s' →
    Placed n heap bs s (b.addr + 40) heap' s'
  /-- No block fits, and the heap cannot be expanded. The list is as it was. -/
  | refused {heap' s'} : (∀ x ∈ bs, ¬Fits n x) →
    (expandHeap heap (add64 (alignUp n) HeapBlock.sizeofHeapBlock)).run s = (.ok (false, heap'), s') →
    WellFormed heap' bs s' → Placed n heap bs s 0 heap' s'

/-- The list with the region that `expand_heap(minSize)` adds, joined to the last block. -/
def grownList (s : Machine) (minSize : Nat) (bs : List Block) : List Block :=
  match s.gKernelVirtualManager with
  | none => bs
  | some v => FreeList.coalesce 40 bs
      ⟨(v.alloc (alignUp minSize)).1, alignUp minSize - HeapBlock.sizeofHeapBlock, true⟩ []

/-- How `malloc(n)` ends: a block of the list is taken, or one of the list that was expanded, or
none. -/
inductive Malloced (W : Nat) (dirs : List Nat) (n : Nat) (heap : Heap) (bs : List Block)
    (s : Machine) : Nat → Heap → Machine → Prop
  | found {xs b ys heap' others s'} : FirstFit n bs xs b ys → heap'.regions = heap.regions →
    s' = { s with ram := s'.ram } →
    Inv W dirs heap' (xs ++ FreeList.take 40 16 (alignUp n) b ++ ys) others s' →
    Malloced W dirs n heap bs s (b.addr + 40) heap' s'
  | grown {heap₁ s₁ xs b ys heap' others s'} : (∀ x ∈ bs, ¬Fits n x) →
    (expandHeap heap (add64 (alignUp n) HeapBlock.sizeofHeapBlock)).run s = (.ok (true, heap₁), s₁) →
    CanGrow s (alignUp n + HeapBlock.sizeofHeapBlock) →
    Inv W dirs heap₁ (grownList s (alignUp n + HeapBlock.sizeofHeapBlock) bs) others s₁ →
    FirstFit n (grownList s (alignUp n + HeapBlock.sizeofHeapBlock) bs) xs b ys →
    heap'.regions = heap₁.regions → s' = { s₁ with ram := s'.ram } →
    Inv W dirs heap' (xs ++ FreeList.take 40 16 (alignUp n) b ++ ys) others s' →
    Malloced W dirs n heap bs s (b.addr + 40) heap' s'
  | refused {heap' others s'} : (∀ x ∈ bs, ¬Fits n x) →
    (expandHeap heap (add64 (alignUp n) HeapBlock.sizeofHeapBlock)).run s = (.ok (false, heap'), s') →
    ¬CanGrow s (alignUp n + HeapBlock.sizeofHeapBlock) → Inv W dirs heap' bs others s' →
    Malloced W dirs n heap bs s 0 heap' s'

section
variable {W : Nat} {dirs : List Nat} {s s' : Machine} {self self' : Heap} {bs xs ys : List Block}
  {others : List Span} {live : List Nat} {n r : Nat} {b : Block}

theorem firstFit_iff :
    FreeList.firstFit (alignUp n) bs = some (xs, b, ys) ↔ FirstFit n bs xs b ys := by
  constructor
  · intro h
    obtain ⟨h1, h2, h3, h4⟩ := firstFit_eq_some h
    exact ⟨h1, ⟨h2, h3⟩, h4⟩
  · rintro ⟨rfl, ⟨h2, h3⟩, h4⟩
    induction xs with
    | nil => rw [List.nil_append, FreeList.firstFit, if_pos (by rw [h2, decide_eq_true h3]; rfl)]
    | cons x xs ih =>
      have hx : ¬((x.free && decide (alignUp n ≤ x.size)) = true) := by
        rw [Bool.and_eq_true, decide_eq_true_eq]
        exact h4 x List.mem_cons_self
      rw [List.cons_append, FreeList.firstFit, if_neg hx,
        ih fun y hy => h4 y (List.mem_cons_of_mem x hy)]
      rfl

/-- The first block that fits is handed out, and nothing else happens. -/
theorem Inv.malloc_found (H : Inv W dirs self bs others s) (h0 : n ≠ 0)
    (hfit : FirstFit n bs xs b ys) : ∃ self' s',
      (malloc self n).run s = (.ok (b.addr + 40, self'), s') ∧
      Placed n self bs s (b.addr + 40) self' s' := by
  obtain ⟨self', s', hrun, H', heq, hlists, -⟩ := H.malloc_run h0 (firstFit_iff.mpr hfit)
  exact ⟨self', s', hrun, .found hfit hlists.regions heq H'.wellFormed⟩

/-- Every result of `malloc`. -/
theorem Inv.malloc_cases (H : Inv W dirs self bs others s) (h0 : n ≠ 0) (hexp : Expandable n)
    (hrun : (malloc self n).run s = (.ok (r, self'), s')) (hC : s' ∈ Promise W) :
    Malloced W dirs n self bs s r self' s' := by
  have h8 : alignUp n % 8 = 0 := by have := alignUp_mod n; omega
  have hexp : alignUp n + 40 + 4095 < 2 ^ 64 := hexp
  have hadd : add64 (alignUp n) HeapBlock.sizeofHeapBlock = alignUp n + 40 := by
    rw [HeapBlock.sizeofHeapBlock]
    exact add64_eq (by omega)
  rw [malloc, if_neg h0, Prog.run_bind_ok (H.findFreeBlock_run _)] at hrun
  rcases hf : FreeList.firstFit (alignUp n) bs with _ | ⟨xs, b, ys⟩ <;> rw [hf] at hrun
  swap
  · obtain ⟨hne, self1, s1, hrun1, H1, -, heq, hlists, -⟩ := H.mallocFound_run hf h8
    simp only [Option.map_some, Option.getD_some, ne_eq, hne, not_false_eq_true, if_true] at hrun
    cases hrun.symm.trans hrun1
    exact .found (firstFit_iff.mp hf) hlists.regions heq H1
  have hnone := firstFit_eq_none.mp hf
  simp only [Option.map_none, Option.getD_none, ne_eq, not_true_eq_false, if_false] at hrun
  obtain ⟨⟨grown, self1⟩, s1, hrun1, hrun2⟩ := Prog.run_bind_eq_ok.mp hrun
  have hC1 := (Promise W).lower (Prog.le_of_run hrun2) hC
  obtain ⟨bs1, others1, H1, hgrown, -⟩ :=
    (expandHeap_safe H (by omega) hexp).ok (by rw [← hadd]; exact hrun1) hC1
  rcases hgrown with ⟨h, hcan, c, hc, hcs, haddr, rfl⟩ | ⟨h, hcan, rfl, -⟩
  · obtain rfl : grown = true := h
    simp only [Bool.not_true, Bool.false_eq_true, if_false] at hrun2
    rw [Prog.run_bind_ok (H1.findFreeBlock_run _)] at hrun2
    -- the new region without its header serves the request
    have hle := le_alignUp hexp
    obtain ⟨v, hv, -⟩ := H.virt
    have hlist : FreeList.coalesce 40 bs c [] =
        grownList s (alignUp n + HeapBlock.sizeofHeapBlock) bs := by
      have h40 : alignUp n + HeapBlock.sizeofHeapBlock = alignUp n + 40 := rfl
      have hcb : c = ⟨(v.alloc (alignUp (alignUp n + 40))).1, alignUp (alignUp n + 40) - 40, true⟩ :=
        Block.ext (haddr v hv) (by simp only; omega) hc
      rw [grownList, hv, h40]
      exact congrArg (FreeList.coalesce 40 bs · []) hcb
    rcases hf1 : FreeList.firstFit (alignUp n) (FreeList.coalesce 40 bs c []) with _ | ⟨xs, b, ys⟩
    · exact absurd hf1 (firstFit_grown hc (by omega))
    · obtain ⟨hne, self2, s2, hrun3, H2, -, heq, hlists, -⟩ := H1.mallocFound_run hf1 h8
      rw [hf1] at hrun2
      simp only [Option.map_some, Option.getD_some, if_neg hne] at hrun2
      cases hrun2.symm.trans hrun3
      exact .grown hnone hrun1 hcan (hlist ▸ H1) (firstFit_iff.mp (hlist ▸ hf1)) hlists.regions heq H2
  · obtain rfl : grown = false := h
    simp only [Bool.not_false, if_true] at hrun2
    cases hrun2
    exact .refused hnone hrun1 hcan H1

/-- Every result of `malloc` is placed, whether the heap was expanded or not. -/
theorem Inv.malloc_placed (H : Inv W dirs self bs others s) (h0 : n ≠ 0) (hn : Roundable n)
    (hrun : (malloc self n).run s = (.ok (r, self'), s')) (hC : s' ∈ Promise W) :
    Placed n self bs s r self' s' := by
  cases H.malloc_cases h0 hn.2 hrun hC with
  | found hfit hreg heq H' => exact .found hfit hreg heq H'.wellFormed
  | grown hnone hrun1 _ H1 hfit hreg heq H' =>
    exact .grown hnone hrun1 H1.wellFormed hfit hreg heq H'.wellFormed
  | refused hnone hrun1 _ H' => exact .refused hnone hrun1 H'.wellFormed

/-- **`malloc` is complete and first fit.** In every state that harmless calls reach, a request of
a size that rounds to pages is served from the first block that fits, without an expansion, when the
list has one. When it has none, the heap is expanded once, and the request is refused only if that
fails, with the list as it was. -/
theorem Reached.malloc_firstFit (h : Reached W dirs self s live) (h1 : 1 ≤ n) (hn : Roundable n) :
    ∃ bs, bs ≠ [] ∧ WellFormed self bs s ∧
      (∀ xs b ys, FirstFit n bs xs b ys → ∃ self' s',
        (malloc self n).run s = (.ok (b.addr + 40, self'), s')) ∧
      ∀ r self' s', (malloc self n).run s = (.ok (r, self'), s') → s' ∈ Promise W →
        Placed n self bs s r self' s' := by
  obtain ⟨bs, others, H, -⟩ := h.inv
  refine ⟨bs, H.nonempty, H.wellFormed, fun xs b ys hfit => ?_, fun r self' s' hrun hC => ?_⟩
  · obtain ⟨self', s', hrun, -⟩ := H.malloc_found (by omega) hfit
    exact ⟨self', s', hrun⟩
  · exact H.malloc_placed (by omega) hn hrun hC

/-- A request of 8 bytes takes the one block of a new heap. -/
theorem Reached.malloc_firstFit_new : ∃ self s bs self' s' r, bs ≠ [] ∧ WellFormed self bs s ∧
    (malloc self 8).run s = (.ok (r, self'), s') ∧ Placed 8 self bs s r self' s' := by
  obtain ⟨self, s, R, H, hC, -⟩ := exists_run
  have hn : Roundable 8 := by
    unfold Roundable
    decide
  have hfit : FreeList.firstFit (alignUp 8) [⟨4096, 16344, true⟩] =
      some ([], ⟨4096, 16344, true⟩, []) := by decide
  obtain ⟨self', s', hrun, -, heq, -⟩ := H.malloc_run (by decide) hfit
  obtain ⟨bs, h1, h2, -, h3⟩ := Reached.malloc_firstFit (.run (R _)) (by decide) hn
  exact ⟨self, s, bs, self', s', _, h1, h2, hrun, h3 _ _ _ hrun (by rw [heq]; exact hC)⟩

end
end Heap
end Coronel
