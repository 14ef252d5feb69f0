import Coronel.Verify.HeapFit

/-!
# Aligned allocations

`aligned_alloc` asks `malloc` for the size, the alignment and a word, and rounds the address behind
that word up to a page, whatever the alignment. The word in front of the result holds the pointer
that `malloc` returned. The result lies on the next page boundary, so it is aligned for all
alignments up to a page, and may lie a whole page behind the block's first byte.
-/

namespace Coronel

open Theory Theory.Bytes

namespace Heap

/-- What `aligned_alloc` asks `malloc` for. -/
def alignedSize (alignment size : Nat) : Nat := add64 (add64 size alignment) 8

/-- `q` is aligned, and its bytes and the word in front of them lie in the payload of the block that
`malloc` returned to `aligned_alloc`. -/
def AlignedFits (self : Heap) (s : Machine) (alignment size q : Nat) : Prop :=
  q ≠ 0 → alignment ∣ q ∧ ∃ p self₁ s₁,
    (malloc self (alignedSize alignment size)).run s = (.ok (p, self₁), s₁) ∧
    ∀ x, q - 8 ≤ x → x < q + size → x ∈ payloadAt s₁ p

/-- `b` is the block that `malloc(n)` takes: the first that fits, in the list or, when it has none
and the heap can grow, in the list with the new region. -/
def Takes (s : Machine) (bs : List Block) (n : Nat) (b : Block) : Prop :=
  n ≠ 0 ∧ ((∃ xs ys, FirstFit n bs xs b ys) ∨ (∀ x ∈ bs, ¬Fits n x) ∧
    Expandable n ∧ CanGrow s (alignUp n + HeapBlock.sizeofHeapBlock) ∧
      ∃ xs ys, FirstFit n (grownList s (alignUp n + HeapBlock.sizeofHeapBlock) bs) xs b ys)

/-- The size of the block `b` once `malloc(n)` has taken it. -/
def takenSize (n : Nat) (b : Block) : Nat :=
  if b.size < alignUp n + minBlockSize then b.size else alignUp n

/-- The block that is taken has room: the bytes fit behind its next page boundary or, for alignments
above a page, that boundary is aligned and the sum of the sizes does not wrap. -/
def LeavesRoom (s : Machine) (bs : List Block) (alignment size : Nat) : Prop :=
  ∀ b, Takes s bs (alignedSize alignment size) b →
    if alignment ≤ 4096 then
      size + (4096 - (b.addr + 40) % 4096) ≤ takenSize (alignedSize alignment size) b
    else size + alignment + 8 + 4095 < 2 ^ 64 ∧ alignment ∣ alignUp (b.addr + 48)

/-- The client writes bytes among the `size` that it has at `q`, on pages of the heap. -/
inductive ClientWrites (heap : Heap) (q size : Nat) : Machine → Machine → Prop
  | refl {s} : ClientWrites heap q size s s
  | write {s s' s'' x v} : ClientWrites heap q size s s' → q ≤ x → x < q + size →
    ⟨s'.cr3, x / 4096⟩ ∈ heap.pages s'.cr3 → (store8 x v).run s' = (.ok (), s'') →
    ClientWrites heap q size s s''

/-- The header in front of `p` says that its block is free. -/
def Released (s : Machine) (p : Nat) : Prop :=
  ∃ n, HeapBlock.node (vmem s.ram s.cr3) (p - 40) = some n ∧ n.free = true

/-- Whatever the client writes into its bytes, `kfree(q)` gives the block of `p` back. -/
def Releasable (heap : Heap) (s : Machine) (q size p : Nat) : Prop :=
  ∀ s', ClientWrites heap q size s s' →
    ∃ s'', (kfree q).run s' = (.ok (), s'') ∧ Released s'' p

section
variable {W : Nat} {dirs : List Nat} {s s' : Machine} {self self' : Heap} {bs xs ys : List Block}
  {others : List Span} {live : List Nat} {n k p q r v size : Nat} {b c : Block}

theorem FirstFit.unique {xs' ys' : List Block} (h : FirstFit n bs xs b ys)
    (h' : FirstFit n bs xs' c ys') : b = c := by
  have := (firstFit_iff.mpr h).symm.trans (firstFit_iff.mpr h')
  simp only [Option.some.injEq, Prod.mk.injEq] at this
  exact this.2.1

/-- `malloc` takes at most one block. -/
theorem Takes.unique (h : Takes s bs n b) (h' : Takes s bs n c) : b = c := by
  obtain ⟨-, ⟨xs, ys, hb⟩ | ⟨hnone, -, -, xs, ys, hb⟩⟩ := h
  · obtain ⟨-, ⟨xs', ys', hc⟩ | ⟨hnone, -⟩⟩ := h'
    · exact hb.unique hc
    · exact absurd hb.2.1 (hnone b (by rw [hb.1]; simp))
  · obtain ⟨-, ⟨xs', ys', hc⟩ | ⟨-, -, -, xs', ys', hc⟩⟩ := h'
    · exact absurd hc.2.1 (hnone c (by rw [hc.1]; simp))
    · exact hb.unique hc

theorem Takes.le_takenSize (h : Takes s bs n b) : alignUp n ≤ takenSize n b := by
  have hfit : Fits n b := by
    obtain ⟨-, ⟨xs, ys, hb⟩ | ⟨-, -, -, xs, ys, hb⟩⟩ := h <;> exact hb.2.1
  rw [takenSize]
  split
  · exact hfit.2
  · exact Nat.le_refl _

theorem mem_take : ⟨b.addr, takenSize n b, false⟩ ∈ xs ++ FreeList.take 40 16 (alignUp n) b ++ ys := by
  have hmin : minBlockSize = 40 + 16 := rfl
  rw [takenSize, hmin, FreeList.take, FreeList.split]
  simp only
  split <;> simp

/-- A list that has grown is backed: the new region is not empty. -/
theorem Inv.backed_grownList (H : Inv W dirs self bs others s) (hb : Backed 40 bs)
    (hexp : Expandable n) : Backed 40 (grownList s (alignUp n + HeapBlock.sizeofHeapBlock) bs) := by
  obtain ⟨v, hv, -⟩ := H.virt
  have hle := le_alignUp hexp
  have hmod := alignUp_mod (alignUp n + HeapBlock.sizeofHeapBlock)
  have h40 : HeapBlock.sizeofHeapBlock = 40 := rfl
  rw [grownList, hv]
  exact (hb.snoc (by simp only; omega)).coalesce

/-- What `malloc` returns is the block that it takes. -/
theorem Inv.malloc_takes (H : Inv W dirs self bs others s) (h0 : n ≠ 0) (hexp : Expandable n)
    (hrun : (malloc self n).run s = (.ok (r, self'), s')) (hC : s' ∈ Promise W) :
    r = 0 ∧ (∀ b, ¬Takes s bs n b) ∨ ∃ b bs' others', Takes s bs n b ∧ r = b.addr + 40 ∧
      Inv W dirs self' bs' others' s' ∧ ⟨b.addr, takenSize n b, false⟩ ∈ bs' ∧
      (Backed 40 bs → Backed 40 bs') := by
  cases H.malloc_cases h0 hexp hrun hC with
  | found hfit _ _ H' =>
    refine .inr ⟨_, _, _, ⟨h0, .inl ⟨_, _, hfit⟩⟩, rfl, H', mem_take, fun hb => ?_⟩
    obtain ⟨rfl, -⟩ := hfit
    exact hb.take (by decide)
  | grown hnone _ hcan _ hfit _ _ H' =>
    refine .inr ⟨_, _, _, ⟨h0, .inr ⟨hnone, hexp, hcan, _, _, hfit⟩⟩, rfl, H', mem_take,
      fun hb => ?_⟩
    have hgrown := H.backed_grownList hb hexp
    rw [hfit.1] at hgrown
    exact hgrown.take (by decide)
  | refused hnone _ hcan H' =>
    refine .inl ⟨rfl, ?_⟩
    rintro b ⟨-, ⟨xs, ys, hb⟩ | ⟨-, -, h, -⟩⟩
    · exact hnone b (by rw [hb.1]; simp) hb.2.1
    · exact hcan h

/-- A request that is for no bytes, or for zero pages where nothing is mapped, takes no block. -/
theorem Inv.not_takes (H : Inv W dirs self bs others s) (h : n = 0 ∨ ¬Expandable n) : ¬Takes s bs n b := by
  rintro ⟨h0, ⟨xs, ys, hb⟩ | ⟨-, hexp, -⟩⟩
  · have hal := alignUp_of_not_expandable (h.resolve_left h0)
    have hmem : b ∈ bs := by
      rw [hb.1]
      simp
    have htop := H.listed.top b hmem
    have hle := hb.2.1.2
    omega
  · exact h.elim h0 fun h => h hexp

/-! ### The address -/

/-- The test for powers of two. -/
theorem two_pow_and_pred (hk : k < 64) : 2 ^ k &&& sub64 (2 ^ k) 1 = 0 := by
  have h1 : 1 ≤ 2 ^ k := Nat.one_le_two_pow
  have h2 : 2 ^ k < 2 ^ 64 := Nat.pow_lt_pow_right (by decide) hk
  rw [sub64_eq h1 h2, Nat.and_two_pow_sub_one_eq_mod, Nat.mod_self]

/-- The page boundary behind a pointer that is a multiple of 8, at least a word away. -/
theorem alignUp_add_word (h8 : p % 8 = 0) (hp : p < 2 ^ 40) :
    alignUp (p + 8) = p + (4096 - p % 4096) := by
  rw [alignUp_eq (by omega)]
  omega

/-- `aligned_alloc` of a power of two: `malloc` returns null, or the word is stored. -/
theorem alignedAlloc_cases (hk : k < 64)
    (hrun : (alignedAlloc self (2 ^ k) size).run s = (.ok (q, self'), s')) :
    ∃ p s₁, (malloc self (alignedSize (2 ^ k) size)).run s = (.ok (p, self'), s₁) ∧
      s₁ ≤ s' ∧ (p = 0 ∧ q = 0 ∧ s' = s₁ ∨ p ≠ 0 ∧ q = alignUp (add64 p 8) ∧
        (storeN 8 (sub64 q 8) p).run s₁ = (.ok (), s')) := by
  have hpos : 2 ^ k ≠ 0 := (Nat.two_pow_pos k).ne'
  have htest : ¬(2 ^ k = 0 ∨ 2 ^ k &&& sub64 (2 ^ k) 1 ≠ 0) := by
    rw [two_pow_and_pred hk]
    exact fun h => h.elim hpos fun h => h rfl
  rw [alignedAlloc, if_neg htest] at hrun
  obtain ⟨⟨p, self₁⟩, s₁, hrun1, hrun2⟩ := Prog.run_bind_eq_ok.mp hrun
  by_cases h0 : p = 0
  · rw [if_pos h0] at hrun2
    cases hrun2
    exact ⟨p, s', hrun1, le_refl s', .inl ⟨h0, rfl, rfl⟩⟩
  · rw [if_neg h0] at hrun2
    obtain ⟨_, s₂, hrun3, hrun4⟩ := Prog.run_bind_eq_ok.mp hrun2
    cases hrun4
    exact ⟨p, s₁, hrun1, Prog.le_of_run hrun3, .inr ⟨h0, rfl, hrun3⟩⟩

/-- Alignments up to a page divide page boundaries. -/
theorem two_pow_dvd_of_le (hk : 2 ^ k ≤ 4096) (hq : q % 4096 = 0) : 2 ^ k ∣ q := by
  have h12 : k ≤ 12 := (Nat.pow_le_pow_iff_right (by decide : 1 < 2)).mp hk
  exact (Nat.pow_dvd_pow 2 h12).trans (Nat.dvd_of_mod_eq_zero hq)

/-- The bytes behind the boundary lie in a block of the heap exactly when they do not end behind
it. -/
theorem Inv.fits_iff (H : Inv W dirs self bs others s) (hc : c ∈ bs)
    (hq : q = c.addr + 40 + (4096 - (c.addr + 40) % 4096)) :
    (∀ x, q - 8 ≤ x → x < q + size → x ∈ payloadAt s (c.addr + 40)) ↔
      size + (4096 - (c.addr + 40) % 4096) ≤ c.size := by
  have h8 := H.aligned c hc
  rw [H.payloadAt_eq hc]
  simp only [Block.mem_payload]
  constructor
  · intro h
    have := h (q + size - 1) (by omega) (by omega)
    omega
  · intro h x h1 h2
    omega

/-- **Aligned allocation.** In every state that harmless calls reach, what `aligned_alloc` returns is
aligned and fits into its block if the block that `malloc` takes leaves room. Unless it asks
`expand_heap` for zero pages, only if. -/
theorem Reached.alignedFits_iff (h : Reached W dirs self s live) (hk : k < 64) (hsize : size < 2 ^ 64)
    (hrun : (alignedAlloc self (2 ^ k) size).run s = (.ok (q, self'), s')) (hC : s' ∈ Promise W) :
    ∃ bs, WellFormed self bs s ∧
      (Expandable (alignedSize (2 ^ k) size) ∨ Quiet s →
        (AlignedFits self s (2 ^ k) size q ↔ LeavesRoom s bs (2 ^ k) size)) := by
  obtain ⟨bs, others, H, -⟩ := h.inv
  refine ⟨bs, H.wellFormed, fun hh => ?_⟩
  obtain ⟨p, s₁, hrun1, hle, hcase⟩ := alignedAlloc_cases hk hrun
  have hC1 := (Promise W).lower hle hC
  obtain ⟨n, hn⟩ : ∃ n, n = alignedSize (2 ^ k) size := ⟨_, rfl⟩
  rw [← hn] at hh hrun1
  have hnone : p = 0 → (∀ b, ¬Takes s bs n b) →
      (AlignedFits self s (2 ^ k) size q ↔ LeavesRoom s bs (2 ^ k) size) := by
    rintro rfl hno
    rcases hcase with ⟨-, rfl, -⟩ | ⟨h, -⟩
    · refine iff_of_true (fun h => absurd rfl h) fun b hb => ?_
      rw [← hn] at hb
      exact absurd hb (hno b)
    · exact absurd rfl h
  by_cases h0 : n = 0
  · rw [h0, malloc, if_pos rfl] at hrun1
    cases hrun1
    exact hnone rfl fun b => H.not_takes (.inl h0)
  by_cases hexp : Expandable n
  swap
  · obtain ⟨h, -⟩ := malloc_quiet H (hh.resolve_left hexp) hexp hrun1
    cases h
    exact hnone rfl fun b => H.not_takes (.inr hexp)
  rcases H.malloc_takes h0 hexp hrun1 hC1 with ⟨rfl, hno⟩ | ⟨b, bs', others', hb, rfl, H', hc, -⟩
  · exact hnone rfl hno
  have h8 := (H'.aligned _ hc).1
  have htop := H'.listed.top _ hc
  simp only [HeapBlock.layout_hd] at h8 htop
  obtain ⟨-, hq, -⟩ := hcase.resolve_left fun h => by omega
  have hadd : add64 (b.addr + 40) 8 = b.addr + 48 := add64_eq (by omega)
  have hbound : alignUp (b.addr + 48) = b.addr + 40 + (4096 - (b.addr + 40) % 4096) :=
    alignUp_add_word (by omega) (by omega)
  have hmod := alignUp_mod (b.addr + 48)
  rw [hadd] at hq
  have hfits := @Inv.fits_iff _ _ _ _ _ _ q size _ H' hc (hq.trans hbound)
  simp only at hfits
  have hpow : 2 ^ k ≤ 2 ^ 63 := Nat.pow_le_pow_right (by decide) (by omega)
  constructor
  · intro hfit c hc
    rw [← hn] at hc ⊢
    obtain rfl := hc.unique hb
    obtain ⟨hdvd, p, self₁, s₂, hrun2, hin⟩ := hfit (by omega)
    rw [← hn] at hrun2
    cases hrun1.symm.trans hrun2
    have hroom := hfits.mp hin
    split
    · exact hroom
    · exact ⟨by omega, hq ▸ hdvd⟩
  · intro hroom _
    have hroom := hroom b (hn ▸ hb)
    rw [← hn] at hroom
    refine ⟨?_, b.addr + 40, self', s₁, hn ▸ hrun1, hfits.mpr ?_⟩
    · split at hroom
      · next h => exact two_pow_dvd_of_le h (by omega)
      · exact hq ▸ hroom.2
    · split at hroom
      · exact hroom
      · next h =>
        -- the alignment makes up for the distance to the boundary
        have hadd : add64 size (2 ^ k) = size + 2 ^ k := add64_eq (by omega)
        have hsum : n = size + 2 ^ k + 8 := by
          rw [hn, alignedSize, hadd]
          exact add64_eq (by omega)
        have htaken := hb.le_takenSize
        have hle : n ≤ alignUp n := le_alignUp (by omega)
        omega

/-! ### An aligned allocation from a new heap -/

/-- A new heap, as the global one, hands out its first page for an aligned allocation. -/
theorem exists_aligned (h0 : alignedSize (2 ^ 4) size ≠ 0)
    (hal : alignUp (alignedSize (2 ^ 4) size) = 4096) : ∃ self s self' s₁ s₂,
      Run (mb 16) [mb 2] self s [] ∧ s.gKernelHeap = some self ∧
      (∃ others, Inv (mb 16) [mb 2] self [⟨4096, 16344, true⟩] others s) ∧
      (malloc self (alignedSize (2 ^ 4) size)).run s = (.ok (4136, self'), s₁) ∧
      payloadAt s₁ 4136 = ⟨4136, 4096⟩ ∧
      (alignedAlloc self (2 ^ 4) size).run s = (.ok (8192, self'), s₂) ∧
      s₂ ∈ Promise (mb 16) := by
  obtain ⟨self, s₀, R, H₀, hC₀, -⟩ := exists_run
  obtain ⟨s, hs⟩ : ∃ s, s = { s₀ with gKernelHeap := some self } := ⟨_, rfl⟩
  have hm : Meanwhile (mb 16) [mb 2] self [] s₀ s := by
    obtain ⟨v, hv, hvi⟩ := H₀.virt
    rw [hs]
    exact ⟨H₀.space.setHeap _, rfl, ⟨v, _, hv, hvi⟩, fun _ _ _ => rfl⟩
  have hrun : Run (mb 16) [mb 2] self s [] := (R _).meanwhile hm
  obtain ⟨others, H⟩ := hm.inv H₀ .nil
  have hfit : FreeList.firstFit (alignUp (alignedSize (2 ^ 4) size)) [⟨4096, 16344, true⟩] =
      some ([], ⟨4096, 16344, true⟩, []) := by
    rw [hal]
    decide
  obtain ⟨self', s₁, hrun1, H1, heq, -⟩ := H.malloc_run h0 hfit
  have hmem : ⟨4096, 4096, false⟩ ∈ [] ++
      FreeList.take 40 16 (alignUp (alignedSize (2 ^ 4) size)) ⟨4096, 16344, true⟩ ++ [] := by
    rw [hal]
    decide
  have hpay : payloadAt s₁ 4136 = ⟨4136, 4096⟩ := H1.payloadAt_eq hmem
  have hcov : Covers (self'.pages s₁.cr3) s₁.cr3 8184 8 :=
    (H1.listed.covers _ hmem).mono (by decide) (by decide)
  obtain ⟨s₂, hstore, w⟩ := storeN_run H1.space hcov 4136
  refine ⟨self, s, self', s₁, s₂, hrun, by rw [hs], ⟨others, H⟩, hrun1, hpay, ?_, ?_⟩
  · have hup : alignUp (add64 4136 8) = 8192 := by decide
    have hsub : sub64 8192 8 = 8184 := by decide
    have htest : ¬(2 ^ 4 = 0 ∨ 2 ^ 4 &&& sub64 (2 ^ 4) 1 ≠ 0) := by decide
    have hrun1 : (malloc self (add64 (add64 size (2 ^ 4)) 8)).run s = (.ok (4136, self'), s₁) := hrun1
    rw [alignedAlloc, if_neg htest]
    simp only
    rw [Prog.run_bind_ok hrun1, if_neg (Nat.succ_ne_zero 4135)]
    simp only [hup, hsub]
    rw [Prog.run_bind_ok hstore]
    rfl
  · rw [w.eq, heq, hs]
    exact hC₀

/-- Eight bytes fit behind the boundary. -/
theorem Reached.alignedFits_iff_small : ∃ self s self' s' bs,
    (alignedAlloc self (2 ^ 4) 8).run s = (.ok (8192, self'), s') ∧ WellFormed self bs s ∧
    (AlignedFits self s (2 ^ 4) 8 8192 ↔ LeavesRoom s bs (2 ^ 4) 8) := by
  obtain ⟨self, s, self', s₁, s₂, R, -, -, -, -, hrun, hC⟩ :=
    @exists_aligned 8 (by decide) (by decide)
  obtain ⟨bs, hbs, hiff⟩ := Reached.alignedFits_iff (.run R) (by decide) (by decide) hrun hC
  exact ⟨self, s, self', s₂, bs, hrun, hbs, hiff (.inl (by unfold Expandable; decide))⟩

/-- A hundred bytes do not, in a block of one page. -/
theorem Run.not_alignedFits : ∃ self s self' s', Run (mb 16) [mb 2] self s [] ∧
    (alignedAlloc self (2 ^ 4) 100).run s = (.ok (8192, self'), s') ∧ s' ∈ Promise (mb 16) ∧
    ¬AlignedFits self s (2 ^ 4) 100 8192 := by
  obtain ⟨self, s, self', s₁, s₂, R, -, -, hmalloc, hpay, hrun, hC⟩ :=
    @exists_aligned 100 (by decide) (by decide)
  refine ⟨self, s, self', s₂, R, hrun, hC, fun h => ?_⟩
  obtain ⟨-, p, self₁, s₃, hmalloc', hin⟩ := h (by decide)
  cases hmalloc.symm.trans hmalloc'
  have := hin 8291 (by decide) (by decide)
  rw [hpay, Span.mem_mk] at this
  omega

/-! ### Release -/

theorem ClientWrites.wrote (h : ClientWrites self q size s s')
    (H : Space W dirs (self.pages s.cr3) s) : ∃ m, Wrote W dirs (self.pages s.cr3) m s s' ∧
      ∀ a < q, m a = view (self.pages s.cr3) s.ram s.cr3 a := by
  induction h with
  | refl => exact ⟨_, .refl H, fun _ _ => rfl⟩
  | write _ hq _ hmem hrun ih =>
    obtain ⟨m, w, hm⟩ := ih
    rw [w.cr3] at hmem
    obtain ⟨s₂, hrun', w'⟩ := store8_run w.space (by rw [w.cr3]; exact hmem) _
    cases hrun.symm.trans hrun'
    refine ⟨_, w.trans w', fun a ha => ?_⟩
    rw [Function.update_of_ne (by omega), w.view_eq]
    exact hm a ha

/-- A word in a page that lies in a block. -/
theorem Inv.covers_word (H : Inv W dirs self bs others s) (hb : Backed 40 bs) (hc : c ∈ bs)
    (h : (p + 7) / 4096 = (c.addr + 40) / 4096) (h' : p / 4096 = (c.addr + 40) / 4096) :
    Covers (self.pages s.cr3) s.cr3 p 8 := by
  obtain ⟨x, hx, hin⟩ := cover_pos_iff.mp (hb c hc)
  obtain ⟨e, he, rfl⟩ := List.mem_map.mp hx
  obtain ⟨h1, h2⟩ := Block.mem_extent.mp hin
  have hm := H.listed.covers e he (c.addr + 40 - e.addr) (by
    rw [HeapBlock.layout_hd]
    omega)
  rw [Nat.add_sub_cancel' h1] at hm
  intro i hi
  rwa [show (p + i) / 4096 = (c.addr + 40) / 4096 by omega]

/-- The lower half of a stored pointer is no magic value. -/
theorem not_magic {m : Mem} (h8 : v % 8 = 0) (hv : v < 2 ^ 64)
    (hm : ∀ i < 4, m (p + i) = store m' 8 p v (p + i)) :
    load m 4 p ≠ HeapBlock.magicFree ∧ load m 4 p ≠ HeapBlock.magicUsed := by
  have h1 : load m 4 p = load (store m' 8 p v) 4 p := load_congr hm
  have h2 := @load_add (store m' 8 p v) p 4 4
  rw [load_store_of_lt hv] at h2
  have h3 : HeapBlock.magicFree % 8 = 7 := by decide
  have h4 : HeapBlock.magicUsed % 8 = 6 := by decide
  omega

/-- `kfree` of a pointer in front of which there is no magic value does nothing. -/
theorem kfree_invalid (hheap : s.gKernelHeap = some self) (h40 : 40 ≤ q) (hq : q < 2 ^ 64)
    {magic : Nat} (hload : (loadN 4 (q - 8)).run s = (.ok magic, s))
    (hm : magic ≠ HeapBlock.magicFree ∧ magic ≠ HeapBlock.magicUsed) :
    (kfree q).run s = (.ok (), s) := by
  have hfrom : heapBlock.fromData q = q - 40 := sub64_eq h40 hq
  have hadd : add64 (q - 40) 32 = q - 8 := by
    rw [add64_eq (by omega)]
    omega
  have hvalid : (heapBlock.isValid (q - 40)).run s = (.ok false, s) := by
    change (HeapBlock.isValid (q - 40)).run s = _
    rw [HeapBlock.isValid, HeapBlock.magic, hadd, Prog.run_bind_ok hload]
    simp only [beq_eq_false_iff_ne.mpr hm.1, beq_eq_false_iff_ne.mpr hm.2, Bool.or_self]
    rfl
  have hblock : (heapBlock.freeBlock q).run s = (.ok none, s) := by
    rw [BlockType.freeBlock, if_neg (by omega), hfrom, Prog.run_bind_ok hvalid]
    rfl
  have hfree : (self.free q).run s = (.ok self, s) := by
    rw [free, Prog.run_bind_ok hblock]
    rfl
  have hset : { s with gKernelHeap := some self } = s := by rw [← hheap]
  rw [kfree, Prog.run_bind_ok (Prog.run_get s)]
  simp only [hheap]
  rw [if_neg (by omega), Prog.run_bind_ok hfree]
  rw [← hset]
  rfl

theorem kmallocAligned_cases (hheap : s.gKernelHeap = some self) {alignment : Nat}
    (hrun : (kmallocAligned alignment size).run s = (.ok q, s')) : ∃ self' s₁,
      (alignedAlloc self alignment size).run s = (.ok (q, self'), s₁) ∧
      s' = { s₁ with gKernelHeap := some self' } := by
  rw [kmallocAligned, Prog.run_bind_ok (Prog.run_get s)] at hrun
  simp only [hheap] at hrun
  obtain ⟨⟨q', self'⟩, s₁, hrun1, hrun2⟩ := Prog.run_bind_eq_ok.mp hrun
  cases hrun2
  exact ⟨self', s₁, hrun1, rfl⟩

/-- `kfree` of an aligned allocation finds the pointer that `aligned_alloc` has stored in place of the
magic value. -/
theorem Inv.kfree_noop (H : Inv W dirs self bs others s) (hback : Backed 40 bs)
    (hheap : s.gKernelHeap = some self) (hk : k < 64)
    (hh : Expandable (alignedSize (2 ^ k) size) ∨ Quiet s)
    (hrun : (kmallocAligned (2 ^ k) size).run s = (.ok q, s')) (hC : s' ∈ Promise W) (hq : q ≠ 0) :
    ∃ self' p s₁, (malloc self (alignedSize (2 ^ k) size)).run s = (.ok (p, self'), s₁) ∧
      ∀ s'', ClientWrites self' q size s' s'' → (kfree q).run s'' = (.ok (), s'') ∧ ¬Released s'' p := by
  obtain ⟨self', s₂, hrun1, rfl⟩ := kmallocAligned_cases hheap hrun
  obtain ⟨p, s₁, hrun2, hle, hcase⟩ := alignedAlloc_cases hk hrun1
  obtain ⟨hp, hqp, hstore⟩ := hcase.resolve_left fun h => hq h.2.1
  have hC1 : s₁ ∈ Promise W := (Promise W).lower hle hC
  obtain ⟨n, hn⟩ : ∃ n, n = alignedSize (2 ^ k) size := ⟨_, rfl⟩
  rw [← hn] at hh hrun2 ⊢
  have h0 : n ≠ 0 := by
    rintro rfl
    rw [malloc, if_pos rfl] at hrun2
    cases hrun2
    exact hp rfl
  have hexp : Expandable n := by
    by_contra hexp
    obtain ⟨h, -⟩ := malloc_quiet H (hh.resolve_left hexp) hexp hrun2
    cases h
    exact hp rfl
  obtain ⟨b, bs', others', -, rfl, H', hc, hb'⟩ :=
    (H.malloc_takes h0 hexp hrun2 hC1).resolve_left fun h => hp h.1
  have h8 := (H'.aligned _ hc).1
  have htop := H'.listed.top _ hc
  simp only [HeapBlock.layout_hd] at h8 htop
  have hadd : add64 (b.addr + 40) 8 = b.addr + 48 := add64_eq (by omega)
  have hbound : q = b.addr + 40 + (4096 - (b.addr + 40) % 4096) := by
    rw [hqp, hadd]
    exact alignUp_add_word (by omega) (by omega)
  have hcov : Covers (self'.pages s₁.cr3) s₁.cr3 (q - 8) 8 :=
    H'.covers_word (hb' hback) hc (by simp only; omega) (by simp only; omega)
  -- the word in front of `q`
  obtain ⟨s₃, hstore', w⟩ := storeN_run H'.space hcov (b.addr + 40)
  rw [← sub64_eq (a := q) (b := 8) (by omega) (by omega)] at hstore'
  cases hstore.symm.trans hstore'
  have hcr : s₂.cr3 = s₁.cr3 := w.cr3
  have hspace : Space W dirs (self'.pages s₂.cr3) { s₂ with gKernelHeap := some self' } := by
    have hw := w.space
    rw [← hcr] at hw
    exact hw.setHeap _
  have hview : view (self'.pages s₂.cr3) s₂.ram s₂.cr3 =
      store (self'.bytes s₁) 8 (q - 8) (b.addr + 40) := by
    rw [hcr]
    exact w.shows
  refine ⟨self', _, s₁, hrun2, fun s'' hcw => ?_⟩
  obtain ⟨m, w', hm⟩ := hcw.wrote hspace
  simp only at w' hm
  rw [hview] at hm
  have hcr' : s''.cr3 = s₁.cr3 := w'.cr3.trans hcr
  have hcov' : Covers (self'.pages s₂.cr3) s''.cr3 (q - 8) 8 := by
    rw [hcr', hcr]
    exact hcov
  have hheap' : s''.gKernelHeap = some self' := by rw [w'.eq]
  have hload := loadN_run w'.space (hcov'.mono (Nat.le_refl _) (by omega : q - 8 + 4 ≤ q - 8 + 8))
  rw [w'.view_eq] at hload
  have hword : ∀ i < 4, m (q - 8 + i) =
      store (self'.bytes s₁) 8 (q - 8) (b.addr + 40) (q - 8 + i) :=
    fun i hi => hm (q - 8 + i) (by omega)
  have hmagic := not_magic (by omega) (by omega) hword
  refine ⟨kfree_invalid hheap' (by omega) (by omega) hload hmagic, ?_⟩
  -- the header of the block is as `malloc` left it
  have hnode : HeapBlock.node (vmem s''.ram s''.cr3) b.addr =
      HeapBlock.node (self'.bytes s₁) b.addr := by
    refine HeapBlock.node_congr fun i hi => ?_
    have hmem := H'.listed.covers _ hc i (by rw [HeapBlock.layout_hd]; omega)
    simp only at hmem
    have hmem' : ⟨s''.cr3, (b.addr + i) / 4096⟩ ∈ self'.pages s₂.cr3 := by
      rw [hcr', hcr]
      exact hmem
    rw [vmem_owned w'.space hmem', w'.view_eq, hm _ (by omega)]
    exact store_of_not_mem (.inl (by omega))
  rintro ⟨nd, hnd, hfree⟩
  obtain ⟨nx, pv, hused⟩ := H'.listed.blocks.chain.header hc
  rw [Nat.add_sub_cancel, hnode] at hnd
  cases hused.symm.trans hnd
  cases hfree

/-- Then the block is not given back. -/
theorem not_releasable (h : ∀ s'', ClientWrites self q size s s'' →
    (kfree q).run s'' = (.ok (), s'') ∧ ¬Released s'' p) : ¬Releasable self s q size p := by
  intro hrel
  obtain ⟨s₁, hrun1, hfreed⟩ := hrel s .refl
  obtain ⟨hrun2, hno⟩ := h s .refl
  cases hrun1.symm.trans hrun2
  exact hno hfreed

/-- **Aligned allocations cannot be released.** In every state that harmless calls reach, whatever
the client writes to an aligned allocation, `kfree` of it changes nothing. -/
theorem Reached.kfree_aligned (h : Reached W dirs self s live) (hheap : s.gKernelHeap = some self)
    (hk : k < 64) (hh : Expandable (alignedSize (2 ^ k) size) ∨ Quiet s)
    (hrun : (kmallocAligned (2 ^ k) size).run s = (.ok q, s')) (hC : s' ∈ Promise W) (hq : q ≠ 0) :
    ∃ self' p s₁, (malloc self (alignedSize (2 ^ k) size)).run s = (.ok (p, self'), s₁) ∧
      ¬Releasable self' s' q size p ∧ ∀ s'', ClientWrites self' q size s' s'' →
        (kfree q).run s'' = (.ok (), s'') ∧ ¬Released s'' p := by
  obtain ⟨bs, others, H, -, hback⟩ := h.inv_of (P := Backed 40)
    (fun h b hb => Backed.pos_of_size hb (by rw [List.mem_singleton.mp hb]; simp only; omega))
    fun hs hb => hs.backed hb
  obtain ⟨self', p, s₁, hmalloc, hall⟩ := H.kfree_noop hback hheap hk hh hrun hC hq
  exact ⟨self', p, s₁, hmalloc, not_releasable hall, hall⟩

/-- Eight bytes from a new heap. -/
theorem exists_kmallocAligned : ∃ self s s' others, Run (mb 16) [mb 2] self s [] ∧
    s.gKernelHeap = some self ∧ Inv (mb 16) [mb 2] self [⟨4096, 16344, true⟩] others s ∧
    (kmallocAligned (2 ^ 4) 8).run s = (.ok 8192, s') ∧ s' ∈ Promise (mb 16) := by
  obtain ⟨self, s, self', s₁, s₂, R, hheap, ⟨others, H⟩, -, -, hrun, hC⟩ :=
    @exists_aligned 8 (by decide) (by decide)
  refine ⟨self, s, { s₂ with gKernelHeap := some self' }, others, R, hheap, H, ?_, hC⟩
  rw [kmallocAligned, Prog.run_bind_ok (Prog.run_get s)]
  simp only [hheap]
  rw [Prog.run_bind_ok hrun]
  rfl

theorem Reached.kfree_aligned_small : ∃ self s s' self' p s₁,
    (kmallocAligned (2 ^ 4) 8).run s = (.ok 8192, s') ∧
    (malloc self (alignedSize (2 ^ 4) 8)).run s = (.ok (p, self'), s₁) ∧
    (kfree 8192).run s' = (.ok (), s') ∧ ¬Released s' p := by
  obtain ⟨self, s, s', others, R, hheap, -, hrun, hC⟩ := exists_kmallocAligned
  obtain ⟨self', p, s₁, hmalloc, -, hall⟩ := Reached.kfree_aligned (.run R) hheap (by decide)
    (.inl (by unfold Expandable; decide)) hrun hC (by decide)
  exact ⟨self, s, s', self', p, s₁, hrun, hmalloc, hall s' .refl⟩

/-- Eight bytes from a new heap are not given back. -/
theorem Run.not_releasable_small : ∃ self s s' self' p s₁, Run (mb 16) [mb 2] self s [] ∧
    s.gKernelHeap = some self ∧ (kmallocAligned (2 ^ 4) 8).run s = (.ok 8192, s') ∧
    (malloc self (alignedSize (2 ^ 4) 8)).run s = (.ok (p, self'), s₁) ∧
    ¬Releasable self' s' 8192 8 p := by
  obtain ⟨self, s, s', others, R, hheap, H, hrun, hC⟩ := exists_kmallocAligned
  have hback : Backed 40 [(⟨4096, 16344, true⟩ : Block)] := fun b hb =>
    Backed.pos_of_size hb (by rw [List.mem_singleton.mp hb]; decide)
  obtain ⟨self', p, s₁, hmalloc, hall⟩ := H.kfree_noop hback hheap (by decide)
    (.inl (by unfold Expandable; decide)) hrun hC (by decide)
  exact ⟨self, s, s', self', p, s₁, R, hheap, hrun, hmalloc, not_releasable hall⟩

end
end Heap
end Coronel
