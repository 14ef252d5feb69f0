import Coronel.Kernel.Heap
import Coronel.Verify.Blocks

/-!
# Headers of the kernel heap

How a `heap_block` lies in memory: its accessors read and write the headers of `HeapBlock.layout`.
-/

namespace Coronel

open Theory Theory.Bytes

namespace HeapBlock

/-- The fields of a header that is marked as the magic value says. -/
structure Header (m : Mem) (a : Nat) (n : Node) : Prop where
  size : load m 8 a = n.size
  isFree : load m 1 (a + 8) = if n.free then 1 else 0
  next : load m 8 (a + 16) = n.next
  prev : load m 8 (a + 24) = n.prev
  magic : load m 4 (a + 32) = if n.free then magicFree else magicUsed

/-- The header at `a`, when its flag and its magic value agree. -/
def node (m : Mem) (a : Nat) : Option Node :=
  if load m 1 (a + 8) ≤ 1 ∧
      load m 4 (a + 32) = (if load m 1 (a + 8) == 1 then magicFree else magicUsed) then
    some ⟨load m 8 a, load m 1 (a + 8) == 1, load m 8 (a + 16), load m 8 (a + 24)⟩
  else
    none

theorem node_eq_some {m : Mem} {a : Nat} {n : Node} : node m a = some n ↔ Header m a n := by
  rw [node, Option.ite_none_right_eq_some, Option.some.injEq]
  constructor
  · rintro ⟨⟨h1, h2⟩, rfl⟩
    refine ⟨rfl, ?_, rfl, rfl, h2⟩
    simp only [beq_iff_eq]
    split <;> omega
  · rintro ⟨h1, h2, h3, h4, h5⟩
    have hf : (load m 1 (a + 8) == 1) = n.free := by
      rw [h2]; cases n.free <;> rfl
    have hle : load m 1 (a + 8) ≤ 1 := by rw [h2]; split <;> decide
    rw [hf, h1, h3, h4]
    exact ⟨⟨hle, h5⟩, rfl⟩

theorem node_congr {m m' : Mem} {a : Nat} (h : ∀ i < 40, m' (a + i) = m (a + i)) :
    node m' a = node m a := by
  have hl : ∀ k j, j + k ≤ 40 → load m' k (a + j) = load m k (a + j) := fun k j hj =>
    load_congr fun i hi => by rw [Nat.add_assoc]; exact h _ (by omega)
  have h0 : load m' 8 a = load m 8 a := hl 8 0 (by decide)
  unfold node
  rw [h0, hl 1 8 (by decide), hl 8 16 (by decide), hl 8 24 (by decide), hl 4 32 (by decide)]

/-- The layout of `heap_block`. -/
def layout : Layout := ⟨sizeofHeapBlock, node, by decide, node_congr⟩

theorem layout_hd : layout.hd = 40 := rfl

variable {m : Mem} {b v : Nat} {n : Node}

theorem Header.store_size (h : Header m b n) (hv : v < 2 ^ 64) :
    Header (store m 8 b v) b { n with size := v } := by
  refine ⟨load_store_of_lt hv, ?_, ?_, ?_, ?_⟩ <;> rw [load_store_disjoint (by omega)]
  exacts [h.isFree, h.next, h.prev, h.magic]

theorem Header.store_next (h : Header m b n) (hv : v < 2 ^ 64) :
    Header (store m 8 (b + 16) v) b { n with next := v } := by
  refine ⟨?_, ?_, load_store_of_lt hv, ?_, ?_⟩ <;> rw [load_store_disjoint (by omega)]
  exacts [h.size, h.isFree, h.prev, h.magic]

theorem Header.store_prev (h : Header m b n) (hv : v < 2 ^ 64) :
    Header (store m 8 (b + 24) v) b { n with prev := v } := by
  refine ⟨?_, ?_, ?_, load_store_of_lt hv, ?_⟩ <;> rw [load_store_disjoint (by omega)]
  exacts [h.size, h.isFree, h.next, h.magic]

/-- The flag and the magic value are set together. -/
theorem Header.store_free (h : Header m b n) (f : Bool) :
    Header (store (store m 1 (b + 8) (if f then 1 else 0)) 4 (b + 32)
      (if f then magicFree else magicUsed)) b { n with free := f } := by
  refine ⟨?_, ?_, ?_, ?_, ?_⟩
  · rw [load_store_disjoint (by omega), load_store_disjoint (by omega), h.size]
  · rw [load_store_disjoint (by omega), load_store]
    cases f <;> rfl
  · rw [load_store_disjoint (by omega), load_store_disjoint (by omega), h.next]
  · rw [load_store_disjoint (by omega), load_store_disjoint (by omega), h.prev]
  · rw [load_store]
    cases f <;> rfl

/-- What the constructor writes is a header. -/
theorem Header.store_new (f : Bool) (hv : v < 2 ^ 64) :
    Header (store (store (store (store (store m 8 (b + 0) v) 1 (b + 8) (if f then 1 else 0))
      8 (b + 16) 0) 8 (b + 24) 0) 4 (b + 32) (if f then magicFree else magicUsed)) b
      ⟨v, f, 0, 0⟩ := by
  refine ⟨?_, ?_, ?_, ?_, ?_⟩
  · iterate 4 rw [load_store_disjoint (by omega)]
    exact load_store_of_lt hv
  · iterate 3 rw [load_store_disjoint (by omega)]
    rw [load_store]
    cases f <;> rfl
  · iterate 2 rw [load_store_disjoint (by omega)]
    exact load_store_of_lt (by decide)
  · rw [load_store_disjoint (by omega)]
    exact load_store_of_lt (by decide)
  · rw [load_store]
    cases f <;> rfl

end HeapBlock

/-! ### Accessors -/

/-- The accessors of `heap_block` read and write its layout. -/
theorem heapBlock_lawful : heapBlock.Lawful HeapBlock.layout (2 ^ 39) where
  sizeof := rfl
  small := Nat.le_refl _
  size_run h hc hn := by
    have := h.load_field hc (j := 0) (k := 8) (by decide)
    rw [Nat.add_zero, (HeapBlock.node_eq_some.mp hn).size] at this
    exact this
  isFree_run {_ _ _ _ _ _ b n} h hc hn := by
    change (HeapBlock.isFree b).run _ = _
    rw [HeapBlock.isFree, h.add64_field hc (by decide), Prog.run_bind_ok (h.load_field hc (by decide)),
      (HeapBlock.node_eq_some.mp hn).isFree]
    cases n.free <;> rfl
  next_run {_ _ _ _ _ _ b n} h hc hn := by
    change (HeapBlock.next b).run _ = _
    rw [HeapBlock.next, h.add64_field hc (by decide), h.load_field hc (by decide),
      (HeapBlock.node_eq_some.mp hn).next]
  prev_run {_ _ _ _ _ _ b n} h hc hn := by
    change (HeapBlock.prev b).run _ = _
    rw [HeapBlock.prev, h.add64_field hc (by decide), h.load_field hc (by decide),
      (HeapBlock.node_eq_some.mp hn).prev]
  isValid_run {_ _ _ _ s _ b n} h hc hn := by
    have hm : (HeapBlock.magic b).run s =
        (.ok (if n.free then HeapBlock.magicFree else HeapBlock.magicUsed), s) := by
      rw [HeapBlock.magic, h.add64_field hc (by decide), h.load_field hc (by decide),
        (HeapBlock.node_eq_some.mp hn).magic]
    change (HeapBlock.isValid b).run _ = _
    rw [HeapBlock.isValid, Prog.run_bind_ok hm]
    cases n.free <;> rfl
  setSize_run {_ _ _ _ _ _ _ _ v} h hc hn hv := by
    obtain ⟨s', hrun, hw⟩ := h.store_field hc (j := 0) (k := 8) (by decide) v
    exact ⟨s', _, hrun, hw,
      HeapBlock.node_eq_some.mpr ((HeapBlock.node_eq_some.mp hn).store_size (by omega)),
      Layout.Touches.store (by decide)⟩
  setNext_run {_ _ _ _ _ _ _ _ v} h hc hn hv := by
    obtain ⟨s', hrun, hw⟩ := h.store_field hc (j := 16) (k := 8) (by decide) v
    rw [← h.add64_field hc (by decide)] at hrun
    exact ⟨s', _, hrun, hw,
      HeapBlock.node_eq_some.mpr ((HeapBlock.node_eq_some.mp hn).store_next hv),
      Layout.Touches.store (by decide)⟩
  setPrev_run {_ _ _ _ _ _ _ _ v} h hc hn hv := by
    obtain ⟨s', hrun, hw⟩ := h.store_field hc (j := 24) (k := 8) (by decide) v
    rw [← h.add64_field hc (by decide)] at hrun
    exact ⟨s', _, hrun, hw,
      HeapBlock.node_eq_some.mpr ((HeapBlock.node_eq_some.mp hn).store_prev hv),
      Layout.Touches.store (by decide)⟩
  setFree_run {_ _ _ _ _ _ b _} f h hc hn := by
    obtain ⟨s1, r1, w1⟩ := h.store_field hc (j := 8) (k := 1) (by decide) (if f then 1 else 0)
    obtain ⟨s2, r2, w2⟩ := w1.store_field hc (j := 32) (k := 4) (by decide)
      (if f then HeapBlock.magicFree else HeapBlock.magicUsed)
    rw [← h.add64_field hc (by decide)] at r1 r2
    refine ⟨s2, _, ?_, w2,
      HeapBlock.node_eq_some.mpr ((HeapBlock.node_eq_some.mp hn).store_free f),
      ((Layout.Touches.store (by decide)).trans (Layout.Touches.store (by decide))).subset
        (by simp)⟩
    change (HeapBlock.setFree b f).run _ = _
    rw [HeapBlock.setFree, HeapBlock.setIsFree, HeapBlock.setMagic, Prog.run_bind_ok r1, r2]
  new_run {_ _ _ _ _ m b v} f h hc hv := by
    obtain ⟨s1, r1, w1⟩ := h.store_field hc (j := 0) (k := 8) (by decide) v
    obtain ⟨s2, r2, w2⟩ := w1.store_field hc (j := 8) (k := 1) (by decide) (if f then 1 else 0)
    obtain ⟨s3, r3, w3⟩ := w2.store_field hc (j := 16) (k := 8) (by decide) 0
    obtain ⟨s4, r4, w4⟩ := w3.store_field hc (j := 24) (k := 8) (by decide) 0
    obtain ⟨s5, r5, w5⟩ := w4.store_field hc (j := 32) (k := 4) (by decide)
      (if f then HeapBlock.magicFree else HeapBlock.magicUsed)
    have ht : HeapBlock.layout.Touches [b] m (store m 8 (b + 0) v) :=
      Layout.Touches.store (by decide)
    refine ⟨s5, _, ?_, w5, HeapBlock.node_eq_some.mpr (HeapBlock.Header.store_new f (by omega)),
      ((((ht.trans (Layout.Touches.store (by decide))).trans
        (Layout.Touches.store (by decide))).trans (Layout.Touches.store (by decide))).trans
        (Layout.Touches.store (by decide))).subset (by simp)⟩
    rw [← h.add64_field hc (by decide)] at r2 r3 r4 r5
    change (HeapBlock.new b v f).run _ = _
    rw [HeapBlock.new, HeapBlock.setSize, HeapBlock.setIsFree, HeapBlock.setNext,
      HeapBlock.setPrev, HeapBlock.setMagic, Prog.run_bind_ok (by exact r1), Prog.run_bind_ok r2,
      Prog.run_bind_ok r3, Prog.run_bind_ok r4, r5]

end Coronel
