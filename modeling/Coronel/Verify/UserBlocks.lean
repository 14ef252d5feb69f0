import Coronel.Kernel.UserAllocator
import Coronel.Verify.Blocks

/-!
# Headers of a user heap

How a `user_block` lies in memory: its accessors read and write the headers of `UserBlock.layout`,
as long as blocks stay below `USER_HEAP_MAX_ADDR`, where a 32-bit size cannot wrap.
-/

namespace Coronel

open Theory Theory.Bytes

/-! ### Layout -/

namespace UserBlock

/-- The flags of a block: the free bit with the magic value that goes with it. -/
def flagsOf (free : Bool) : Nat := (if free then flagFree else 0) ||| if free then magicFree else magicUsed

/-- The fields of a header whose magic value agrees with its free bit. -/
structure Header (m : Mem) (a : Nat) (n : Node) : Prop where
  size : load m 4 a = n.size
  flags : load m 4 (a + 4) = flagsOf n.free
  next : load m 8 (a + 8) = n.next
  prev : load m 8 (a + 16) = n.prev

/-- The header at `a`, when its flags are those of a free or of a used block. -/
def node (m : Mem) (a : Nat) : Option Node :=
  if load m 4 (a + 4) = flagsOf (load m 4 (a + 4) == flagsOf true) then
    some ⟨load m 4 a, load m 4 (a + 4) == flagsOf true, load m 8 (a + 8), load m 8 (a + 16)⟩
  else
    none

theorem flagsOf_beq (f : Bool) : (flagsOf f == flagsOf true) = f := by cases f <;> decide

theorem node_eq_some {m : Mem} {a : Nat} {n : Node} : node m a = some n ↔ Header m a n := by
  rw [node, Option.ite_none_right_eq_some, Option.some.injEq]
  constructor
  · rintro ⟨h, rfl⟩
    exact ⟨rfl, h, rfl, rfl⟩
  · rintro ⟨h1, h2, h3, h4⟩
    rw [h2, flagsOf_beq, h1, h3, h4]
    exact ⟨rfl, rfl⟩

theorem node_congr {m m' : Mem} {a : Nat} (h : ∀ i < 24, m' (a + i) = m (a + i)) :
    node m' a = node m a := by
  have hl : ∀ k j, j + k ≤ 24 → load m' k (a + j) = load m k (a + j) := fun k j hj =>
    load_congr fun i hi => by rw [Nat.add_assoc]; exact h _ (by omega)
  have h0 : load m' 4 a = load m 4 a := hl 4 0 (by decide)
  unfold node
  rw [h0, hl 4 4 (by decide), hl 8 8 (by decide), hl 8 16 (by decide)]

/-- The layout of `user_block`. -/
def layout : Layout := ⟨sizeofUserBlock, node, by decide, node_congr⟩

theorem layout_hd : layout.hd = 24 := rfl

theorem flagsOf_lt (f : Bool) : flagsOf f < 2 ^ 32 := by cases f <;> decide

variable {m : Mem} {b v : Nat} {n : Node}

theorem Header.store_size (h : Header m b n) (hv : v < 2 ^ 32) :
    Header (store m 4 b v) b { n with size := v } := by
  refine ⟨load_store_of_lt hv, ?_, ?_, ?_⟩ <;> rw [load_store_disjoint (by omega)]
  exacts [h.flags, h.next, h.prev]

theorem Header.store_next (h : Header m b n) (hv : v < 2 ^ 64) :
    Header (store m 8 (b + 8) v) b { n with next := v } := by
  refine ⟨?_, ?_, load_store_of_lt hv, ?_⟩ <;> rw [load_store_disjoint (by omega)]
  exacts [h.size, h.flags, h.prev]

theorem Header.store_prev (h : Header m b n) (hv : v < 2 ^ 64) :
    Header (store m 8 (b + 16) v) b { n with prev := v } := by
  refine ⟨?_, ?_, ?_, load_store_of_lt hv⟩ <;> rw [load_store_disjoint (by omega)]
  exacts [h.size, h.flags, h.next]

/-- The flags are stored twice, the second time with the magic value. -/
theorem Header.store_free (h : Header m b n) (x : Nat) (f : Bool) :
    Header (store (store m 4 (b + 4) x) 4 (b + 4) (flagsOf f)) b { n with free := f } := by
  refine ⟨?_, load_store_of_lt (flagsOf_lt f), ?_, ?_⟩ <;>
    rw [load_store_disjoint (by omega), load_store_disjoint (by omega)]
  exacts [h.size, h.next, h.prev]

/-- What the constructor writes is a header. -/
theorem Header.store_new (x : Nat) (f : Bool) (hv : v < 2 ^ 32) :
    Header (store (store (store (store (store m 4 (b + 0) v) 4 (b + 4) x) 8 (b + 8) 0)
      8 (b + 16) 0) 4 (b + 4) (flagsOf f)) b ⟨v, f, 0, 0⟩ := by
  refine ⟨?_, load_store_of_lt (flagsOf_lt f), ?_, ?_⟩
  · iterate 4 rw [load_store_disjoint (by omega)]
    exact load_store_of_lt hv
  · iterate 2 rw [load_store_disjoint (by omega)]
    exact load_store_of_lt (by decide)
  · rw [load_store_disjoint (by omega)]
    exact load_store_of_lt (by decide)

end UserBlock

/-! ### Accessors -/

section
variable {W : Nat} {dirs : List Nat} {owned : List Page} {s₀ s : Machine} {m : Mem} {b : Nat}
  {n : Node} {v : Nat}

theorem UserBlock.flags_run (h : Wrote W dirs owned m s₀ s) (hc : Covers owned s₀.cr3 b 24) :
    (flags b).run s = (.ok (load m 4 (b + 4)), s) := by
  rw [flags, h.add64_field hc (by decide), h.load_field hc (by decide)]

theorem UserBlock.setFlags_run (h : Wrote W dirs owned m s₀ s) (hc : Covers owned s₀.cr3 b 24)
    (v : Nat) : ∃ s', (setFlags b v).run s = (.ok (), s') ∧
      Wrote W dirs owned (store m 4 (b + 4) v) s₀ s' := by
  rw [setFlags, h.add64_field hc (by decide)]
  exact h.store_field hc (by decide) v

theorem UserBlock.setSize_run (h : Wrote W dirs owned m s₀ s) (hc : Covers owned s₀.cr3 b 24)
    (hn : Header m b n) (hv : v < 2 ^ 32) :
    Writes layout W dirs owned s₀ s m b (setSize b v) { n with size := v } := by
  obtain ⟨s', hrun, hw⟩ := h.store_field hc (j := 0) (k := 4) (by decide) v
  exact ⟨s', _, hrun, hw, node_eq_some.mpr (hn.store_size hv), Layout.Touches.store (by decide)⟩

theorem UserBlock.setNext_run (h : Wrote W dirs owned m s₀ s) (hc : Covers owned s₀.cr3 b 24)
    (hn : Header m b n) (hv : v < 2 ^ 64) :
    Writes layout W dirs owned s₀ s m b (setNext b v) { n with next := v } := by
  obtain ⟨s', hrun, hw⟩ := h.store_field hc (j := 8) (k := 8) (by decide) v
  refine ⟨s', _, ?_, hw, node_eq_some.mpr (hn.store_next hv), Layout.Touches.store (by decide)⟩
  rw [setNext, h.add64_field hc (by decide), hrun]

theorem UserBlock.setPrev_run (h : Wrote W dirs owned m s₀ s) (hc : Covers owned s₀.cr3 b 24)
    (hn : Header m b n) (hv : v < 2 ^ 64) :
    Writes layout W dirs owned s₀ s m b (setPrev b v) { n with prev := v } := by
  obtain ⟨s', hrun, hw⟩ := h.store_field hc (j := 16) (k := 8) (by decide) v
  refine ⟨s', _, ?_, hw, node_eq_some.mpr (hn.store_prev hv), Layout.Touches.store (by decide)⟩
  rw [setPrev, h.add64_field hc (by decide), hrun]

/-- `set_free` keeps neither the old flag nor the old magic value. -/
theorem UserBlock.flagsOf_kept (f g : Bool) :
    (flagsOf f &&& (2 ^ 32 - 1 - (flagFree ||| magicMask))) ||| (if g then flagFree else 0) =
      if g then flagFree else 0 := by
  cases f <;> cases g <;> decide

theorem UserBlock.load_flags (f : Bool) :
    load (store m 4 (b + 4) (if f then flagFree else 0)) 4 (b + 4) = if f then flagFree else 0 :=
  load_store_of_lt (by cases f <;> decide)

theorem UserBlock.setFree_run (f : Bool) (h : Wrote W dirs owned m s₀ s)
    (hc : Covers owned s₀.cr3 b 24) (hn : Header m b n) :
    Writes layout W dirs owned s₀ s m b (setFree b f) { n with free := f } := by
  obtain ⟨s1, r1, w1⟩ := setFlags_run h hc (if f then flagFree else 0)
  obtain ⟨s2, r2, w2⟩ := setFlags_run w1 hc (flagsOf f)
  refine ⟨s2, _, ?_, w2, node_eq_some.mpr (hn.store_free _ f),
    ((Layout.Touches.store (by decide)).trans (Layout.Touches.store (by decide))).subset (by simp)⟩
  rw [flagsOf] at r2
  rw [setFree, Prog.run_bind_ok (flags_run h hc), hn.flags]
  simp only [flagsOf_kept]
  rw [Prog.run_bind_ok r1, Prog.run_bind_ok (flags_run w1 hc), load_flags, r2]

theorem UserBlock.new_run (f : Bool) (h : Wrote W dirs owned m s₀ s)
    (hc : Covers owned s₀.cr3 b 24) (hv : v < 2 ^ 32) :
    Writes layout W dirs owned s₀ s m b (new b v f) ⟨v, f, 0, 0⟩ := by
  obtain ⟨s1, r1, w1⟩ := h.store_field hc (j := 0) (k := 4) (by decide) v
  obtain ⟨s2, r2, w2⟩ := setFlags_run w1 hc (if f then flagFree else 0)
  obtain ⟨s3, r3, w3⟩ := w2.store_field hc (j := 8) (k := 8) (by decide) 0
  obtain ⟨s4, r4, w4⟩ := w3.store_field hc (j := 16) (k := 8) (by decide) 0
  obtain ⟨s5, r5, w5⟩ := setFlags_run w4 hc (flagsOf f)
  have ht : layout.Touches [b] m (store m 4 (b + 0) v) := Layout.Touches.store (by decide)
  refine ⟨s5, _, ?_, w5, node_eq_some.mpr (Header.store_new _ f hv),
    ((((ht.trans (Layout.Touches.store (by decide))).trans
      (Layout.Touches.store (by decide))).trans (Layout.Touches.store (by decide))).trans
      (Layout.Touches.store (by decide))).subset (by simp)⟩
  have e8 := h.add64_field hc (j := 8) (by decide)
  have e16 := h.add64_field hc (j := 16) (by decide)
  rw [Nat.add_zero] at r1
  rw [flagsOf] at r5
  rw [new, setSize, setNext, setPrev, e8, e16, Prog.run_bind_ok r1, Prog.run_bind_ok r2,
    Prog.run_bind_ok r3, Prog.run_bind_ok r4, Prog.run_bind_ok (flags_run w4 hc),
    load_store_disjoint (by omega), load_store_disjoint (by omega), load_flags, r5]

end

/-- The accessors of `user_block` read and write its layout below `USER_HEAP_MAX_ADDR`. -/
theorem userBlock_lawful : userBlock.Lawful UserBlock.layout userHeapMaxAddr where
  sizeof := rfl
  small := by decide
  size_run h hc hn := by
    have := h.load_field hc (j := 0) (k := 4) (by decide)
    rw [Nat.add_zero, (UserBlock.node_eq_some.mp hn).size] at this
    exact this
  isFree_run {_ _ _ _ _ _ b n} h hc hn := by
    change (UserBlock.isFree b).run _ = _
    rw [UserBlock.isFree, Prog.run_bind_ok (UserBlock.flags_run h hc),
      (UserBlock.node_eq_some.mp hn).flags]
    cases n.free <;> rfl
  next_run {_ _ _ _ _ _ b n} h hc hn := by
    change (UserBlock.next b).run _ = _
    rw [UserBlock.next, h.add64_field hc (by decide), h.load_field hc (by decide),
      (UserBlock.node_eq_some.mp hn).next]
  prev_run {_ _ _ _ _ _ b n} h hc hn := by
    change (UserBlock.prev b).run _ = _
    rw [UserBlock.prev, h.add64_field hc (by decide), h.load_field hc (by decide),
      (UserBlock.node_eq_some.mp hn).prev]
  isValid_run {_ _ _ _ _ _ b n} h hc hn := by
    change (UserBlock.isValid b).run _ = _
    rw [UserBlock.isValid, Prog.run_bind_ok (UserBlock.flags_run h hc),
      (UserBlock.node_eq_some.mp hn).flags]
    cases n.free <;> rfl
  setSize_run h hc hn hv :=
    UserBlock.setSize_run h hc (UserBlock.node_eq_some.mp hn) (Nat.lt_trans hv (by decide))
  setNext_run h hc hn hv := UserBlock.setNext_run h hc (UserBlock.node_eq_some.mp hn) hv
  setPrev_run h hc hn hv := UserBlock.setPrev_run h hc (UserBlock.node_eq_some.mp hn) hv
  setFree_run f h hc hn := UserBlock.setFree_run f h hc (UserBlock.node_eq_some.mp hn)
  new_run f h hc hv := UserBlock.new_run f h hc (Nat.lt_trans hv (by decide))

end Coronel
