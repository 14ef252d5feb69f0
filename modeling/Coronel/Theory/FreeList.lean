import Coronel.Theory.BlockList
import Mathlib.Data.List.Chain
import Mathlib.Tactic.Tauto

/-!
# Allocation in a list of blocks

What an allocator with in-band headers does to its list of blocks, without the memory: first fit,
splitting the block that is handed out, and coalescing a freed block with its free neighbours.
Headers take `hd` bytes; a block is split when `hd + rest` bytes are left over.

Each operation keeps the addresses its blocks cover (`cover_*`), a contiguous tiling (`tiles_*`)
and the blocks in use (`used_*`).
-/

namespace Theory

/-- The blocks in use. -/
def used (bs : List Block) : List Block := bs.filter (!·.free)

/-- The free blocks. -/
def unused (bs : List Block) : List Block := bs.filter (·.free)

/-- The bytes the blocks in use hold. -/
def usedSize (bs : List Block) : Nat := ((used bs).map (·.size)).sum

/-- The bytes the free blocks hold. -/
def freeSize (bs : List Block) : Nat := ((unused bs).map (·.size)).sum

/-- A block list that holds only multiples of 8. -/
def Aligned8 (bs : List Block) : Prop := ∀ b ∈ bs, b.addr % 8 = 0 ∧ b.size % 8 = 0

namespace FreeList

variable (hd rest : Nat)

/-- The first free block of at least `k` bytes, with the blocks around it. -/
def firstFit (k : Nat) : List Block → Option (List Block × Block × List Block)
  | [] => none
  | b :: bs =>
    if b.free && k ≤ b.size then some ([], b, bs)
    else (firstFit k bs).map fun r => (b :: r.1, r.2.1, r.2.2)

/-- `b` with `k` bytes, and the free remainder when it is large enough. -/
def split (k : Nat) (b : Block) : List Block :=
  if b.size < k + (hd + rest) then [b]
  else [⟨b.addr, k, b.free⟩, ⟨b.addr + hd + k, b.size - k - hd, true⟩]

/-- The block `b` in use, cut down to `k` bytes when that leaves a block. -/
def take (k : Nat) (b : Block) : List Block := split hd rest k { b with free := false }

/-- `b` takes in the block behind it, when that is free and contiguous. -/
def joinNext (b : Block) : List Block → Block × List Block
  | [] => (b, [])
  | c :: ys =>
    if c.free ∧ b.addr + hd + b.size = c.addr then (⟨b.addr, b.size + hd + c.size, b.free⟩, ys)
    else (b, c :: ys)

/-- The block before `b` takes it in, when it is free and contiguous. -/
def joinPrev (xs : List Block) (b : Block) (ys : List Block) : List Block :=
  match xs.getLast? with
  | none => xs ++ b :: ys
  | some p =>
    if p.free ∧ p.addr + hd + p.size = b.addr then
      xs.dropLast ++ ⟨p.addr, p.size + hd + b.size, p.free⟩ :: ys
    else xs ++ b :: ys

/-- `b` is joined with its neighbours. -/
def coalesce (xs : List Block) (b : Block) (ys : List Block) : List Block :=
  joinPrev hd xs (joinNext hd b ys).1 (joinNext hd b ys).2

end FreeList

/-! ### Facts -/

section
open FreeList

variable {hd rest k : Nat} {xs ys bs : List Block} {b : Block}

@[simp] theorem used_append : used (xs ++ ys) = used xs ++ used ys := List.filter_append ..

@[simp] theorem used_cons_of_free (h : b.free = true) : used (b :: bs) = used bs := by
  simp [used, h]

@[simp] theorem used_cons_of_used (h : b.free = false) : used (b :: bs) = b :: used bs := by
  simp [used, h]

@[simp] theorem used_nil : used [] = [] := rfl

theorem mem_used : b ∈ used bs ↔ b ∈ bs ∧ b.free = false := by simp [used]

/-- The other blocks in use. -/
theorem used_erase_perm (h : b.free = false) :
    ((used (xs ++ b :: ys)).erase b).Perm (used xs ++ used ys) := by
  have h1 : (used (xs ++ b :: ys)).Perm (b :: (used xs ++ used ys)) := by
    rw [used_append, used_cons_of_used h]
    exact List.perm_middle
  have h2 := List.perm_cons_erase (mem_used.mpr ⟨by simp, h⟩ : b ∈ used (xs ++ b :: ys))
  exact (h2.symm.trans h1).cons_inv

theorem firstFit_eq_some {k : Nat} {r : List Block × Block × List Block}
    (h : firstFit k bs = some r) : bs = r.1 ++ r.2.1 :: r.2.2 ∧ r.2.1.free = true ∧
      k ≤ r.2.1.size ∧ ∀ x ∈ r.1, ¬(x.free = true ∧ k ≤ x.size) := by
  induction bs generalizing r with
  | nil => cases h
  | cons c bs ih =>
    rw [firstFit] at h
    split at h
    · next hc =>
      cases h
      rw [Bool.and_eq_true, decide_eq_true_eq] at hc
      exact ⟨rfl, hc.1, hc.2, by simp⟩
    · next hc =>
      obtain ⟨r', h1, rfl⟩ := Option.map_eq_some_iff.mp h
      obtain ⟨rfl, h2, h3, h4⟩ := ih h1
      rw [Bool.and_eq_true, decide_eq_true_eq] at hc
      exact ⟨rfl, h2, h3, by simpa using ⟨by simpa using hc, by simpa using h4⟩⟩

theorem firstFit_eq_none {k : Nat} :
    firstFit k bs = none ↔ ∀ x ∈ bs, ¬(x.free = true ∧ k ≤ x.size) := by
  induction bs with
  | nil => simp [firstFit]
  | cons c bs ih =>
    rw [firstFit]
    split
    · next hc =>
      rw [Bool.and_eq_true, decide_eq_true_eq] at hc
      simp only [reduceCtorEq, false_iff]
      exact fun h => h c List.mem_cons_self hc
    · next hc =>
      rw [Bool.and_eq_true, decide_eq_true_eq] at hc
      rw [Option.map_eq_none_iff, ih, List.forall_mem_cons]
      exact (and_iff_right hc).symm

/-- Where a join takes place. -/
theorem joinNext_cases (hd : Nat) (b : Block) (ys : List Block) :
    joinNext hd b ys = (b, ys) ∧ (∀ c ∈ ys.head?, ¬(c.free ∧ b.addr + hd + b.size = c.addr)) ∨
      ∃ c ys', ys = c :: ys' ∧ c.free = true ∧ b.addr + hd + b.size = c.addr ∧
        joinNext hd b ys = (⟨b.addr, b.size + hd + c.size, b.free⟩, ys') := by
  cases ys with
  | nil => exact .inl ⟨rfl, by simp⟩
  | cons c ys =>
    by_cases hc : c.free ∧ b.addr + hd + b.size = c.addr
    · exact .inr ⟨c, ys, rfl, hc.1, hc.2, if_pos hc⟩
    · exact .inl ⟨if_neg hc, by simpa using hc⟩

@[simp] theorem FreeList.joinNext_addr (hd : Nat) (b : Block) (ys : List Block) :
    (joinNext hd b ys).1.addr = b.addr := by
  rcases joinNext_cases hd b ys with ⟨h, -⟩ | ⟨c, ys, rfl, -, -, h⟩ <;> rw [h]

theorem joinPrev_cases (hd : Nat) (xs : List Block) (b : Block) (ys : List Block) :
    joinPrev hd xs b ys = xs ++ b :: ys ∧
        (∀ p ∈ xs.getLast?, ¬(p.free ∧ p.addr + hd + p.size = b.addr)) ∨
      ∃ xs' p, xs = xs' ++ [p] ∧ p.free = true ∧ p.addr + hd + p.size = b.addr ∧
        joinPrev hd xs b ys = xs' ++ ⟨p.addr, p.size + hd + b.size, p.free⟩ :: ys := by
  rcases List.eq_nil_or_concat' xs with rfl | ⟨xs', p, rfl⟩
  · exact .inl ⟨rfl, by simp⟩
  · by_cases hc : p.free ∧ p.addr + hd + p.size = b.addr
    · exact .inr ⟨xs', p, rfl, hc.1, hc.2, by
        simp only [joinPrev, List.getLast?_concat, List.dropLast_concat, if_pos hc]⟩
    · exact .inl ⟨by simp only [joinPrev, List.getLast?_concat, if_neg hc], by simpa using hc⟩

theorem cover_split (x : Nat) : cover (extents hd (xs ++ split hd rest k b ++ ys)) x =
    cover (extents hd (xs ++ b :: ys)) x := by
  unfold split
  split
  · simp
  · next h =>
    have := cover_extents_cut hd xs ys b.addr k (b.size - k - hd) b.free true b.free x
    rw [show k + hd + (b.size - k - hd) = b.size by omega] at this
    rw [← this]
    simp

theorem cover_take (x : Nat) : cover (extents hd (xs ++ take hd rest k b ++ ys)) x =
    cover (extents hd (xs ++ b :: ys)) x := by
  rw [take, cover_split]
  exact cover_extents_mark hd xs ys b.addr b.size false b.free x

theorem cover_joinNext (x : Nat) :
    cover (extents hd (xs ++ (joinNext hd b ys).1 :: (joinNext hd b ys).2)) x =
      cover (extents hd (xs ++ b :: ys)) x := by
  rcases joinNext_cases hd b ys with ⟨h, -⟩ | ⟨c, ys, rfl, -, hc, h⟩ <;> rw [h]
  have := cover_extents_cut hd xs ys b.addr b.size c.size b.free c.free b.free x
  rw [hc] at this
  exact this.symm

theorem cover_joinPrev (x : Nat) : cover (extents hd (joinPrev hd xs b ys)) x =
    cover (extents hd (xs ++ b :: ys)) x := by
  rcases joinPrev_cases hd xs b ys with ⟨h, -⟩ | ⟨xs, p, rfl, -, hc, h⟩ <;> rw [h]
  have := cover_extents_cut hd xs ys p.addr p.size b.size p.free b.free p.free x
  rw [hc] at this
  rw [← this, List.append_assoc]
  rfl

theorem cover_coalesce (x : Nat) : cover (extents hd (coalesce hd xs b ys)) x =
    cover (extents hd (xs ++ b :: ys)) x := by
  rw [coalesce, cover_joinPrev, cover_joinNext]

theorem tiles_split {s e : Nat} : Tiles hd s (xs ++ split hd rest k b ++ ys) e ↔
    Tiles hd s (xs ++ b :: ys) e := by
  unfold split
  split
  · simp
  · have : Tiles hd s (xs ++ ⟨b.addr, k, b.free⟩ :: ⟨b.addr + hd + k, b.size - k - hd, true⟩ :: ys) e ↔
        Tiles hd s (xs ++ ⟨b.addr, k + hd + (b.size - k - hd), b.free⟩ :: ys) e := Tiles.cut_iff
    rw [show k + hd + (b.size - k - hd) = b.size by omega] at this
    simpa using this

theorem tiles_take {s e : Nat} : Tiles hd s (xs ++ take hd rest k b ++ ys) e ↔
    Tiles hd s (xs ++ b :: ys) e := by
  rw [take, tiles_split]
  exact Tiles.mark_iff

theorem tiles_joinNext {s e : Nat} :
    Tiles hd s (xs ++ (joinNext hd b ys).1 :: (joinNext hd b ys).2) e ↔
      Tiles hd s (xs ++ b :: ys) e := by
  rcases joinNext_cases hd b ys with ⟨h, -⟩ | ⟨c, ys, rfl, -, hc, h⟩ <;> rw [h]
  have : Tiles hd s (xs ++ ⟨b.addr, b.size, b.free⟩ :: ⟨b.addr + hd + b.size, c.size, c.free⟩ :: ys) e ↔
    Tiles hd s (xs ++ ⟨b.addr, b.size + hd + c.size, b.free⟩ :: ys) e := Tiles.cut_iff
  rw [hc] at this
  exact this.symm

theorem tiles_joinPrev {s e : Nat} :
    Tiles hd s (joinPrev hd xs b ys) e ↔ Tiles hd s (xs ++ b :: ys) e := by
  rcases joinPrev_cases hd xs b ys with ⟨h, -⟩ | ⟨xs, p, rfl, -, hc, h⟩ <;> rw [h]
  have : Tiles hd s (xs ++ ⟨p.addr, p.size, p.free⟩ :: ⟨p.addr + hd + p.size, b.size, b.free⟩ :: ys) e ↔
    Tiles hd s (xs ++ ⟨p.addr, p.size + hd + b.size, p.free⟩ :: ys) e := Tiles.cut_iff
  rw [hc] at this
  rw [← this, List.append_assoc]
  rfl

theorem tiles_coalesce {s e : Nat} :
    Tiles hd s (coalesce hd xs b ys) e ↔ Tiles hd s (xs ++ b :: ys) e := by
  rw [coalesce, tiles_joinPrev, tiles_joinNext]

theorem used_take : used (xs ++ take hd rest k b ++ ys) =
    used xs ++ ⟨b.addr, if b.size < k + (hd + rest) then b.size else k, false⟩ :: used ys := by
  unfold take split
  split <;> simp [used]

theorem used_split (hb : b.free = false) : used (xs ++ split hd rest k b ++ ys) =
    used xs ++ ⟨b.addr, if b.size < k + (hd + rest) then b.size else k, false⟩ :: used ys := by
  unfold split
  split
  · cases b
    cases hb
    simp [used]
  · simp [used, hb]

theorem used_joinNext : used (joinNext hd b ys).2 = used ys := by
  rcases joinNext_cases hd b ys with ⟨h, -⟩ | ⟨c, ys, rfl, hc, -, h⟩ <;> rw [h]
  exact (used_cons_of_free hc).symm

theorem joinNext_subset : (joinNext hd b ys).2 ⊆ ys := by
  rcases joinNext_cases hd b ys with ⟨h, -⟩ | ⟨c, ys, rfl, -, -, h⟩ <;> rw [h]
  · exact List.Subset.refl ys
  · exact List.subset_cons_self c ys

/-- Coalescing a free block moves no block in use. -/
theorem used_coalesce (hb : b.free = true) :
    used (coalesce hd xs b ys) = used xs ++ used ys := by
  have hfree : (joinNext hd b ys).1.free = true := by
    rcases joinNext_cases hd b ys with ⟨h, -⟩ | ⟨c, ys, rfl, -, -, h⟩ <;> rw [h] <;> exact hb
  have hnext := And.intro hfree (@used_joinNext hd ys b)
  rw [coalesce]
  rcases joinPrev_cases hd xs (joinNext hd b ys).1 (joinNext hd b ys).2 with
    ⟨h, -⟩ | ⟨xs, p, rfl, hp, -, h⟩ <;> rw [h]
  · rw [used_append, used_cons_of_free hnext.1, hnext.2]
  · rw [used_append, used_cons_of_free (by exact hp), hnext.2, used_append, used_cons_of_free hp,
      used_nil, List.append_nil]

/-- `e` lies in `e'`: it is its front part or lies in its data. -/
structure Block.Within (hd : Nat) (e e' : Block) : Prop where
  free : e'.free = e.free
  addr : e'.addr = e.addr ∨ e'.addr + hd ≤ e.addr
  size : e.addr + e.size ≤ e'.addr + e'.size

theorem Block.Within.refl (b : Block) : b.Within hd b := ⟨rfl, .inl rfl, Nat.le_refl _⟩

theorem Block.Within.trans {b c e : Block} (h : b.Within hd c) (h' : c.Within hd e) :
    b.Within hd e :=
  ⟨h'.free.trans h.free, by have := h.addr; have := h'.addr; omega, h.size.trans h'.size⟩

/-- Every block lies in a block of the coalesced list. -/
theorem coalesce_within (hb : b.free = true) {e : Block} (he : e ∈ xs ++ b :: ys) :
    ∃ e' ∈ coalesce hd xs b ys, e.Within hd e' := by
  have hnext : ∃ e' ∈ xs ++ (joinNext hd b ys).1 :: (joinNext hd b ys).2, e.Within hd e' := by
    rcases joinNext_cases hd b ys with ⟨h, -⟩ | ⟨c, ys, rfl, hc, hadj, h⟩ <;> rw [h]
    · exact ⟨e, he, .refl e⟩
    simp only [List.mem_append, List.mem_cons] at he ⊢
    rcases he with he | rfl | rfl | he
    · exact ⟨e, .inl he, .refl e⟩
    · exact ⟨_, .inr (.inl rfl), rfl, .inl rfl, by simp only; omega⟩
    · exact ⟨_, .inr (.inl rfl), hb.trans hc.symm, .inr (by simp only; omega), by simp only; omega⟩
    · exact ⟨e, .inr (.inr he), .refl e⟩
  have hfree : (joinNext hd b ys).1.free = true := by
    rcases joinNext_cases hd b ys with ⟨h, -⟩ | ⟨c, ys, rfl, -, -, h⟩ <;> rw [h] <;> exact hb
  obtain ⟨c, hc, hw⟩ := hnext
  rw [FreeList.coalesce]
  generalize joinNext hd b ys = r at hc hfree ⊢
  rcases joinPrev_cases hd xs r.1 r.2 with ⟨h, -⟩ | ⟨xs, p, rfl, hp, hadj, h⟩ <;> rw [h]
  · exact ⟨c, hc, hw⟩
  simp only [List.mem_append, List.mem_cons, List.not_mem_nil, or_false] at hc ⊢
  rcases hc with (hc | rfl) | rfl | hc
  · exact ⟨c, .inl hc, hw⟩
  · exact ⟨_, .inr (.inl rfl), hw.trans ⟨rfl, .inl rfl, by simp only; omega⟩⟩
  · exact ⟨_, .inr (.inl rfl), hw.trans ⟨hp.trans hfree.symm, .inr (by simp only; omega),
      by simp only; omega⟩⟩
  · exact ⟨c, .inr (.inr hc), hw⟩

theorem Aligned8.append_cons : Aligned8 (xs ++ b :: ys) ↔
    Aligned8 xs ∧ (b.addr % 8 = 0 ∧ b.size % 8 = 0) ∧ Aligned8 ys := by
  simp only [Aligned8, List.forall_mem_append, List.forall_mem_cons]

theorem Aligned8.split (h : Aligned8 (xs ++ b :: ys)) (hhd : hd % 8 = 0) (hk : k % 8 = 0) :
    Aligned8 (xs ++ split hd rest k b ++ ys) := by
  obtain ⟨h1, h2, h3⟩ := append_cons.mp h
  unfold FreeList.split
  split
  · simpa using h
  · rw [List.append_assoc, List.cons_append, List.singleton_append, append_cons]
    refine ⟨h1, ⟨h2.1, hk⟩, ?_⟩
    intro e he
    rcases List.mem_cons.mp he with rfl | he
    · simp only; omega
    · exact h3 e he

theorem Aligned8.take (h : Aligned8 (xs ++ b :: ys)) (hhd : hd % 8 = 0) (hk : k % 8 = 0) :
    Aligned8 (xs ++ take hd rest k b ++ ys) := by
  rw [FreeList.take]
  refine Aligned8.split ?_ hhd hk
  rw [append_cons] at h ⊢
  exact h

theorem Aligned8.coalesce (h : Aligned8 (xs ++ b :: ys)) (hhd : hd % 8 = 0) :
    Aligned8 (coalesce hd xs b ys) := by
  have hnext : Aligned8 (xs ++ (joinNext hd b ys).1 :: (joinNext hd b ys).2) := by
    rcases joinNext_cases hd b ys with ⟨h', -⟩ | ⟨c, ys, rfl, -, -, h'⟩ <;> rw [h']
    · exact h
    · obtain ⟨h1, h2, h3⟩ := append_cons.mp h
      have h4 := h3 c List.mem_cons_self
      refine append_cons.mpr ⟨h1, ⟨h2.1, by simp only; omega⟩, fun e he => h3 e (by simp [he])⟩
  rw [FreeList.coalesce]
  rcases joinPrev_cases hd xs (joinNext hd b ys).1 (joinNext hd b ys).2 with
    ⟨h', -⟩ | ⟨xs, p, rfl, -, -, h'⟩ <;> rw [h']
  · exact hnext
  · obtain ⟨h1, h2, h3⟩ := append_cons.mp hnext
    have h4 := h1 p (by simp)
    exact append_cons.mpr ⟨fun e he => h1 e (by simp [he]), ⟨h4.1, by simp only; omega⟩, h3⟩

theorem headAddr_take (n : Nat) : headAddr (xs ++ take hd rest k b ++ ys) n =
    headAddr (xs ++ b :: ys) n := by
  unfold take split
  split <;> simp [headAddr_append]

theorem headAddr_split (n : Nat) : headAddr (xs ++ split hd rest k b ++ ys) n =
    headAddr (xs ++ b :: ys) n := by
  unfold split
  split <;> simp [headAddr_append]

theorem headAddr_coalesce (n : Nat) : headAddr (coalesce hd xs b ys) n =
    headAddr (xs ++ b :: ys) n := by
  rw [coalesce]
  rcases joinPrev_cases hd xs (joinNext hd b ys).1 (joinNext hd b ys).2 with
    ⟨h, -⟩ | ⟨xs, p, rfl, -, -, h⟩ <;> rw [h]
  · simp [headAddr_append]
  · simp [headAddr_append]

/-! ### Sizes -/

theorem usedSize_append : usedSize (xs ++ ys) = usedSize xs + usedSize ys := by
  simp [usedSize]

theorem freeSize_append : freeSize (xs ++ ys) = freeSize xs + freeSize ys := by
  simp [freeSize, unused]

theorem usedSize_cons : usedSize (b :: bs) = (if b.free then 0 else b.size) + usedSize bs := by
  cases h : b.free <;> simp [usedSize, used, h]

theorem freeSize_cons : freeSize (b :: bs) = (if b.free then b.size else 0) + freeSize bs := by
  cases h : b.free <;> simp [freeSize, unused, h]

@[simp] theorem freeSize_nil : freeSize [] = 0 := rfl

@[simp] theorem usedSize_nil : usedSize [] = 0 := rfl

/-- All bytes of the blocks, headers included. -/
theorem size_extents : ((extents hd bs).map (·.size)).sum =
    hd * bs.length + usedSize bs + freeSize bs := by
  induction bs with
  | nil => rfl
  | cons b bs ih =>
    rw [extents, List.map_cons, List.map_cons, List.sum_cons, ih, usedSize_cons, freeSize_cons,
      List.length_cons, Nat.mul_succ, Block.extent]
    cases b.free <;> simp only [Bool.false_eq_true, if_true, if_false] <;> omega

/-- The blocks of a range that is tiled fill it. -/
theorem Tiles.size_eq {s e : Nat} (h : Tiles hd s bs e) :
    s + hd * bs.length + usedSize bs + freeSize bs = e := by
  induction bs generalizing s with
  | nil => exact h
  | cons b bs ih =>
    obtain ⟨rfl, h⟩ := h
    have ih := ih h
    rw [List.length_cons, Nat.mul_succ, usedSize_cons, freeSize_cons]
    cases b.free <;> simp only [Bool.false_eq_true, if_true, if_false] <;> omega

/-- First fit finds no block that is larger than `k` and too small to be split. -/
def FitsExactly (hd rest k : Nat) (bs : List Block) : Prop :=
  ∀ r, firstFit k bs = some r → r.2.1.size = k ∨ k + (hd + rest) ≤ r.2.1.size

theorem usedSize_of_free (h : b.free = true) : usedSize (xs ++ b :: ys) =
    usedSize xs + usedSize ys := by
  rw [usedSize_append, usedSize_cons, h, if_pos rfl, Nat.zero_add]

theorem usedSize_take (hb : b.free = true) (hk : b.size = k ∨ k + (hd + rest) ≤ b.size) :
    usedSize (xs ++ take hd rest k b ++ ys) = usedSize (xs ++ b :: ys) + k := by
  rw [usedSize, used_take, usedSize_of_free hb, List.map_append, List.map_cons, List.sum_append,
    List.sum_cons, usedSize, usedSize]
  simp only
  split <;> omega

/-- Each split turns free bytes into one more header. -/
theorem freeSize_take (hb : b.free = true) (hk : b.size = k ∨ k + (hd + rest) ≤ b.size) :
    freeSize (xs ++ take hd rest k b ++ ys) + k + hd * (xs ++ take hd rest k b ++ ys).length =
      freeSize (xs ++ b :: ys) + hd * (xs ++ b :: ys).length := by
  have h1 : freeSize (b :: ys) = b.size + freeSize ys := by rw [freeSize_cons, hb, if_pos rfl]
  rw [freeSize_append, freeSize_append, freeSize_append, h1]
  unfold take split
  simp only
  split
  · simp [freeSize, unused]
    omega
  · simp [freeSize, unused, Nat.mul_add]
    omega

theorem length_take : (xs ++ take hd rest k b ++ ys).length =
    (xs ++ b :: ys).length + if k + (hd + rest) ≤ b.size then 1 else 0 := by
  unfold take split
  simp only
  split
  · rw [if_neg (by omega)]
    simp
  · rw [if_pos (by omega)]
    simp
    omega

theorem usedSize_split (hb : b.free = false) (hk : k + (hd + rest) ≤ b.size) :
    usedSize (xs ++ split hd rest k b ++ ys) + b.size = usedSize (xs ++ b :: ys) + k := by
  rw [usedSize, used_split hb, if_neg (by omega), usedSize, used_append, used_cons_of_used hb]
  simp only [List.map_append, List.map_cons, List.sum_append, List.sum_cons]
  omega

theorem freeSize_split (hb : b.free = false) (hk : k + (hd + rest) ≤ b.size) :
    freeSize (xs ++ split hd rest k b ++ ys) + k +
        hd * (xs ++ split hd rest k b ++ ys).length =
      freeSize (xs ++ b :: ys) + b.size + hd * (xs ++ b :: ys).length := by
  unfold split
  rw [if_neg (by omega)]
  simp only [freeSize_append, freeSize_cons, hb, List.length_append, List.length_cons,
    List.length_nil, Nat.mul_add, Bool.false_eq_true, if_true, if_false, Nat.zero_add]
  have h1 : freeSize [] = 0 := rfl
  omega

theorem usedSize_coalesce (hb : b.free = true) :
    usedSize (coalesce hd xs b ys) = usedSize xs + usedSize ys := by
  rw [usedSize, used_coalesce hb, List.map_append, List.sum_append, usedSize, usedSize]

/-- Each block that is absorbed turns its header into free bytes. -/
theorem freeSize_coalesce (hb : b.free = true) :
    freeSize (coalesce hd xs b ys) + hd * (coalesce hd xs b ys).length =
      freeSize xs + b.size + freeSize ys + hd * (xs.length + ys.length + 1) := by
  have hnext : (joinNext hd b ys).1.free = true ∧
      (joinNext hd b ys).1.size + freeSize (joinNext hd b ys).2 +
        hd * (joinNext hd b ys).2.length = b.size + freeSize ys + hd * ys.length := by
    rcases joinNext_cases hd b ys with ⟨h, -⟩ | ⟨c, ys, rfl, hc, -, h⟩ <;> rw [h]
    · exact ⟨hb, rfl⟩
    · refine ⟨hb, ?_⟩
      simp only [freeSize_cons, hc, if_true, List.length_cons, Nat.mul_add]
      omega
  obtain ⟨hfree, hsize⟩ := hnext
  rw [coalesce]
  generalize joinNext hd b ys = r at hfree hsize ⊢
  rcases joinPrev_cases hd xs r.1 r.2 with ⟨h, -⟩ | ⟨xs, p, rfl, hp, -, h⟩ <;> rw [h]
  · simp only [freeSize_append, freeSize_cons, hfree, if_true, List.length_append,
      List.length_cons, Nat.mul_add]
    omega
  · simp only [freeSize_append, freeSize_cons, hp, if_true, List.length_append,
      List.length_cons, List.length_nil, Nat.mul_add]
    have h1 : freeSize [] = 0 := rfl
    omega

/-! ### Fragmentation -/

/-- `b` and the block `c` behind it in the list are not two halves of one free range. -/
def Separate (hd : Nat) (b c : Block) : Prop :=
  ¬(b.free = true ∧ c.free = true ∧ b.addr + hd + b.size = c.addr)

/-- No two neighbours of the list are both free and contiguous. -/
def Coalesced (hd : Nat) (bs : List Block) : Prop := bs.IsChain (Separate hd)

namespace Coalesced

theorem append_cons : Coalesced hd (xs ++ b :: ys) ↔ Coalesced hd xs ∧ Coalesced hd ys ∧
    (∀ x ∈ xs.getLast?, Separate hd x b) ∧ ∀ y ∈ ys.head?, Separate hd b y := by
  simp only [Coalesced, List.isChain_append, List.isChain_cons, List.head?_cons, Option.mem_some_iff,
    forall_eq']
  tauto

/-- A block in use stands between its neighbours. -/
theorem used (hx : Coalesced hd xs) (hy : Coalesced hd ys) (hb : b.free = false) :
    Coalesced hd (xs ++ b :: ys) :=
  append_cons.mpr ⟨hx, hy, fun _ _ h => by simp [hb] at h, fun _ _ h => by simp [hb] at h⟩

/-- Cutting a block leaves a free remainder, which has to be separate from the next block. -/
theorem split (h : Coalesced hd (xs ++ b :: ys)) (hb : b.free = false)
    (hnext : k + (hd + rest) ≤ b.size →
      ∀ y ∈ ys.head?, ¬(y.free = true ∧ b.addr + hd + b.size = y.addr)) :
    Coalesced hd (xs ++ FreeList.split hd rest k b ++ ys) := by
  obtain ⟨hx, hy, -, -⟩ := append_cons.mp h
  unfold FreeList.split
  split
  · simpa using h
  · next hroom =>
    rw [List.append_assoc, List.cons_append, List.singleton_append]
    refine used hx ((@Coalesced.append_cons _ [] _ _).mpr ⟨List.isChain_nil, hy, by simp, ?_⟩) hb
    rintro y hys ⟨-, h1, h2⟩
    exact hnext (by omega) y hys ⟨h1, by simp only at h2; omega⟩

/-- The remainder of a free block that is handed out ends where the block ended. -/
theorem take (h : Coalesced hd (xs ++ b :: ys)) (hb : b.free = true) :
    Coalesced hd (xs ++ FreeList.take hd rest k b ++ ys) := by
  obtain ⟨hx, hy, -, hnext⟩ := append_cons.mp h
  refine split (used hx hy rfl) rfl fun _ y hys hc => hnext y hys ⟨hb, hc⟩

/-- A free block that is coalesced with its neighbours is separate from what is left of them. -/
theorem coalesce (hx : Coalesced hd xs) (hy : Coalesced hd ys) (hb : b.free = true) :
    Coalesced hd (FreeList.coalesce hd xs b ys) := by
  have hnext : ∃ c zs, joinNext hd b ys = (c, zs) ∧ c.free = true ∧ Coalesced hd zs ∧
      ∀ z ∈ zs.head?, Separate hd c z := by
    rcases joinNext_cases hd b ys with ⟨h, h'⟩ | ⟨c, zs, rfl, hc, hadj, h⟩
    · exact ⟨b, ys, h, hb, hy, fun z hz hs => h' z hz hs.2⟩
    · obtain ⟨-, hzs, -, hsep⟩ := (@Coalesced.append_cons _ [] _ _).mp hy
      refine ⟨_, zs, h, hb, hzs, fun z hz hs => hsep z hz ⟨hc, hs.2.1, ?_⟩⟩
      have := hs.2.2
      simp only at this
      omega
  obtain ⟨c, zs, h, hcf, hzs, hsep⟩ := hnext
  rw [FreeList.coalesce, h]
  rcases joinPrev_cases hd xs c zs with ⟨h, h'⟩ | ⟨xs, p, rfl, hp, hadj, h⟩ <;> rw [h]
  · exact append_cons.mpr ⟨hx, hzs, fun x hxl hs => h' x hxl ⟨hs.1, hs.2.2⟩, hsep⟩
  · obtain ⟨hxs, -, hprev, -⟩ := append_cons.mp hx
    refine append_cons.mpr ⟨hxs, hzs, hprev, fun z hz hs =>
      hsep z hz ⟨hcf, hs.2.1, ?_⟩⟩
    have := hs.2.2
    simp only at this
    omega

end Coalesced

/-! ### Backed lists -/

/-- The address behind every header lies in a block: in that header's own, unless it holds no
bytes. -/
def Backed (hd : Nat) (bs : List Block) : Prop := ∀ b ∈ bs, 0 < cover (extents hd bs) (b.addr + hd)

namespace Backed

theorem pos_of_size (hb : b ∈ bs) (h : 0 < b.size) : 0 < cover (extents hd bs) (b.addr + hd) :=
  cover_pos_iff.mpr ⟨_, List.mem_map_of_mem hb, by rw [Block.mem_extent]; omega⟩

/-- It depends on the addresses that are covered, and on those of the headers. -/
theorem congr {bs' : List Block} (h : Backed hd bs)
    (hc : ∀ x, cover (extents hd bs') x = cover (extents hd bs) x)
    (ha : ∀ e ∈ bs', 0 < e.size ∨ ∃ b ∈ bs, b.addr = e.addr) : Backed hd bs' := by
  intro e he
  rcases ha e he with hs | ⟨b, hb, heq⟩
  · exact pos_of_size he hs
  · rw [hc, ← heq]
    exact h b hb

theorem snoc (h : Backed hd bs) (hb : 0 < b.size) : Backed hd (bs ++ [b]) := by
  intro e he
  rcases List.mem_append.mp he with he | he
  · have := h e he
    rw [extents, List.map_append, cover_append]
    exact Nat.lt_add_right _ this
  · rw [List.mem_singleton.mp he]
    exact pos_of_size (by simp) hb

theorem split (h : Backed hd (xs ++ b :: ys)) (hrest : 0 < rest) :
    Backed hd (xs ++ FreeList.split hd rest k b ++ ys) := by
  refine h.congr cover_split fun e he => ?_
  simp only [List.mem_append] at he
  rcases he with (he | he) | he
  · exact .inr ⟨e, by simp [he], rfl⟩
  · unfold FreeList.split at he
    split at he
    · exact .inr ⟨e, by simp [List.mem_singleton.mp he], rfl⟩
    · rcases List.mem_cons.mp he with rfl | he
      · exact .inr ⟨b, by simp, rfl⟩
      · rw [List.mem_singleton.mp he]
        exact .inl (by simp only; omega)
  · exact .inr ⟨e, by simp [he], rfl⟩

theorem mark {f : Bool} (h : Backed hd (xs ++ b :: ys)) :
    Backed hd (xs ++ ⟨b.addr, b.size, f⟩ :: ys) := by
  refine h.congr (cover_extents_mark hd xs ys b.addr b.size f b.free) fun e he => .inr ?_
  rcases List.mem_append.mp he with he | he
  · exact ⟨e, by simp [he], rfl⟩
  rcases List.mem_cons.mp he with rfl | he
  · exact ⟨b, by simp, rfl⟩
  · exact ⟨e, by simp [he], rfl⟩

theorem take (h : Backed hd (xs ++ b :: ys)) (hrest : 0 < rest) :
    Backed hd (xs ++ FreeList.take hd rest k b ++ ys) := (h.mark (f := false)).split hrest

theorem coalesce (h : Backed hd (xs ++ b :: ys)) : Backed hd (FreeList.coalesce hd xs b ys) := by
  refine h.congr cover_coalesce fun e he => .inr ?_
  have haddr := joinNext_addr hd b ys
  have hsub := @joinNext_subset hd ys b
  rw [FreeList.coalesce] at he
  generalize joinNext hd b ys = r at he haddr hsub
  rcases joinPrev_cases hd xs r.1 r.2 with ⟨h', -⟩ | ⟨xs, p, rfl, -, -, h'⟩ <;> rw [h'] at he
  · rcases List.mem_append.mp he with he | he
    · exact ⟨e, by simp [he], rfl⟩
    rcases List.mem_cons.mp he with rfl | he
    · exact ⟨b, by simp, haddr.symm⟩
    · exact ⟨e, by simp [hsub he], rfl⟩
  · rcases List.mem_append.mp he with he | he
    · exact ⟨e, by simp [he], rfl⟩
    rcases List.mem_cons.mp he with rfl | he
    · exact ⟨p, by simp, rfl⟩
    · exact ⟨e, by simp [hsub he], rfl⟩

end Backed

end
end Theory
