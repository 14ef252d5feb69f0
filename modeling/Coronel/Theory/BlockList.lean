import Coronel.Theory.Span

/-!
# Doubly linked lists of blocks

A heap keeps its memory in blocks, each a header of `hd` bytes followed by its data, and links the
headers in a list. `Chain H p bs n` says that the headers read through `H` form the list `bs`,
entered from `p` and left to `n`. An edit of the list rewrites a few headers; `Chain.split`,
`Chain.join`, `Chain.snoc` and `Chain.mark` say which ones each edit has to rewrite.

The addresses of the blocks are a matter of their extents `[addr, addr + hd + size)`. Cutting a
block in two and joining two contiguous blocks are the same equation read in both directions, for
the number of extents over an address (`cover_extents_cut`) and for a contiguous tiling
(`Tiles.cut_iff`).
-/

namespace Theory

/-- A block: the address of its header, the size of its data, and whether it is free. -/
@[ext] structure Block where
  addr : Nat
  size : Nat
  free : Bool
deriving DecidableEq, Repr

/-- What a header records. -/
structure Node where
  size : Nat
  free : Bool
  next : Nat
  prev : Nat
deriving DecidableEq, Repr

namespace Block

/-- The header and the data of a block. -/
def extent (hd : Nat) (b : Block) : Span := ⟨b.addr, hd + b.size⟩

/-- The data of a block. -/
def payload (hd : Nat) (b : Block) : Span := ⟨b.addr + hd, b.size⟩

@[simp] theorem mem_extent {hd a : Nat} {b : Block} :
    a ∈ b.extent hd ↔ b.addr ≤ a ∧ a < b.addr + (hd + b.size) := Iff.rfl

@[simp] theorem mem_payload {hd a : Nat} {b : Block} :
    a ∈ b.payload hd ↔ b.addr + hd ≤ a ∧ a < b.addr + hd + b.size := Iff.rfl

theorem payload_subset_extent {hd a : Nat} {b : Block} (h : a ∈ b.payload hd) :
    a ∈ b.extent hd := by
  simp only [mem_payload, mem_extent] at h ⊢; omega

end Block

/-- The address of the first block, `n` for the empty list. -/
def headAddr : List Block → Nat → Nat
  | [], n => n
  | b :: _, _ => b.addr

/-- The address of the last block, `p` for the empty list. -/
def lastAddr : Nat → List Block → Nat
  | p, [] => p
  | _, b :: bs => lastAddr b.addr bs

@[simp] theorem headAddr_nil (n : Nat) : headAddr [] n = n := rfl

@[simp] theorem headAddr_cons (b : Block) (bs : List Block) (n : Nat) :
    headAddr (b :: bs) n = b.addr := rfl

theorem headAddr_append (xs ys : List Block) (n : Nat) :
    headAddr (xs ++ ys) n = headAddr xs (headAddr ys n) := by
  cases xs <;> rfl

@[simp] theorem lastAddr_nil (p : Nat) : lastAddr p [] = p := rfl

@[simp] theorem lastAddr_append_cons (p : Nat) (xs : List Block) (b : Block) (ys : List Block) :
    lastAddr p (xs ++ b :: ys) = lastAddr b.addr ys := by
  induction xs generalizing p with
  | nil => rfl
  | cons x xs ih => exact ih x.addr

/-- The headers read through `H` link `bs`, from `p` before it to `n` after it. -/
def Chain (H : Nat → Option Node) : Nat → List Block → Nat → Prop
  | _, [], _ => True
  | p, b :: bs, n => H b.addr = some ⟨b.size, b.free, headAddr bs n, p⟩ ∧ Chain H b.addr bs n

namespace Chain

variable {H H' : Nat → Option Node} {p p' n n' : Nat} {xs ys bs : List Block} {b c : Block}

@[simp] theorem nil : Chain H p [] n := trivial

theorem cons_iff : Chain H p (b :: bs) n ↔
    H b.addr = some ⟨b.size, b.free, headAddr bs n, p⟩ ∧ Chain H b.addr bs n := Iff.rfl

/-- The headers determine the list that ends with null. -/
theorem unique (h : Chain H p xs 0) (h' : Chain H p' ys 0) (hx : ∀ b ∈ xs, b.addr ≠ 0)
    (hy : ∀ b ∈ ys, b.addr ≠ 0) (hhead : headAddr xs 0 = headAddr ys 0) : xs = ys := by
  induction xs generalizing p p' ys with
  | nil =>
    cases ys with
    | nil => rfl
    | cons c ys => exact absurd hhead.symm (hy c List.mem_cons_self)
  | cons b xs ih =>
    cases ys with
    | nil => exact absurd hhead (hx b List.mem_cons_self)
    | cons c ys =>
      have haddr : b.addr = c.addr := hhead
      have hb := h.1
      rw [haddr, h'.1] at hb
      have hnode := Node.mk.inj (Option.some.inj hb)
      obtain rfl : b = c := Block.ext haddr hnode.1.symm hnode.2.1.symm
      rw [ih h.2 h'.2 (fun e he => hx e (List.mem_cons_of_mem b he))
        (fun e he => hy e (List.mem_cons_of_mem b he)) hnode.2.2.1.symm]

theorem append_iff : Chain H p (xs ++ ys) n ↔
    Chain H p xs (headAddr ys n) ∧ Chain H (lastAddr p xs) ys n := by
  induction xs generalizing p with
  | nil => simp
  | cons x xs ih =>
    simp only [List.cons_append, cons_iff, ih, headAddr_append, lastAddr, and_assoc]

/-- A chain read at one of its blocks. -/
theorem middle_iff : Chain H p (xs ++ b :: ys) n ↔ Chain H p xs b.addr ∧
    H b.addr = some ⟨b.size, b.free, headAddr ys n, lastAddr p xs⟩ ∧ Chain H b.addr ys n := by
  rw [append_iff, cons_iff, headAddr_cons]

theorem congr (h : Chain H p bs n) (hH : ∀ b ∈ bs, H' b.addr = H b.addr) : Chain H' p bs n := by
  induction bs generalizing p with
  | nil => trivial
  | cons b bs ih =>
    refine ⟨(hH b (by simp)).trans h.1, ih h.2 fun c hc => hH c (by simp [hc])⟩

theorem header (h : Chain H p bs n) (hb : b ∈ bs) :
    ∃ nx pv, H b.addr = some ⟨b.size, b.free, nx, pv⟩ := by
  obtain ⟨xs, ys, rfl⟩ := List.append_of_mem hb
  exact ⟨_, _, (middle_iff.mp h).2.1⟩

/-- Only the first header records where the chain is entered. -/
theorem reenter (h : Chain H p bs n)
    (h1 : ∀ b bs', bs = b :: bs' → H' b.addr = some ⟨b.size, b.free, headAddr bs' n, p'⟩)
    (h2 : ∀ b ∈ bs.tail, H' b.addr = H b.addr) : Chain H' p' bs n := by
  cases bs with
  | nil => trivial
  | cons b bs => exact ⟨h1 b bs rfl, h.2.congr h2⟩

/-- Cut `b` into `b` with `k` bytes and a free block `c` after it. -/
theorem split {k : Nat} (h : Chain H p (xs ++ b :: ys) n)
    (hb : H' b.addr = some ⟨k, b.free, c.addr, lastAddr p xs⟩)
    (hc : H' c.addr = some ⟨c.size, c.free, headAddr ys n, b.addr⟩)
    (hy : ∀ y ys', ys = y :: ys' → H' y.addr = some ⟨y.size, y.free, headAddr ys' n, c.addr⟩)
    (hx : ∀ x ∈ xs, H' x.addr = H x.addr) (hys : ∀ y ∈ ys.tail, H' y.addr = H y.addr) :
    Chain H' p (xs ++ ⟨b.addr, k, b.free⟩ :: c :: ys) n := by
  obtain ⟨h1, -, h3⟩ := middle_iff.mp h
  exact middle_iff.mpr ⟨h1.congr hx, hb, hc, h3.reenter hy hys⟩

/-- Join `c` to the block `b` before it, which takes the size `k`. -/
theorem join {k : Nat} (h : Chain H p (xs ++ b :: c :: ys) n)
    (hb : H' b.addr = some ⟨k, b.free, headAddr ys n, lastAddr p xs⟩)
    (hy : ∀ y ys', ys = y :: ys' → H' y.addr = some ⟨y.size, y.free, headAddr ys' n, b.addr⟩)
    (hx : ∀ x ∈ xs, H' x.addr = H x.addr) (hys : ∀ y ∈ ys.tail, H' y.addr = H y.addr) :
    Chain H' p (xs ++ ⟨b.addr, k, b.free⟩ :: ys) n := by
  obtain ⟨h1, -, h3⟩ := middle_iff.mp h
  exact middle_iff.mpr ⟨h1.congr hx, hb, h3.2.reenter hy hys⟩

/-- Link a new last block `c` behind `b`. -/
theorem snoc (h : Chain H p (xs ++ [b]) n)
    (hb : H' b.addr = some ⟨b.size, b.free, c.addr, lastAddr p xs⟩)
    (hc : H' c.addr = some ⟨c.size, c.free, n', b.addr⟩)
    (hx : ∀ x ∈ xs, H' x.addr = H x.addr) : Chain H' p (xs ++ [b, c]) n' := by
  obtain ⟨h1, -, -⟩ := middle_iff.mp h
  exact middle_iff.mpr ⟨h1.congr hx, hb, hc, trivial⟩

/-- Set the free flag of `b`. -/
theorem mark {f : Bool} (h : Chain H p (xs ++ b :: ys) n)
    (hb : H' b.addr = some ⟨b.size, f, headAddr ys n, lastAddr p xs⟩)
    (hx : ∀ x ∈ xs, H' x.addr = H x.addr) (hy : ∀ y ∈ ys, H' y.addr = H y.addr) :
    Chain H' p (xs ++ ⟨b.addr, b.size, f⟩ :: ys) n := by
  obtain ⟨h1, -, h3⟩ := middle_iff.mp h
  exact middle_iff.mpr ⟨h1.congr hx, hb, h3.congr hy⟩

end Chain

/-! ### Extents -/

/-- The extents of a list of blocks. -/
abbrev extents (hd : Nat) (bs : List Block) : List Span := bs.map (Block.extent hd)

/-- Cutting a block in two, or joining two contiguous ones, moves no address. -/
theorem cover_extents_cut (hd : Nat) (xs ys : List Block) (a n m : Nat) (f f' f'' : Bool)
    (x : Nat) : cover (extents hd (xs ++ ⟨a, n, f⟩ :: ⟨a + hd + n, m, f'⟩ :: ys)) x =
      cover (extents hd (xs ++ ⟨a, n + hd + m, f''⟩ :: ys)) x := by
  have h := Span.ind_add a (hd + n) (hd + m) x
  rw [show hd + n + (hd + m) = hd + (n + hd + m) by omega,
    show a + (hd + n) = a + hd + n by omega] at h
  simp only [extents, List.map_append, List.map_cons, Block.extent, cover_append, cover_cons, h]
  omega

theorem cover_extents_mark (hd : Nat) (xs ys : List Block) (a n : Nat) (f f' : Bool) (x : Nat) :
    cover (extents hd (xs ++ ⟨a, n, f⟩ :: ys)) x =
      cover (extents hd (xs ++ ⟨a, n, f'⟩ :: ys)) x := by
  simp only [extents, List.map_append, List.map_cons, Block.extent]

/-- The blocks tile `[s, e)` in list order. -/
def Tiles (hd : Nat) : Nat → List Block → Nat → Prop
  | s, [], e => s = e
  | s, b :: bs, e => b.addr = s ∧ Tiles hd (b.addr + hd + b.size) bs e

namespace Tiles

variable {hd s e : Nat} {xs ys bs : List Block} {b : Block}

theorem append_iff : Tiles hd s (xs ++ ys) e ↔ ∃ m, Tiles hd s xs m ∧ Tiles hd m ys e := by
  induction xs generalizing s with
  | nil => simp [Tiles]
  | cons x xs ih =>
    simp only [List.cons_append, Tiles, ih, ← exists_and_left, and_assoc]

theorem cut_iff {a n m : Nat} {f f' f'' : Bool} :
    Tiles hd s (xs ++ ⟨a, n, f⟩ :: ⟨a + hd + n, m, f'⟩ :: ys) e ↔
      Tiles hd s (xs ++ ⟨a, n + hd + m, f''⟩ :: ys) e := by
  simp only [append_iff, Tiles, true_and]
  rw [show a + hd + n + hd + m = a + hd + (n + hd + m) by omega]

theorem mark_iff {a n : Nat} {f f' : Bool} :
    Tiles hd s (xs ++ ⟨a, n, f⟩ :: ys) e ↔ Tiles hd s (xs ++ ⟨a, n, f'⟩ :: ys) e := by
  simp only [append_iff, Tiles]

theorem le (h : Tiles hd s bs e) : s ≤ e := by
  induction bs generalizing s with
  | nil => exact Nat.le_of_eq h
  | cons b bs ih => have := ih h.2; have := h.1; omega

theorem bounds (h : Tiles hd s bs e) (hb : b ∈ bs) : s ≤ b.addr ∧ b.addr + hd + b.size ≤ e := by
  obtain ⟨xs, ys, rfl⟩ := List.append_of_mem hb
  obtain ⟨m, h1, rfl, h3⟩ := append_iff.mp h
  exact ⟨h1.le, h3.le⟩

/-- The headers determine the list that tiles a range. -/
theorem unique {H : Nat → Option Node} {p n p' n' : Nat} {bs' : List Block} (hd0 : 0 < hd)
    (h : Tiles hd s bs e) (h' : Tiles hd s bs' e) (hc : Chain H p bs n) (hc' : Chain H p' bs' n') :
    bs = bs' := by
  induction bs generalizing s p p' bs' with
  | nil =>
    cases bs' with
    | nil => rfl
    | cons c cs =>
      have h1 : s = e := h
      have h2 := (bounds h' List.mem_cons_self).1
      have h3 := (bounds h' List.mem_cons_self).2
      omega
  | cons b bs ih =>
    cases bs' with
    | nil =>
      have h1 : s = e := h'
      have h2 := (bounds h List.mem_cons_self).1
      have h3 := (bounds h List.mem_cons_self).2
      omega
    | cons c cs =>
      have hb := hc.1
      rw [h.1, ← h'.1, hc'.1] at hb
      have hnode := Node.mk.inj (Option.some.inj hb)
      have heq : b = c := Block.ext (h.1.trans h'.1.symm) hnode.1.symm hnode.2.1.symm
      subst heq
      rw [ih h.2 h'.2 hc.2 hc'.2]

/-- Every address of a tiled range lies in exactly one extent. -/
theorem cover_eq (h : Tiles hd s bs e) (a : Nat) :
    cover (extents hd bs) a = Span.ind ⟨s, e - s⟩ a := by
  induction bs generalizing s with
  | nil => cases h; exact (Span.ind_of_size_zero (Nat.sub_self e) a).symm
  | cons b bs ih =>
    obtain ⟨rfl, h2⟩ := h
    have hle := h2.le
    have h := Span.ind_add b.addr (hd + b.size) (e - (b.addr + hd + b.size)) a
    rw [show hd + b.size + (e - (b.addr + hd + b.size)) = e - b.addr by omega,
      show b.addr + (hd + b.size) = b.addr + hd + b.size by omega] at h
    rw [extents, List.map_cons, cover_cons, ih h2, Block.extent, h]

end Tiles

/-! ### Headers of distinct blocks -/

/-- The extents of any two blocks are disjoint. -/
def Apart (hd : Nat) (bs : List Block) : Prop :=
  bs.Pairwise fun b c => b.addr + hd + b.size ≤ c.addr ∨ c.addr + hd + c.size ≤ b.addr

theorem Apart.of_cover {hd : Nat} {bs : List Block} (h0 : 0 < hd)
    (h : ∀ a, cover (extents hd bs) a ≤ 1) : Apart hd bs := by
  refine (List.pairwise_map.mp (pairwise_disjoint_of_cover_le_one h)).imp fun {b c} hbc => ?_
  have := Span.Disjoint.le_or_le hbc (by simp only [Block.extent]; omega)
    (by simp only [Block.extent]; omega)
  simp only [Block.extent] at this
  omega

theorem Apart.middle {hd : Nat} {xs ys : List Block} {b c : Block}
    (h : Apart hd (xs ++ b :: ys)) (hc : c ∈ xs ++ ys) :
    b.addr + hd + b.size ≤ c.addr ∨ c.addr + hd + c.size ≤ b.addr := by
  obtain ⟨-, h2, h3⟩ := List.pairwise_append.mp h
  rcases List.mem_append.mp hc with hc | hc
  · exact (h3 c hc b (by simp)).symm
  · exact (List.pairwise_cons.mp h2).1 c hc

/-- Blocks with disjoint extents have different addresses. -/
theorem Apart.nodup {hd : Nat} {bs : List Block} (h0 : 0 < hd) (h : Apart hd bs) :
    (bs.map (·.addr)).Nodup :=
  List.pairwise_map.mpr (List.Pairwise.imp (fun h => by omega) h)

end Theory
