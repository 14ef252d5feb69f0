import Coronel.Kernel.Blocks
import Coronel.Theory.BlockMemory
import Coronel.Theory.FreeList
import Coronel.Verify.AddressSpace

/-!
# Lists of blocks

What `find_free_block`, `split_block`, `coalesce_block` and the walk of `expand_heap` do to a list
of blocks, for every block type whose accessors read and write headers of some layout,
`BlockType.Lawful`. Each operation on memory is an operation of `Theory.FreeList` on the list.
-/

namespace Coronel

open Theory Theory.Bytes

section
variable {W : Nat} {dirs : List Nat} {owned : List Page} {s₀ s : Machine} {m m' : Mem}
  {L : Layout} {limit a b k v : Nat} {n : Node}

theorem Covers.bound (hc : Covers owned s.cr3 a k) (H : Space W dirs owned s) (hk : 0 < k) :
    a + k ≤ 2 ^ 39 := by
  have := H.owned_lt (hc (k - 1) (by omega))
  omega

theorem Wrote.covers {s' : Machine} (h : Wrote W dirs owned m s₀ s')
    (hc : Covers owned s₀.cr3 a k) : Covers owned s'.cr3 a k := by rwa [h.cr3]

/-! ### Fields -/

/-- A field of a header is read through CR3. -/
theorem Wrote.load_field {hd j : Nat} (h : Wrote W dirs owned m s₀ s)
    (hc : Covers owned s₀.cr3 b hd) (hj : j + k ≤ hd) :
    (loadN k (b + j)).run s = (.ok (load m k (b + j)), s) := by
  rw [loadN_run h.space (h.covers (hc.mono (by omega) (by omega))), h.view_eq]

theorem Wrote.store_field {hd j : Nat} (h : Wrote W dirs owned m s₀ s)
    (hc : Covers owned s₀.cr3 b hd) (hj : j + k ≤ hd) (v : Nat) :
    ∃ s', (storeN k (b + j) v).run s = (.ok (), s') ∧
      Wrote W dirs owned (store m k (b + j) v) s₀ s' := by
  obtain ⟨s', hrun, hw⟩ := storeN_run h.space
    (h.covers (hc.mono (v := b + j) (k := k) (by omega) (by omega))) v
  rw [h.view_eq] at hw
  exact ⟨s', hrun, h.trans hw⟩

theorem Wrote.add64_field {hd j : Nat} (h : Wrote W dirs owned m s₀ s)
    (hc : Covers owned s₀.cr3 b hd) (hj : j < hd) : add64 b j = b + j := by
  have := (h.covers hc).bound h.space (by omega)
  exact add64_eq (by omega)

/-! ### Accessors -/

/-- The run of `x` leaves the header `n` at `b` and touches nothing else. -/
def Writes (L : Layout) (W : Nat) (dirs : List Nat) (owned : List Page) (s₀ s : Machine) (m : Mem)
    (b : Nat) (x : Kernel Unit) (n : Node) : Prop :=
  ∃ s' m', x.run s = (.ok (), s') ∧ Wrote W dirs owned m' s₀ s' ∧ L.node m' b = some n ∧
    L.Touches [b] m m'

/-- The accessors of `T` read and write headers of the layout `L`. Blocks end at or below
`limit`. -/
structure BlockType.Lawful (T : BlockType) (L : Layout) (limit : Nat) : Prop where
  sizeof : T.sizeof = L.hd
  small : limit ≤ 2 ^ 39
  size_run : ∀ {W dirs owned s₀ s m b n}, Wrote W dirs owned m s₀ s → Covers owned s₀.cr3 b L.hd →
    L.node m b = some n → (T.size b).run s = (.ok n.size, s)
  isFree_run : ∀ {W dirs owned s₀ s m b n}, Wrote W dirs owned m s₀ s →
    Covers owned s₀.cr3 b L.hd → L.node m b = some n → (T.isFree b).run s = (.ok n.free, s)
  next_run : ∀ {W dirs owned s₀ s m b n}, Wrote W dirs owned m s₀ s → Covers owned s₀.cr3 b L.hd →
    L.node m b = some n → (T.next b).run s = (.ok n.next, s)
  prev_run : ∀ {W dirs owned s₀ s m b n}, Wrote W dirs owned m s₀ s → Covers owned s₀.cr3 b L.hd →
    L.node m b = some n → (T.prev b).run s = (.ok n.prev, s)
  isValid_run : ∀ {W dirs owned s₀ s m b n}, Wrote W dirs owned m s₀ s →
    Covers owned s₀.cr3 b L.hd → L.node m b = some n → (T.isValid b).run s = (.ok true, s)
  setSize_run : ∀ {W dirs owned s₀ s m b n v}, Wrote W dirs owned m s₀ s →
    Covers owned s₀.cr3 b L.hd → L.node m b = some n → v < limit →
    Writes L W dirs owned s₀ s m b (T.setSize b v) { n with size := v }
  setFree_run : ∀ {W dirs owned s₀ s m b n} (f : Bool), Wrote W dirs owned m s₀ s →
    Covers owned s₀.cr3 b L.hd → L.node m b = some n →
    Writes L W dirs owned s₀ s m b (T.setFree b f) { n with free := f }
  setNext_run : ∀ {W dirs owned s₀ s m b n v}, Wrote W dirs owned m s₀ s →
    Covers owned s₀.cr3 b L.hd → L.node m b = some n → v < 2 ^ 64 →
    Writes L W dirs owned s₀ s m b (T.setNext b v) { n with next := v }
  setPrev_run : ∀ {W dirs owned s₀ s m b n v}, Wrote W dirs owned m s₀ s →
    Covers owned s₀.cr3 b L.hd → L.node m b = some n → v < 2 ^ 64 →
    Writes L W dirs owned s₀ s m b (T.setPrev b v) { n with prev := v }
  new_run : ∀ {W dirs owned s₀ s m b v} (f : Bool), Wrote W dirs owned m s₀ s →
    Covers owned s₀.cr3 b L.hd → v < limit →
    Writes L W dirs owned s₀ s m b (T.new b v f) ⟨v, f, 0, 0⟩

/-! ### The list -/

/-- The list `bs` lies in `m`, on owned pages of `d`, below `limit`. -/
structure Listed (L : Layout) (limit : Nat) (owned : List Page) (d : Nat) (m : Mem)
    (bs : List Block) : Prop where
  blocks : Blocks L m bs
  covers : ∀ e ∈ bs, Covers owned d e.addr (L.hd + e.size)
  nonnull : ∀ e ∈ bs, e.addr ≠ 0
  top : ∀ e ∈ bs, e.addr + (L.hd + e.size) ≤ limit

variable {T : BlockType} {xs ys bs : List Block} {e : Block} {d : Nat}

namespace Listed

theorem header (hl : Listed L limit owned d m bs) (he : e ∈ bs) : Covers owned d e.addr L.hd :=
  (hl.covers e he).mono (by omega) (by omega)

theorem headAddr_le (hl : Listed L limit owned d m bs) (hs : ys ⊆ bs) : headAddr ys 0 ≤ limit := by
  cases ys with
  | nil => exact Nat.zero_le _
  | cons y ys =>
    have := hl.top y (hs List.mem_cons_self)
    rw [headAddr_cons]
    omega

theorem nodup (hl : Listed L limit owned d m bs) : (bs.map (·.addr)).Nodup :=
  hl.blocks.apart.nodup L.pos

/-- There are fewer blocks than addresses. -/
theorem length_le (hl : Listed L limit owned d m bs) : bs.length ≤ limit := by
  have hsub : bs.map (·.addr) ⊆ List.range limit := by
    intro x hx
    obtain ⟨e, he, rfl⟩ := List.mem_map.mp hx
    have h1 := hl.top e he
    have h2 := L.pos
    exact List.mem_range.mpr (by omega)
  have := (List.subperm_of_subset hl.nodup hsub).length_le
  rwa [List.length_map, List.length_range] at this

/-- Blocks of the list are apart. -/
theorem apart (hl : Listed L limit owned d m (xs ++ e :: ys)) {c : Block} (hc : c ∈ xs ++ ys) :
    e.addr + L.hd + e.size ≤ c.addr ∨ c.addr + L.hd + c.size ≤ e.addr :=
  hl.blocks.apart.middle hc

end Listed

/-- The address of the first block, when there is one. -/
abbrev headHeader (ys : List Block) : List Nat := (ys.head?.map (·.addr)).toList

theorem mem_headHeader (ha : a ∈ headHeader ys) : ∃ y ∈ ys, a = y.addr := by
  cases ys with
  | nil => cases ha
  | cons y ys => exact ⟨y, List.mem_cons_self, List.mem_singleton.mp ha⟩

namespace BlockType.Lawful

variable (hT : T.Lawful L limit)
include hT

/-- `if (next) next->prev = v` -/
theorem setPrevIf_run (h : Wrote W dirs owned m s₀ s) (hv : v < 2 ^ 64)
    (hy : ∀ y ys', ys = y :: ys' → y.addr ≠ 0 ∧ Covers owned s₀.cr3 y.addr L.hd ∧
      ∃ p, L.node m y.addr = some ⟨y.size, y.free, headAddr ys' 0, p⟩) :
    ∃ s' m', (T.setPrevIf (headAddr ys 0) v).run s = (.ok (), s') ∧ Wrote W dirs owned m' s₀ s' ∧
      (∀ y ys', ys = y :: ys' → L.node m' y.addr = some ⟨y.size, y.free, headAddr ys' 0, v⟩) ∧
      L.Touches (headHeader ys) m m' := by
  cases ys with
  | nil => exact ⟨s, m, rfl, h, by rintro _ _ ⟨⟩, Layout.Touches.refl⟩
  | cons y ys =>
    obtain ⟨h0, hc, p, hn⟩ := hy y ys rfl
    obtain ⟨s', m', hrun, hw, hn', ht⟩ := hT.setPrev_run h hc hn hv
    refine ⟨s', m', ?_, hw, ?_, ht⟩
    · rw [setPrevIf, headAddr_cons, if_neg h0, hrun]
    · rintro _ _ ⟨⟩
      exact hn'

theorem data_eq (hl : Listed L limit owned d m bs) (he : e ∈ bs) :
    T.data e.addr = e.addr + L.hd := by
  have h1 := hl.top e he
  have h2 := hT.small
  rw [data, hT.sizeof, add64_eq (by omega)]

theorem fromData_eq (hl : Listed L limit owned d m bs) (he : e ∈ bs) :
    T.fromData (e.addr + L.hd) = e.addr := by
  have h1 := hl.top e he
  have h2 := hT.small
  rw [fromData, hT.sizeof, sub64_eq (by omega) (by omega), Nat.add_sub_cancel]

/-! ### Splitting -/

/-- A block with room for another one is split. -/
theorem splitBlock_run_of_le {b : Block} (h : Wrote W dirs owned m s₀ s)
    (hl : Listed L limit owned s₀.cr3 m (xs ++ b :: ys)) (hk : k + (L.hd + 16) ≤ b.size) :
    ∃ s' m', (T.splitBlock b.addr k).run s = (.ok true, s') ∧ Wrote W dirs owned m' s₀ s' ∧
      Listed L limit owned s₀.cr3 m'
        (xs ++ ⟨b.addr, k, b.free⟩ :: ⟨b.addr + L.hd + k, b.size - k - L.hd, true⟩ :: ys) ∧
      L.Touches (b.addr :: (b.addr + L.hd + k) :: headHeader ys) m m' := by
  have hmem : b ∈ xs ++ b :: ys := by simp
  have htop := hl.top b hmem
  have hsmall := hT.small
  have hpos := L.pos
  have hcb := hl.header hmem
  have hcc : Covers owned s₀.cr3 (b.addr + L.hd + k) L.hd :=
    (hl.covers b hmem).mono (by omega) (by omega)
  have hnb : L.node m b.addr = some ⟨b.size, b.free, headAddr ys 0, lastAddr 0 xs⟩ :=
    hl.blocks.node_eq
  have hlt : headAddr ys 0 ≤ limit := hl.headAddr_le fun y hy => by simp [hy]
  -- the block behind `b` is apart from all of `b`
  have hfar : ∀ y ys', ys = y :: ys' → y.addr ≠ 0 ∧ Covers owned s₀.cr3 y.addr L.hd ∧
      (b.addr + L.hd + b.size ≤ y.addr ∨ y.addr + L.hd + y.size ≤ b.addr) ∧
      L.node m y.addr = some ⟨y.size, y.free, headAddr ys' 0, b.addr⟩ := by
    rintro y ys' rfl
    have hy : y ∈ xs ++ b :: y :: ys' := by simp
    exact ⟨hl.nonnull y hy, hl.header hy, hl.apart (by simp), hl.blocks.node_next⟩
  have harith : add64 k (T.sizeof + 16) = k + (L.hd + 16) ∧
      add64 (T.data b.addr) k = b.addr + L.hd + k ∧
      sub64 (sub64 b.size k) T.sizeof = b.size - k - L.hd := by
    have h1 : sub64 b.size k = b.size - k := sub64_eq (by omega) (by omega)
    have h2 : T.data b.addr = b.addr + L.hd := hT.data_eq hl hmem
    rw [hT.sizeof, h1, h2]
    exact ⟨add64_eq (by omega), add64_eq (by omega), sub64_eq (by omega) (by omega)⟩
  obtain ⟨h1, h2, h3⟩ := harith
  -- the new header, behind the first `k` bytes
  obtain ⟨s1, m1, r1, w1, nc1, t1⟩ := hT.new_run true h hcc (v := b.size - k - L.hd) (by omega)
  have nb1 : L.node m1 b.addr = some ⟨b.size, b.free, headAddr ys 0, lastAddr 0 xs⟩ := by
    rw [← hnb]
    exact t1.node_eq fun a ha => by rw [List.mem_singleton.mp ha]; omega
  obtain ⟨s2, m2, r2, w2, nc2, t2⟩ := hT.setNext_run w1 hcc nc1 (v := headAddr ys 0) (by omega)
  obtain ⟨s3, m3, r3, w3, nc3, t3⟩ := hT.setPrev_run w2 hcc nc2 (v := b.addr) (by omega)
  have t13 := (t1.trans t2).trans t3
  have hoff : ∀ a ∈ [b.addr + L.hd + k] ++ [b.addr + L.hd + k] ++ [b.addr + L.hd + k],
      a = b.addr + L.hd + k := by simp
  have nb3 : L.node m3 b.addr = some ⟨b.size, b.free, headAddr ys 0, lastAddr 0 xs⟩ := by
    rw [← hnb]
    exact t13.node_eq fun a ha => by rw [hoff a ha]; omega
  -- the links around it
  obtain ⟨s4, m4, r4, w4, ny4, t4⟩ := @BlockType.Lawful.setPrevIf_run _ _ _ _ _ _ _ _
      (b.addr + L.hd + k) _ ys hT w3 (by omega) fun y ys' hy => by
      obtain ⟨hy0, hyc, hyb, hyn⟩ := hfar y ys' hy
      refine ⟨hy0, hyc, b.addr, ?_⟩
      rw [← hyn]
      exact t13.node_eq fun a ha => by rw [hoff a ha]; omega
  have hhead : ∀ a ∈ headHeader ys, a + L.hd ≤ b.addr ∨ b.addr + L.hd + b.size ≤ a := by
    intro a ha
    cases ys with
    | nil => cases ha
    | cons y ys =>
      have ha : a = y.addr := List.mem_singleton.mp ha
      have := (hfar y ys rfl).2.2.1
      omega
  have nb4 : L.node m4 b.addr = some ⟨b.size, b.free, headAddr ys 0, lastAddr 0 xs⟩ := by
    rw [← nb3]
    exact t4.node_eq fun a ha => by have := hhead a ha; omega
  have nc4 : L.node m4 (b.addr + L.hd + k) =
      some ⟨b.size - k - L.hd, true, headAddr ys 0, b.addr⟩ := by
    rw [← nc3]
    exact t4.node_eq fun a ha => by have := hhead a ha; omega
  obtain ⟨s5, m5, r5, w5, nb5, t5⟩ := hT.setNext_run w4 hcb nb4 (v := b.addr + L.hd + k) (by omega)
  obtain ⟨s6, m6, r6, w6, nb6, t6⟩ := hT.setSize_run w5 hcb nb5 (v := k) (by omega)
  have t56 := t5.trans t6
  have hon : ∀ a ∈ [b.addr] ++ [b.addr], a = b.addr := by simp
  have nc6 : L.node m6 (b.addr + L.hd + k) =
      some ⟨b.size - k - L.hd, true, headAddr ys 0, b.addr⟩ := by
    rw [← nc4]
    exact t56.node_eq fun a ha => by rw [hon a ha]; omega
  have ny6 : ∀ y ys', ys = y :: ys' →
      L.node m6 y.addr = some ⟨y.size, y.free, headAddr ys' 0, b.addr + L.hd + k⟩ := by
    intro y ys' hy
    rw [← ny4 y ys' hy]
    have hyb := (hfar y ys' hy).2.2.1
    exact t56.node_eq fun a ha => by rw [hon a ha]; omega
  have ht : L.Touches (b.addr :: (b.addr + L.hd + k) :: headHeader ys) m m6 :=
    ((t13.trans t4).trans t56).subset (by grind)
  refine ⟨s6, m6, ?_, w6, ⟨?_, ?_, ?_, ?_⟩, ht⟩
  · rw [splitBlock, Prog.run_bind_ok (hT.size_run h hcb hnb), h1, if_neg (by simp only; omega),
      Prog.run_bind_ok (hT.size_run h hcb hnb)]
    simp only [h2, h3]
    rw [Prog.run_bind_ok r1, Prog.run_bind_ok (hT.next_run w1 hcb nb1), Prog.run_bind_ok r2,
      Prog.run_bind_ok r3, Prog.run_bind_ok (hT.next_run w3 hcb nb3), Prog.run_bind_ok r4,
      Prog.run_bind_ok r5, Prog.run_bind_ok r6]
    rfl
  · exact hl.blocks.split (c := ⟨b.addr + L.hd + k, b.size - k - L.hd, true⟩) rfl
      (by simp only; omega) nb6 nc6 ny6 ht
  · intro e he
    simp only [List.mem_append, List.mem_cons] at he
    rcases he with he | rfl | rfl | he
    · exact hl.covers e (by simp [he])
    · exact (hl.covers b hmem).mono (Nat.le_refl _) (by simp only; omega)
    · exact (hl.covers b hmem).mono (by simp only; omega) (by simp only; omega)
    · exact hl.covers e (by simp [he])
  · intro e he
    simp only [List.mem_append, List.mem_cons] at he
    rcases he with he | rfl | rfl | he
    · exact hl.nonnull e (by simp [he])
    · exact hl.nonnull b hmem
    · simp only; omega
    · exact hl.nonnull e (by simp [he])
  · intro e he
    simp only [List.mem_append, List.mem_cons] at he
    rcases he with he | rfl | rfl | he
    · exact hl.top e (by simp [he])
    · simp only; omega
    · simp only; omega
    · exact hl.top e (by simp [he])

/-- `split_block` cuts `b` down to `k` bytes when it has room for another block. -/
theorem splitBlock_run {b : Block} (h : Wrote W dirs owned m s₀ s)
    (hl : Listed L limit owned s₀.cr3 m (xs ++ b :: ys)) (hk : k ≤ b.size) :
    ∃ s' m', (T.splitBlock b.addr k).run s = (.ok (decide (k + (L.hd + 16) ≤ b.size)), s') ∧
      Wrote W dirs owned m' s₀ s' ∧
      Listed L limit owned s₀.cr3 m' (xs ++ FreeList.split L.hd 16 k b ++ ys) ∧
      L.SameData (⟨b.addr, k, false⟩ :: (xs ++ ys)) m m' := by
  have hmem : b ∈ xs ++ b :: ys := by simp
  have htop := hl.top b hmem
  have hsmall := hT.small
  by_cases hroom : b.size < k + (L.hd + 16)
  · have hadd : add64 k (T.sizeof + 16) = k + (L.hd + 16) := by
      rw [hT.sizeof]
      exact add64_eq (by omega)
    refine ⟨s, m, ?_, h, ?_, Layout.SameData.refl⟩
    · rw [decide_eq_false (by omega), splitBlock, Prog.run_bind_ok (hT.size_run h (hl.header hmem) hl.blocks.node_eq), hadd,
        if_pos hroom]
      rfl
    · rw [FreeList.split, if_pos hroom]
      simpa using hl
  · obtain ⟨s', m', hrun, hw, hl', ht⟩ := hT.splitBlock_run_of_le (k := k) h hl (by omega)
    refine ⟨s', m', by rwa [decide_eq_true (by omega)], hw, ?_, ?_⟩
    · rw [FreeList.split, if_neg hroom]
      simpa using hl'
    · intro e he a ha
      rcases List.mem_cons.mp he with rfl | he
      · -- the part of `b` that stays lies between the two headers
        obtain ⟨h1, h2⟩ : b.addr + L.hd ≤ a ∧ a < b.addr + L.hd + k := ha
        refine ht a fun q hq => ?_
        rcases List.mem_cons.mp hq with rfl | hq
        · omega
        rcases List.mem_cons.mp hq with rfl | hq
        · omega
        obtain ⟨y, hy, rfl⟩ := mem_headHeader hq
        have := hl.blocks.of_apart (c := y) (by simp [hy])
        omega
      · have hne : b ≠ e := by
          rintro rfl
          have h1 := hl.blocks.of_apart he
          have h2 := L.pos
          omega
        refine hl.blocks.payload_eq ht ?_ (fun q hq => ?_) ha
        · exact List.mem_append.mpr ((List.mem_append.mp he).imp_right (List.mem_cons_of_mem b))
        rcases List.mem_cons.mp hq with rfl | hq
        · exact ⟨b, hmem, .inl rfl⟩
        rcases List.mem_cons.mp hq with rfl | hq
        · exact ⟨b, hmem, .inr ⟨hne, by omega, by omega⟩⟩
        obtain ⟨y, hy, rfl⟩ := mem_headHeader hq
        exact ⟨y, by simp [hy], .inl rfl⟩

/-! ### Coalescing -/

/-- A block takes in the one that lies behind it. -/
theorem absorb_run {b c : Block} (h : Wrote W dirs owned m s₀ s)
    (hl : Listed L limit owned s₀.cr3 m (xs ++ b :: c :: ys))
    (hc : b.addr + L.hd + b.size = c.addr) :
    ∃ s' m', (T.absorb b.addr c.addr).run s = (.ok (), s') ∧ Wrote W dirs owned m' s₀ s' ∧
      Listed L limit owned s₀.cr3 m' (xs ++ ⟨b.addr, b.size + L.hd + c.size, b.free⟩ :: ys) ∧
      L.SameData (xs ++ b :: c :: ys) m m' ∧ L.KeepsFree (xs ++ b :: c :: ys) m m' := by
  have hbm : b ∈ xs ++ b :: c :: ys := by simp
  have hcm : c ∈ xs ++ b :: c :: ys := by simp
  have htop := hl.top c hcm
  have hsmall := hT.small
  have hpos := L.pos
  have hnb : L.node m b.addr = some ⟨b.size, b.free, c.addr, lastAddr 0 xs⟩ := hl.blocks.node_eq
  have hnc : L.node m c.addr = some ⟨c.size, c.free, headAddr ys 0, b.addr⟩ :=
    hl.blocks.node_next
  have hlt : headAddr ys 0 ≤ limit := hl.headAddr_le fun y hy => by simp [hy]
  have hadd : add64 b.size (add64 T.sizeof c.size) = b.size + L.hd + c.size := by
    have h1 : add64 L.hd c.size = L.hd + c.size := add64_eq (by omega)
    have h2 : add64 b.size (L.hd + c.size) = b.size + (L.hd + c.size) := add64_eq (by omega)
    rw [hT.sizeof, h1, h2, Nat.add_assoc]
  obtain ⟨s1, m1, r1, w1, nb1, t1⟩ := hT.setSize_run h (hl.header hbm) hnb
    (v := b.size + L.hd + c.size) (by omega)
  have nc1 : L.node m1 c.addr = some ⟨c.size, c.free, headAddr ys 0, b.addr⟩ := by
    rw [← hnc]
    exact t1.node_eq fun a ha => by rw [List.mem_singleton.mp ha]; omega
  obtain ⟨s2, m2, r2, w2, nb2, t2⟩ := hT.setNext_run w1 (hl.header hbm) nb1 (v := headAddr ys 0)
    (by omega)
  have t12 := t1.trans t2
  have hon : ∀ a ∈ [b.addr] ++ [b.addr], a = b.addr := by simp
  have nc2 : L.node m2 c.addr = some ⟨c.size, c.free, headAddr ys 0, b.addr⟩ := by
    rw [← hnc]
    exact t12.node_eq fun a ha => by rw [hon a ha]; omega
  -- the block behind `c`
  have hl' : Blocks L m ((xs ++ [b]) ++ c :: ys) := by simpa using hl.blocks
  have hby : ∀ y ∈ ys, b.addr + L.hd + b.size ≤ y.addr ∨ y.addr + L.hd + y.size ≤ b.addr :=
    fun y hy => hl.apart (by simp [hy])
  obtain ⟨s3, m3, r3, w3, ny3, t3⟩ := @BlockType.Lawful.setPrevIf_run _ _ _ _ _ _ _ _ b.addr _ ys
      hT w2 (by omega) fun y ys' hy => by
      subst hy
      have hym : y ∈ xs ++ b :: c :: y :: ys' := by simp
      have hap := hby y List.mem_cons_self
      refine ⟨hl.nonnull y hym, hl.header hym, c.addr, ?_⟩
      rw [← hl'.node_next]
      exact t12.node_eq fun a ha => by rw [hon a ha]; omega
  have nb3 : L.node m3 b.addr =
      some ⟨b.size + L.hd + c.size, b.free, headAddr ys 0, lastAddr 0 xs⟩ := by
    rw [← nb2]
    refine t3.node_eq fun a ha => ?_
    obtain ⟨y, hy, rfl⟩ := mem_headHeader ha
    have := hby y hy
    omega
  have ht : L.Touches (b.addr :: headHeader ys) m m3 := (t12.trans t3).subset (by grind)
  refine ⟨s3, m3, ?_, w3, ⟨?_, ?_, ?_, ?_⟩, hl.blocks.sameData_of_mem ht fun q hq => ?_,
    .of_touches ht fun q hq => ?_⟩
  · rw [absorb, Prog.run_bind_ok (hT.size_run h (hl.header hbm) hnb),
      Prog.run_bind_ok (hT.size_run h (hl.header hcm) hnc)]
    simp only [hadd]
    rw [Prog.run_bind_ok r1, Prog.run_bind_ok (hT.next_run w1 (hl.header hcm) nc1),
      Prog.run_bind_ok r2, Prog.run_bind_ok (hT.next_run w2 (hl.header hcm) nc2), r3]
  · exact hl.blocks.join hc.symm rfl nb3 ny3 ht
  · intro e he
    simp only [List.mem_append, List.mem_cons] at he
    rcases he with he | rfl | he
    · exact hl.covers e (by simp [he])
    · have h1 := hl.covers b hbm
      have h2 := hl.covers c hcm
      rw [← hc, Nat.add_assoc] at h2
      exact (h1.append h2).mono (Nat.le_refl _) (by simp only; omega)
    · exact hl.covers e (by simp [he])
  · intro e he
    simp only [List.mem_append, List.mem_cons] at he
    rcases he with he | rfl | he
    · exact hl.nonnull e (by simp [he])
    · exact hl.nonnull b hbm
    · exact hl.nonnull e (by simp [he])
  · intro e he
    simp only [List.mem_append, List.mem_cons] at he
    rcases he with he | rfl | he
    · exact hl.top e (by simp [he])
    · simp only; omega
    · exact hl.top e (by simp [he])
  · rcases List.mem_cons.mp hq with rfl | hq
    · exact ⟨b, hbm, rfl⟩
    · obtain ⟨y, hy, rfl⟩ := mem_headHeader hq
      exact ⟨y, by simp [hy], rfl⟩
  · rcases List.mem_cons.mp hq with rfl | hq
    · refine ⟨⟨b, hbm, rfl⟩, fun ⟨n, hn, hf⟩ => ⟨_, nb3, ?_⟩⟩
      cases hnb.symm.trans hn
      exact hf
    · cases ys with
      | nil => cases hq
      | cons y ys =>
        obtain rfl := List.mem_singleton.mp hq
        have hym : y ∈ xs ++ b :: c :: y :: ys := by simp
        refine ⟨⟨y, hym, rfl⟩, fun ⟨n, hn, hf⟩ => ⟨_, ny3 y ys rfl, ?_⟩⟩
        cases hl'.node_next.symm.trans hn
        exact hf

theorem coalesceNext_run {b : Block} (h : Wrote W dirs owned m s₀ s)
    (hl : Listed L limit owned s₀.cr3 m (xs ++ b :: ys)) :
    ∃ r s' m', (T.coalesceNext b.addr).run s = (.ok r, s') ∧ Wrote W dirs owned m' s₀ s' ∧
      Listed L limit owned s₀.cr3 m'
        (xs ++ (FreeList.joinNext L.hd b ys).1 :: (FreeList.joinNext L.hd b ys).2) ∧
      L.SameData (xs ++ b :: ys) m m' ∧ (FreeList.joinNext L.hd b ys).2.length + r = ys.length ∧
      L.KeepsFree (xs ++ b :: ys) m m' := by
  have hbm : b ∈ xs ++ b :: ys := by simp
  have hnb := hl.blocks.node_eq
  have hnext := hT.next_run h (hl.header hbm) hnb
  have hsize := hT.size_run h (hl.header hbm) hnb
  cases ys with
  | nil =>
    refine ⟨0, s, m, ?_, h, hl, Layout.SameData.refl, rfl, .refl⟩
    rw [coalesceNext, Prog.run_bind_ok hnext, headAddr_nil, if_pos rfl, Prog.run_pure]
  | cons c ys =>
    have hcm : c ∈ xs ++ b :: c :: ys := by simp
    have hnc := hl.blocks.node_next
    have hfree := hT.isFree_run h (hl.header hcm) hnc
    have hend : add64 (T.data b.addr) b.size = b.addr + L.hd + b.size := by
      have h1 := hl.top b hbm
      have h2 := hT.small
      rw [hT.data_eq hl hbm]
      exact add64_eq (by omega)
    rw [coalesceNext, Prog.run_bind_ok hnext, headAddr_cons, if_neg (hl.nonnull c hcm),
      Prog.run_bind_ok hnext, headAddr_cons, Prog.run_bind_ok hfree]
    cases hcf : c.free with
    | false =>
      have hj : FreeList.joinNext L.hd b (c :: ys) = (b, c :: ys) := if_neg (by simp [hcf])
      rw [hj]
      exact ⟨0, s, m, rfl, h, hl, Layout.SameData.refl, rfl, .refl⟩
    | true =>
      simp only [Bool.not_true, Bool.false_eq_true, if_false]
      rw [Prog.run_bind_ok hsize, hend, Prog.run_bind_ok hnext, headAddr_cons]
      by_cases hadj : b.addr + L.hd + b.size = c.addr
      · obtain ⟨s', m', hrun, hw, hl', hsame, hkeeps⟩ := hT.absorb_run h hl hadj
        have hj : FreeList.joinNext L.hd b (c :: ys) = (⟨b.addr, b.size + L.hd + c.size, b.free⟩, ys) :=
          if_pos ⟨hcf, hadj⟩
        rw [hj]
        refine ⟨1, s', m', ?_, hw, hl', hsame, rfl, hkeeps⟩
        rw [if_neg (not_not.mpr hadj), Prog.run_bind_ok hnext, headAddr_cons,
          Prog.run_bind_ok hrun, Prog.run_pure]
      · have hj : FreeList.joinNext L.hd b (c :: ys) = (b, c :: ys) := if_neg fun hc => hadj hc.2
        rw [hj]
        refine ⟨0, s, m, ?_, h, hl, Layout.SameData.refl, rfl, .refl⟩
        rw [if_pos hadj, Prog.run_pure]

theorem coalescePrev_run {b : Block} (h : Wrote W dirs owned m s₀ s)
    (hl : Listed L limit owned s₀.cr3 m (xs ++ b :: ys)) :
    ∃ r s' m', (T.coalescePrev b.addr).run s = (.ok r, s') ∧ Wrote W dirs owned m' s₀ s' ∧
      Listed L limit owned s₀.cr3 m' (FreeList.joinPrev L.hd xs b ys) ∧
      L.SameData (xs ++ b :: ys) m m' ∧
      (FreeList.joinPrev L.hd xs b ys).length + r = xs.length + ys.length + 1 ∧
      L.KeepsFree (xs ++ b :: ys) m m' := by
  have hbm : b ∈ xs ++ b :: ys := by simp
  have hprev := hT.prev_run h (hl.header hbm) hl.blocks.node_eq
  rcases List.eq_nil_or_concat' xs with rfl | ⟨xs, p, rfl⟩
  · refine ⟨0, s, m, ?_, h, hl, Layout.SameData.refl, ?_, .refl⟩
    · rw [coalescePrev, Prog.run_bind_ok hprev, lastAddr_nil, if_pos rfl, Prog.run_pure]
    · simp [FreeList.joinPrev]
  · rw [List.append_assoc, List.singleton_append] at hl hbm ⊢
    have hpm : p ∈ xs ++ p :: b :: ys := by simp
    rw [lastAddr_append_cons, lastAddr_nil] at hprev
    have hnp := hl.blocks.node_eq
    have hfree := hT.isFree_run h (hl.header hpm) hnp
    have hsize := hT.size_run h (hl.header hpm) hnp
    have hend : add64 (T.data p.addr) p.size = p.addr + L.hd + p.size := by
      have h1 := hl.top p hpm
      have h2 := hT.small
      rw [hT.data_eq hl hpm]
      exact add64_eq (by omega)
    rw [coalescePrev, Prog.run_bind_ok hprev, if_neg (hl.nonnull p hpm), Prog.run_bind_ok hprev,
      Prog.run_bind_ok hfree]
    have hj : FreeList.joinPrev L.hd (xs ++ [p]) b ys =
        if p.free ∧ p.addr + L.hd + p.size = b.addr then
          xs ++ ⟨p.addr, p.size + L.hd + b.size, p.free⟩ :: ys
        else xs ++ [p] ++ b :: ys := by
      rw [FreeList.joinPrev, List.getLast?_concat, List.dropLast_concat]
    rw [hj]
    clear hj
    cases hpf : p.free with
    | false =>
      rw [if_neg (fun hc => by simp at hc : ¬(false = true ∧ p.addr + L.hd + p.size = b.addr))]
      refine ⟨0, s, m, rfl, h, by simpa using hl, Layout.SameData.refl, ?_, .refl⟩
      simp only [List.length_append, List.length_cons, List.length_nil]
      omega
    | true =>
      simp only [Bool.not_true, Bool.false_eq_true, if_false]
      rw [Prog.run_bind_ok hprev, Prog.run_bind_ok hprev, Prog.run_bind_ok hsize, hend]
      by_cases hadj : p.addr + L.hd + p.size = b.addr
      · obtain ⟨s', m', hrun, hw, hl', hsame, hkeeps⟩ := hT.absorb_run h hl hadj
        rw [if_pos (⟨trivial, hadj⟩ : True ∧ p.addr + L.hd + p.size = b.addr), ← hpf]
        refine ⟨1, s', m', ?_, hw, hl', hsame, ?_, hkeeps⟩
        · rw [if_neg (not_not.mpr hadj), Prog.run_bind_ok hprev, Prog.run_bind_ok hrun,
            Prog.run_pure]
        · simp only [List.length_append, List.length_cons, List.length_nil]
          omega
      · rw [if_neg (fun hc => hadj hc.2 : ¬(True ∧ p.addr + L.hd + p.size = b.addr))]
        refine ⟨0, s, m, ?_, h, by simpa using hl, Layout.SameData.refl, ?_, .refl⟩
        · rw [if_pos hadj, Prog.run_pure]
        · simp only [List.length_append, List.length_cons, List.length_nil]
          omega

/-- `coalesce_block` joins a free block with its neighbours and moves no data of another. -/
theorem coalesceBlock_run {b : Block} (h : Wrote W dirs owned m s₀ s)
    (hl : Listed L limit owned s₀.cr3 m (xs ++ b :: ys)) (hb : b.free = true) :
    ∃ r s' m', (T.coalesceBlock b.addr).run s = (.ok r, s') ∧ Wrote W dirs owned m' s₀ s' ∧
      Listed L limit owned s₀.cr3 m' (FreeList.coalesce L.hd xs b ys) ∧
      L.SameData (used xs ++ used ys) m m' ∧
      (FreeList.coalesce L.hd xs b ys).length + r = xs.length + ys.length + 1 ∧
      L.KeepsFree (xs ++ b :: ys) m m' := by
  have hbm : b ∈ xs ++ b :: ys := by simp
  have hfree := hT.isFree_run h (hl.header hbm) hl.blocks.node_eq
  obtain ⟨n1, s1, m1, r1, w1, l1, d1, e1, f1⟩ := hT.coalesceNext_run h hl
  obtain ⟨n2, s2, m2, r2, w2, l2, d2, e2, f2⟩ := hT.coalescePrev_run w1 l1
  have haddr := FreeList.joinNext_addr L.hd b ys
  have hused : used (FreeList.joinNext L.hd b ys).2 = used ys := used_joinNext
  refine ⟨n1 + n2, s2, m2, ?_, w2, l2, (d1.subset ?_).trans (d2.subset ?_), ?_, f1.trans f2 ?_⟩
  · rw [haddr] at r2
    rw [coalesceBlock, Prog.run_bind_ok hfree, hb]
    simp only [Bool.not_true, Bool.false_eq_true, if_false]
    rw [Prog.run_bind_ok r1, Prog.run_bind_ok r2, Prog.run_pure]
  · exact List.append_subset.mpr ⟨fun e he => by simp [(mem_used.mp he).1],
      fun e he => by simp [(mem_used.mp he).1]⟩
  · rw [← hused]
    exact List.append_subset.mpr ⟨fun e he => by simp [(mem_used.mp he).1],
      fun e he => by simp [(mem_used.mp he).1]⟩
  · rw [FreeList.coalesce]
    omega
  · intro e he
    rcases List.mem_append.mp he with he | he
    · exact ⟨e, by simp [he], rfl⟩
    rcases List.mem_cons.mp he with rfl | he
    · exact ⟨b, hbm, haddr.symm⟩
    · exact ⟨e, by simp [joinNext_subset he], rfl⟩

/-! ### Walking -/

theorem fits_run (h : Wrote W dirs owned m s₀ s) (hc : Covers owned s₀.cr3 b L.hd)
    (hn : L.node m b = some n) :
    (T.fits b k).run s = (.ok (n.free && decide (k ≤ n.size)), s) := by
  rw [fits, Prog.run_bind_ok (hT.isFree_run h hc hn)]
  cases n.free with
  | false => rfl
  | true =>
    simp only [if_true]
    rw [Prog.run_bind_ok (hT.size_run h hc hn), Prog.run_pure, Bool.true_and]

/-- `find_free_block` is first fit. -/
theorem findFreeBlockFrom_run (h : Wrote W dirs owned m s₀ s)
    (hl : Listed L limit owned s₀.cr3 m (xs ++ ys)) {f : Nat} (hf : ys.length < f) :
    (T.findFreeBlockFrom k f (headAddr ys 0)).run s =
      (.ok (((FreeList.firstFit k ys).map (·.2.1.addr)).getD 0), s) := by
  obtain ⟨f, rfl⟩ := Nat.exists_eq_add_of_lt (Nat.zero_lt_of_lt hf)
  rw [Nat.zero_add] at hf ⊢
  induction ys generalizing xs f with
  | nil =>
    rw [headAddr_nil, findFreeBlockFrom, if_pos rfl]
    rfl
  | cons y ys ih =>
    have hm : y ∈ xs ++ y :: ys := by simp
    have hn := hl.blocks.node_eq
    rw [headAddr_cons, findFreeBlockFrom, if_neg (hl.nonnull y hm),
      Prog.run_bind_ok (hT.fits_run h (hl.header hm) hn), FreeList.firstFit]
    simp only
    by_cases hy : (y.free && decide (k ≤ y.size)) = true
    · rw [if_pos hy, if_pos hy]
      rfl
    · rw [if_neg hy, if_neg hy, Prog.run_bind_ok (hT.next_run h (hl.header hm) hn)]
      rw [List.length_cons] at hf
      obtain ⟨f, rfl⟩ := Nat.exists_eq_succ_of_ne_zero (show f ≠ 0 by omega)
      rw [@ih (xs ++ [y]) (by simpa using hl) f (by omega), Option.map_map]
      rfl

theorem findFreeBlock_run (h : Wrote W dirs owned m s₀ s)
    (hl : Listed L limit owned s₀.cr3 m bs) :
    (T.findFreeBlock (headAddr bs 0) k).run s =
      (.ok (((FreeList.firstFit k bs).map (·.2.1.addr)).getD 0), s) := by
  have h1 := hl.length_le
  have h2 := hT.small
  exact @BlockType.Lawful.findFreeBlockFrom_run _ _ _ _ _ _ _ _ _ _ [] _ hT h hl _
      (by rw [fuel]; omega)

theorem lastBlockFrom_run (h : Wrote W dirs owned m s₀ s)
    (hl : Listed L limit owned s₀.cr3 m (xs ++ e :: ys)) {f : Nat} (hf : ys.length < f) :
    (T.lastBlockFrom f e.addr).run s = (.ok (lastAddr e.addr ys), s) := by
  induction ys generalizing xs e f with
  | nil =>
    obtain ⟨f, rfl⟩ := Nat.exists_eq_succ_of_ne_zero (show f ≠ 0 by omega)
    rw [lastBlockFrom, Prog.run_bind_ok (hT.next_run h (hl.header (by simp)) hl.blocks.node_eq),
      headAddr_nil, if_pos rfl, Prog.run_pure, lastAddr_nil]
  | cons y ys ih =>
    obtain ⟨f, rfl⟩ := Nat.exists_eq_succ_of_ne_zero (show f ≠ 0 by omega)
    rw [List.length_cons] at hf
    rw [lastBlockFrom, Prog.run_bind_ok (hT.next_run h (hl.header (by simp)) hl.blocks.node_eq),
      headAddr_cons, if_neg (hl.nonnull y (by simp)),
      @ih (xs ++ [e]) y (by simpa using hl) f (by omega), lastAddr]

/-- `expand_heap` links a block that lies apart from the others behind the last one. -/
theorem appendBlock_run {c : Block} (h : Wrote W dirs owned m s₀ s)
    (hl : Listed L limit owned s₀.cr3 m bs) (hbs : bs ≠ [])
    (hn : L.node m c.addr = some ⟨c.size, c.free, 0, 0⟩)
    (hcov : Covers owned s₀.cr3 c.addr (L.hd + c.size)) (h0 : c.addr ≠ 0)
    (htop : c.addr + (L.hd + c.size) ≤ limit)
    (hap : ∀ x ∈ bs, x.addr + L.hd + x.size ≤ c.addr ∨ c.addr + L.hd + c.size ≤ x.addr) :
    ∃ s' m', (T.appendBlock (headAddr bs 0) c.addr).run s = (.ok (), s') ∧
      Wrote W dirs owned m' s₀ s' ∧ Listed L limit owned s₀.cr3 m' (bs ++ [c]) ∧
      L.SameData bs m m' := by
  have hsmall := hT.small
  have hlen := hl.length_le
  have hchd : Covers owned s₀.cr3 c.addr L.hd := hcov.mono (Nat.le_refl _) (by omega)
  have hlast : (T.lastBlockFrom fuel (headAddr bs 0)).run s = (.ok (lastAddr 0 bs), s) := by
    cases bs with
    | nil => exact absurd rfl hbs
    | cons b bs =>
      rw [List.length_cons] at hlen
      exact @BlockType.Lawful.lastBlockFrom_run _ _ _ _ _ _ _ _ _ [] _ _ hT h hl _
          (by rw [fuel]; omega)
  obtain ⟨xs, b, rfl⟩ := (List.eq_nil_or_concat' bs).resolve_left hbs
  rw [lastAddr_append_cons, lastAddr_nil] at hlast
  have hbm : b ∈ xs ++ [b] := by simp
  have hbc := hap b hbm
  have hnb := hl.blocks.node_eq
  obtain ⟨s1, m1, r1, w1, nb1, t1⟩ := hT.setNext_run h (hl.header hbm) hnb (v := c.addr)
    (by omega)
  have nc1 : L.node m1 c.addr = some ⟨c.size, c.free, 0, 0⟩ := by
    rw [← hn]
    exact t1.node_eq fun a ha => by rw [List.mem_singleton.mp ha]; omega
  have htb := hl.top b hbm
  obtain ⟨s2, m2, r2, w2, nc2, t2⟩ := hT.setPrev_run w1 hchd nc1 (v := b.addr) (by omega)
  have nb2 : L.node m2 b.addr = some ⟨b.size, b.free, c.addr, lastAddr 0 xs⟩ := by
    rw [← nb1]
    exact t2.node_eq fun a ha => by rw [List.mem_singleton.mp ha]; omega
  have ht : L.Touches [b.addr, c.addr] m m2 := t1.trans t2
  have hmem : ∀ {e}, e ∈ xs ++ [b, c] → e ∈ xs ++ [b] ∨ e = c := fun {e} he => by
    simpa [or_assoc] using he
  refine ⟨s2, m2, ?_, w2, ?_, fun e he a ha => ht a fun q hq => ?_⟩
  · rw [appendBlock, Prog.run_bind_ok hlast, Prog.run_bind_ok r1, r2]
  · rw [List.append_assoc, List.singleton_append]
    refine ⟨hl.blocks.snoc nb2 nc2 hap ht, fun e he => ?_, fun e he => ?_, fun e he => ?_⟩
    · rcases hmem he with he | rfl
      · exact hl.covers e he
      · exact hcov
    · rcases hmem he with he | rfl
      · exact hl.nonnull e he
      · exact h0
    · rcases hmem he with he | rfl
      · exact hl.top e he
      · exact htop
  · simp only [Block.mem_payload] at ha
    have h1 := hap e he
    rcases List.mem_cons.mp hq with rfl | hq
    · by_cases heb : e = b
      · rw [heb] at ha
        omega
      · have := hl.blocks.apart_of_ne he hbm heb
        omega
    · rw [List.mem_singleton.mp hq]
      omega

/-! ### Allocation and release -/

theorem setFree_listed {b : Block} {f : Bool} (h : Wrote W dirs owned m s₀ s)
    (hl : Listed L limit owned s₀.cr3 m (xs ++ b :: ys)) :
    ∃ s' m', (T.setFree b.addr f).run s = (.ok (), s') ∧ Wrote W dirs owned m' s₀ s' ∧
      Listed L limit owned s₀.cr3 m' (xs ++ ⟨b.addr, b.size, f⟩ :: ys) ∧
      L.SameData (xs ++ b :: ys) m m' ∧ (f = true → L.KeepsFree (xs ++ b :: ys) m m') := by
  have hbm : b ∈ xs ++ b :: ys := by simp
  obtain ⟨s1, m1, r1, w1, nb1, t1⟩ := hT.setFree_run f h (hl.header hbm) hl.blocks.node_eq
  have hmem : ∀ {e}, e ∈ xs ++ ⟨b.addr, b.size, f⟩ :: ys →
      ∃ e' ∈ xs ++ b :: ys, e'.addr = e.addr ∧ e'.size = e.size := by
    intro e he
    simp only [List.mem_append, List.mem_cons] at he
    rcases he with he | rfl | he
    · exact ⟨e, by simp [he], rfl, rfl⟩
    · exact ⟨b, hbm, rfl, rfl⟩
    · exact ⟨e, by simp [he], rfl, rfl⟩
  refine ⟨s1, m1, r1, w1, ⟨hl.blocks.mark nb1 t1, fun e he => ?_, fun e he => ?_, fun e he => ?_⟩,
    hl.blocks.sameData_of_mem t1 fun q hq => ⟨b, hbm, List.mem_singleton.mp hq⟩, fun hf =>
    .of_touches t1 fun q hq => ⟨⟨b, hbm, List.mem_singleton.mp hq⟩, fun _ => ?_⟩⟩
  · obtain ⟨e', he', h1, h2⟩ := hmem he
    exact h1 ▸ h2 ▸ hl.covers e' he'
  · obtain ⟨e', he', h1, h2⟩ := hmem he
    exact h1 ▸ hl.nonnull e' he'
  · obtain ⟨e', he', h1, h2⟩ := hmem he
    exact h1 ▸ h2 ▸ hl.top e' he'
  · obtain rfl := List.mem_singleton.mp hq
    exact ⟨_, nb1, hf⟩

/-- `free` of a block in use. -/
theorem freeBlock_run {b : Block} (h : Wrote W dirs owned m s₀ s)
    (hl : Listed L limit owned s₀.cr3 m (xs ++ b :: ys)) (hb : b.free = false) :
    ∃ n s' m', (T.freeBlock (b.addr + L.hd)).run s = (.ok (some (b.size, n)), s') ∧
      Wrote W dirs owned m' s₀ s' ∧
      Listed L limit owned s₀.cr3 m' (FreeList.coalesce L.hd xs ⟨b.addr, b.size, true⟩ ys) ∧
      L.SameData (used xs ++ used ys) m m' ∧
      (FreeList.coalesce L.hd xs ⟨b.addr, b.size, true⟩ ys).length + n =
        xs.length + ys.length + 1 ∧
      L.KeepsFree (xs ++ b :: ys) m m' ∧ L.FreeAt m' b.addr := by
  have hbm : b ∈ xs ++ b :: ys := by simp
  have hpos := L.pos
  have hvalid := hT.isValid_run h (hl.header hbm) hl.blocks.node_eq
  have hfree := hT.isFree_run h (hl.header hbm) hl.blocks.node_eq
  obtain ⟨s1, m1, r1, w1, l1, d1, f1⟩ := hT.setFree_listed (f := true) h hl
  have hsize := hT.size_run w1 (l1.header (e := ⟨b.addr, b.size, true⟩) (by simp))
    l1.blocks.node_eq
  obtain ⟨n, s2, m2, r2, w2, l2, d2, e2, f2⟩ := hT.coalesceBlock_run w1 l1 rfl
  have hbeside : L.Beside (xs ++ ⟨b.addr, b.size, true⟩ :: ys) b.addr := by
    intro e he
    rcases List.mem_append.mp he with he | he
    · have := hl.apart (c := e) (by simp [he])
      omega
    rcases List.mem_cons.mp he with rfl | he
    · exact .inl rfl
    · have := hl.apart (c := e) (by simp [he])
      omega
  refine ⟨n, s2, m2, ?_, w2, l2, (d1.subset ?_).trans d2, e2, (f1 rfl).trans f2 fun e he => ?_,
    f2 _ hbeside ⟨_, l1.blocks.node_eq, rfl⟩⟩
  · rw [freeBlock, if_neg (by omega), hT.fromData_eq hl hbm, Prog.run_bind_ok hvalid]
    simp only [Bool.not_true, Bool.false_eq_true, if_false]
    rw [Prog.run_bind_ok hfree, hb]
    simp only [Bool.false_eq_true, if_false]
    rw [Prog.run_bind_ok r1, Prog.run_bind_ok hsize, Prog.run_bind_ok r2, Prog.run_pure]
  · exact List.append_subset.mpr ⟨fun e he => by simp [(mem_used.mp he).1],
      fun e he => by simp [(mem_used.mp he).1]⟩
  · rcases List.mem_append.mp he with he | he
    · exact ⟨e, by simp [he], rfl⟩
    rcases List.mem_cons.mp he with rfl | he
    · exact ⟨b, hbm, rfl⟩
    · exact ⟨e, by simp [he], rfl⟩

/-- The end of `malloc`: the block is split, then marked as used. -/
theorem takeBlock_run {b : Block} (h : Wrote W dirs owned m s₀ s)
    (hl : Listed L limit owned s₀.cr3 m (xs ++ b :: ys)) (hk : k ≤ b.size) :
    ∃ s1 s' m', (T.splitBlock b.addr k).run s = (.ok (decide (k + (L.hd + 16) ≤ b.size)), s1) ∧
      (T.setFree b.addr false).run s1 = (.ok (), s') ∧ Wrote W dirs owned m' s₀ s' ∧
      Listed L limit owned s₀.cr3 m' (xs ++ FreeList.take L.hd 16 k b ++ ys) ∧
      L.SameData (xs ++ ys) m m' := by
  obtain ⟨s1, m1, r1, w1, l1, d1⟩ := hT.splitBlock_run h hl hk
  have d1' : L.SameData (xs ++ ys) m m1 := d1.subset fun e he => List.mem_cons_of_mem _ he
  rw [FreeList.take]
  by_cases hroom : b.size < k + (L.hd + 16)
  · rw [FreeList.split, if_pos hroom, List.append_assoc, List.singleton_append] at l1
    obtain ⟨s2, m2, r2, w2, l2, d2, -⟩ := hT.setFree_listed (f := false) w1 l1
    refine ⟨s1, s2, m2, r1, r2, w2, ?_, d1'.trans (d2.subset fun e he => ?_)⟩
    · rw [FreeList.split, if_pos (by exact hroom), List.append_assoc, List.singleton_append]
      exact l2
    · exact List.mem_append.mpr ((List.mem_append.mp he).imp_right (List.mem_cons_of_mem b))
  · rw [FreeList.split, if_neg hroom, List.append_assoc, List.cons_append,
      List.singleton_append] at l1
    obtain ⟨s2, m2, r2, w2, l2, d2, -⟩ := hT.setFree_listed (f := false) w1 l1
    refine ⟨s1, s2, m2, r1, r2, w2, ?_, d1'.trans (d2.subset fun e he => ?_)⟩
    · rw [FreeList.split, if_neg (by exact hroom), List.append_assoc, List.cons_append,
        List.singleton_append]
      exact l2
    · exact List.mem_append.mpr ((List.mem_append.mp he).imp_right fun he =>
        List.mem_cons_of_mem _ (List.mem_cons_of_mem _ he))

/-- The first block of a heap. -/
theorem newBlock_run {c : Block} (h : Wrote W dirs owned m s₀ s) (hfree : c.free = true)
    (hcov : Covers owned s₀.cr3 c.addr (L.hd + c.size)) (h0 : c.addr ≠ 0)
    (htop : c.addr + (L.hd + c.size) ≤ limit) :
    ∃ s' m', (T.new c.addr c.size true).run s = (.ok (), s') ∧ Wrote W dirs owned m' s₀ s' ∧
      Listed L limit owned s₀.cr3 m' [c] := by
  have hpos := L.pos
  obtain ⟨s1, m1, r1, w1, n1, -⟩ := hT.new_run true h
    (hcov.mono (v := c.addr) (Nat.le_refl _) (by omega)) (v := c.size) (by omega)
  refine ⟨s1, m1, r1, w1, ⟨⟨⟨?_, trivial⟩, List.pairwise_singleton ..⟩, ?_, ?_, ?_⟩⟩
  · rw [n1, hfree]
    rfl
  all_goals
    intro e he
    rw [List.mem_singleton.mp he]
    assumption

/-- The end of `expand_heap`: a free block is made, linked behind the last one and coalesced. -/
theorem growBlock_run {c : Block} (h : Wrote W dirs owned m s₀ s)
    (hl : Listed L limit owned s₀.cr3 m bs) (hbs : bs ≠ []) (hfree : c.free = true)
    (hcov : Covers owned s₀.cr3 c.addr (L.hd + c.size)) (h0 : c.addr ≠ 0)
    (htop : c.addr + (L.hd + c.size) ≤ limit)
    (hap : ∀ x ∈ bs, x.addr + L.hd + x.size ≤ c.addr ∨ c.addr + L.hd + c.size ≤ x.addr) :
    ∃ r s1 s2 s' m', (T.new c.addr c.size true).run s = (.ok (), s1) ∧
      (T.appendBlock (headAddr bs 0) c.addr).run s1 = (.ok (), s2) ∧
      (T.coalesceBlock c.addr).run s2 = (.ok r, s') ∧ Wrote W dirs owned m' s₀ s' ∧
      Listed L limit owned s₀.cr3 m' (FreeList.coalesce L.hd bs c []) ∧
      L.SameData (used bs) m m' ∧ (FreeList.coalesce L.hd bs c []).length + r = bs.length + 1 := by
  have hpos := L.pos
  obtain ⟨s1, m1, r1, w1, n1, t1⟩ := hT.new_run true h
    (hcov.mono (v := c.addr) (Nat.le_refl _) (by omega)) (v := c.size) (by omega)
  have hfar : ∀ x ∈ bs, ∀ i < L.hd + x.size, m1 (x.addr + i) = m (x.addr + i) := by
    intro x hx i hi
    have := hap x hx
    exact t1 _ fun q hq => by rw [List.mem_singleton.mp hq]; omega
  have l1 : Listed L limit owned s₀.cr3 m1 bs :=
    ⟨hl.blocks.congr fun x hx i hi => hfar x hx i (by omega), hl.covers, hl.nonnull, hl.top⟩
  have d1 : L.SameData bs m m1 := by
    intro x hx a ha
    obtain ⟨h1, h2⟩ : x.addr + L.hd ≤ a ∧ a < x.addr + L.hd + x.size := ha
    have := hfar x hx (a - x.addr) (by omega)
    rwa [Nat.add_sub_cancel' (by omega)] at this
  obtain ⟨s2, m2, r2, w2, l2, d2⟩ := hT.appendBlock_run w1 l1 hbs (c := c) (by rw [n1, hfree]) hcov
    h0 htop hap
  obtain ⟨n, s3, m3, r3, w3, l3, d3, e3, -⟩ := hT.coalesceBlock_run w2 l2 hfree
  have hsub : used bs ⊆ bs := fun e he => (mem_used.mp he).1
  refine ⟨n, s1, s2, s3, m3, r1, r2, r3, w3, l3, ((d1.subset hsub).trans (d2.subset hsub)).trans ?_,
    by simpa using e3⟩
  simpa using d3

end BlockType.Lawful
end
end Coronel
