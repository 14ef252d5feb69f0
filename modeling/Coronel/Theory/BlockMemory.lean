import Coronel.Theory.BlockList
import Coronel.Theory.Bytes

/-!
# Blocks in memory

A `Layout` says how many bytes a block header takes and how it is read. `Blocks L m bs`: the
headers in the memory `m` link the list `bs`, whose extents are disjoint. An edit of the list
writes a few headers; `Touches L hs m m'` says that only those at `hs` were written. Each edit lemma
asks for the new contents of the headers it touches and gives the new list; what the data of the
other blocks holds follows from `Blocks.payload_eq`.
-/

namespace Theory

open Bytes

/-- The shape of a header: its size, and how a memory shows it. -/
structure Layout where
  hd : Nat
  node : Mem → Nat → Option Node
  pos : 0 < hd
  congr : ∀ {m m' : Mem} {a : Nat}, (∀ i < hd, m' (a + i) = m (a + i)) → node m' a = node m a

/-- Only bytes of the headers at `hs` differ. -/
def Layout.Touches (L : Layout) (hs : List Nat) (m m' : Mem) : Prop :=
  ∀ a, (∀ h ∈ hs, a < h ∨ h + L.hd ≤ a) → m' a = m a

/-- The headers in `m` link the blocks `bs`, whose extents are disjoint. -/
structure Blocks (L : Layout) (m : Mem) (bs : List Block) : Prop where
  chain : Chain (L.node m) 0 bs 0
  apart : Apart L.hd bs

variable {L : Layout} {m m' m'' : Mem} {hs hs' : List Nat} {xs ys bs : List Block} {b c : Block}

namespace Layout.Touches

theorem refl : L.Touches hs m m := fun _ _ => rfl

theorem trans (h : L.Touches hs m m') (h' : L.Touches hs' m' m'') :
    L.Touches (hs ++ hs') m m'' := fun a ha =>
  (h' a fun k hk => ha k (by simp [hk])).trans (h a fun k hk => ha k (by simp [hk]))

theorem subset (h : L.Touches hs m m') (hs' : hs ⊆ hs'') : L.Touches hs'' m m' :=
  fun a ha => h a fun k hk => ha k (hs' hk)

/-- A field of the header at `b` is written. -/
theorem store {b j k v : Nat} (h : j + k ≤ L.hd) : L.Touches [b] m (store m k (b + j) v) :=
  fun a ha => by
    have := ha b (List.mem_singleton.mpr rfl)
    exact store_of_not_mem (by omega)

/-- A header apart from those written reads as before. -/
theorem node_eq (h : L.Touches hs m m') {x : Nat}
    (hx : ∀ k ∈ hs, x + L.hd ≤ k ∨ k + L.hd ≤ x) : L.node m' x = L.node m x :=
  L.congr fun i hi => h _ fun k hk => by have := hx k hk; omega

end Layout.Touches

/-- The header at `a` says that its block is free. -/
def Layout.FreeAt (L : Layout) (m : Mem) (a : Nat) : Prop := ∃ n, L.node m a = some n ∧ n.free = true

/-- A header at `a` is one of those of the list, or overlaps none. -/
def Layout.Beside (L : Layout) (bs : List Block) (a : Nat) : Prop :=
  ∀ e ∈ bs, a = e.addr ∨ a + L.hd ≤ e.addr ∨ e.addr + L.hd ≤ a

/-- Headers that say that their block is free still do, on the list or left behind by it. -/
def Layout.KeepsFree (L : Layout) (bs : List Block) (m m' : Mem) : Prop :=
  ∀ a, L.Beside bs a → L.FreeAt m a → L.FreeAt m' a

namespace Layout.KeepsFree

theorem refl : L.KeepsFree bs m m := fun _ _ h => h

theorem trans (h : L.KeepsFree bs m m') (h' : L.KeepsFree ys m' m'')
    (hs : ∀ e ∈ ys, ∃ e' ∈ bs, e'.addr = e.addr) : L.KeepsFree bs m m'' := by
  intro a ha hf
  refine h' a (fun e he => ?_) (h a ha hf)
  obtain ⟨e', he', heq⟩ := hs e he
  rw [← heq]
  exact ha e' he'

/-- Only headers of the list are written, and none of them is marked as used. -/
theorem of_touches (h : L.Touches hs m m')
    (hhs : ∀ k ∈ hs, (∃ b ∈ bs, k = b.addr) ∧ (L.FreeAt m k → L.FreeAt m' k)) :
    L.KeepsFree bs m m' := by
  intro a ha hf
  by_cases hmem : a ∈ hs
  · exact (hhs a hmem).2 hf
  obtain ⟨n, hn, hfree⟩ := hf
  refine ⟨n, ?_, hfree⟩
  rw [h.node_eq fun k hk => ?_, hn]
  obtain ⟨⟨b, hb, rfl⟩, -⟩ := hhs k hk
  exact (ha b hb).resolve_left fun h => hmem (h ▸ hk)

end Layout.KeepsFree

/-- The data of the blocks `es` is the same in both memories. -/
def Layout.SameData (L : Layout) (es : List Block) (m m' : Mem) : Prop :=
  ∀ e ∈ es, ∀ a ∈ e.payload L.hd, m' a = m a

namespace Layout.SameData

variable {es es' : List Block}

theorem refl : L.SameData es m m := fun _ _ _ _ => rfl

theorem trans (h : L.SameData es m m') (h' : L.SameData es m' m'') : L.SameData es m m'' :=
  fun e he a ha => (h' e he a ha).trans (h e he a ha)

theorem subset (h : L.SameData es m m') (hs : es' ⊆ es) : L.SameData es' m m' :=
  fun e he => h e (hs he)

end Layout.SameData

namespace Blocks

/-- The header of `k` lies at a block of the list, or inside the extent of one. -/
def Inside (L : Layout) (bs : List Block) (d : Block) (k : Nat) : Prop :=
  ∃ e ∈ bs, k = e.addr ∨ e ≠ d ∧ e.addr ≤ k ∧ k + L.hd ≤ e.addr + L.hd + e.size

theorem apart_of_ne (H : Blocks L m bs) (hb : b ∈ bs) (hc : c ∈ bs) (hne : b ≠ c) :
    b.addr + L.hd + b.size ≤ c.addr ∨ c.addr + L.hd + c.size ≤ b.addr := by
  obtain ⟨xs, ys, rfl⟩ := List.append_of_mem hb
  refine H.apart.middle ?_
  simp only [List.mem_append, List.mem_cons] at hc ⊢
  exact hc.imp id fun h => h.resolve_left (Ne.symm hne)

/-- The data of a block is not touched by header writes elsewhere. -/
theorem payload_eq (H : Blocks L m bs) (h : L.Touches hs m m') (hb : b ∈ bs)
    (hin : ∀ k ∈ hs, Inside L bs b k) {a : Nat} (ha : a ∈ b.payload L.hd) : m' a = m a := by
  simp only [Block.mem_payload] at ha
  refine h a fun k hk => ?_
  obtain ⟨e, he, h1⟩ := hin k hk
  by_cases hne : e = b
  · obtain rfl := h1.resolve_right fun h => h.1 hne
    rw [hne]
    omega
  · have h2 := H.apart_of_ne he hb hne
    rcases h1 with rfl | ⟨-, h3, h4⟩ <;> omega

theorem sameData (H : Blocks L m bs) (h : L.Touches hs m m') {es : List Block} (hes : es ⊆ bs)
    (hin : ∀ e ∈ es, ∀ k ∈ hs, Inside L bs e k) : L.SameData es m m' :=
  fun e he _ ha => H.payload_eq h (hes he) (hin e he) ha

/-- Writing headers of the list changes no data. -/
theorem sameData_of_mem (H : Blocks L m bs) (h : L.Touches hs m m')
    (hhs : ∀ k ∈ hs, ∃ b ∈ bs, k = b.addr) : L.SameData bs m m' :=
  H.sameData h (List.Subset.refl bs) fun _ _ k hk =>
    have ⟨b, hb, hkb⟩ := hhs k hk
    ⟨b, hb, .inl hkb⟩

theorem of_apart (H : Blocks L m (xs ++ b :: ys)) (hc : c ∈ xs ++ ys) :
    c.addr + L.hd + c.size ≤ b.addr ∨ b.addr + L.hd + b.size ≤ c.addr :=
  (H.apart.middle hc).symm

/-- The header of a block of the list. -/
theorem node_eq (H : Blocks L m (xs ++ b :: ys)) :
    L.node m b.addr = some ⟨b.size, b.free, headAddr ys 0, lastAddr 0 xs⟩ :=
  (Chain.middle_iff.mp H.chain).2.1

/-- The header of the block behind `b`. -/
theorem node_next (H : Blocks L m (xs ++ b :: c :: ys)) :
    L.node m c.addr = some ⟨c.size, c.free, headAddr ys 0, b.addr⟩ := by
  have h : Blocks L m ((xs ++ [b]) ++ c :: ys) := by simpa using H
  have := h.node_eq
  rwa [lastAddr_append_cons, lastAddr_nil] at this

section edits
variable {k : Nat}

/-- A block is cut in two. -/
theorem split (H : Blocks L m (xs ++ b :: ys)) (hc : c.addr = b.addr + L.hd + k)
    (hk : k + L.hd + c.size = b.size)
    (hb' : L.node m' b.addr = some ⟨k, b.free, c.addr, lastAddr 0 xs⟩)
    (hc' : L.node m' c.addr = some ⟨c.size, c.free, headAddr ys 0, b.addr⟩)
    (hy : ∀ y ys', ys = y :: ys' →
      L.node m' y.addr = some ⟨y.size, y.free, headAddr ys' 0, c.addr⟩)
    (ht : L.Touches (b.addr :: c.addr :: (ys.head?.map (·.addr)).toList) m m') :
    Blocks L m' (xs ++ ⟨b.addr, k, b.free⟩ :: c :: ys) := by
  have hhead : ∀ a ∈ (ys.head?.map (·.addr)).toList, ∃ y ys', ys = y :: ys' ∧ a = y.addr := by
    cases ys <;> simp
  have hmid := fun e he => H.of_apart (c := e) he
  obtain ⟨hax, hay, haxy⟩ := List.pairwise_append.mp H.apart
  obtain ⟨hby, hys⟩ := List.pairwise_cons.mp hay
  refine ⟨H.chain.split hb' hc' hy (fun x hx => ht.node_eq ?_) (fun y hy => ht.node_eq ?_), ?_⟩
  · intro a ha
    have h1 := hmid x (by simp [hx])
    rcases List.mem_cons.mp ha with rfl | ha
    · omega
    rcases List.mem_cons.mp ha with rfl | ha
    · omega
    obtain ⟨y, ys', rfl, rfl⟩ := hhead a ha
    have := haxy x hx y (by simp)
    omega
  · intro a ha
    have h1 := hmid y (by simp [List.mem_of_mem_tail hy])
    rcases List.mem_cons.mp ha with rfl | ha
    · omega
    rcases List.mem_cons.mp ha with rfl | ha
    · omega
    obtain ⟨y', ys', rfl, rfl⟩ := hhead a ha
    have := (List.pairwise_cons.mp hys).1 y hy
    omega
  · refine List.pairwise_append.mpr ⟨hax, .cons ?_ (.cons ?_ hys), ?_⟩
    · intro e he
      rcases List.mem_cons.mp he with rfl | he
      · simp only; omega
      · have := hby e he; simp only; omega
    · intro e he
      have := hby e he
      omega
    · intro x hx e he
      have h1 := haxy x hx b (by simp)
      rcases List.mem_cons.mp he with rfl | he
      · simp only; omega
      rcases List.mem_cons.mp he with rfl | he
      · omega
      · exact haxy x hx e (by simp [he])

/-- Two contiguous blocks become one. -/
theorem join (H : Blocks L m (xs ++ b :: c :: ys)) (hc : c.addr = b.addr + L.hd + b.size)
    (hk : b.size + L.hd + c.size = k)
    (hb' : L.node m' b.addr = some ⟨k, b.free, headAddr ys 0, lastAddr 0 xs⟩)
    (hy : ∀ y ys', ys = y :: ys' →
      L.node m' y.addr = some ⟨y.size, y.free, headAddr ys' 0, b.addr⟩)
    (ht : L.Touches (b.addr :: (ys.head?.map (·.addr)).toList) m m') :
    Blocks L m' (xs ++ ⟨b.addr, k, b.free⟩ :: ys) := by
  have hpos := L.pos
  have hhead : ∀ a ∈ (ys.head?.map (·.addr)).toList, ∃ y ys', ys = y :: ys' ∧ a = y.addr := by
    cases ys <;> simp
  obtain ⟨hax, hay, haxy⟩ := List.pairwise_append.mp H.apart
  obtain ⟨hby, hcy⟩ := List.pairwise_cons.mp hay
  obtain ⟨hcy, hys⟩ := List.pairwise_cons.mp hcy
  refine ⟨H.chain.join hb' hy (fun x hx => ht.node_eq ?_) (fun y hy => ht.node_eq ?_), ?_⟩
  · intro a ha
    have h1 := haxy x hx b (by simp)
    rcases List.mem_cons.mp ha with rfl | ha
    · omega
    obtain ⟨y, ys', rfl, rfl⟩ := hhead a ha
    have := haxy x hx y (by simp)
    omega
  · intro a ha
    have h1 := hby y (by simp [List.mem_of_mem_tail hy])
    rcases List.mem_cons.mp ha with rfl | ha
    · omega
    obtain ⟨y', ys', rfl, rfl⟩ := hhead a ha
    have := (List.pairwise_cons.mp hys).1 y hy
    omega
  · refine List.pairwise_append.mpr ⟨hax, .cons ?_ hys, ?_⟩
    · intro e he
      have h1 := hby e (by simp [he])
      have h2 := hcy e he
      simp only; omega
    · intro x hx e he
      have h1 := haxy x hx b (by simp)
      have h2 := haxy x hx c (by simp)
      rcases List.mem_cons.mp he with rfl | he
      · simp only; omega
      · exact haxy x hx e (by simp [he])

/-- A new last block is linked. -/
theorem snoc (H : Blocks L m (xs ++ [b]))
    (hb' : L.node m' b.addr = some ⟨b.size, b.free, c.addr, lastAddr 0 xs⟩)
    (hc' : L.node m' c.addr = some ⟨c.size, c.free, 0, b.addr⟩)
    (hap : ∀ x ∈ xs ++ [b], x.addr + L.hd + x.size ≤ c.addr ∨ c.addr + L.hd + c.size ≤ x.addr)
    (ht : L.Touches [b.addr, c.addr] m m') : Blocks L m' (xs ++ [b, c]) := by
  refine ⟨H.chain.snoc hb' hc' fun x hx => ht.node_eq ?_, ?_⟩
  · intro a ha
    have h1 := H.of_apart (c := x) (by simp [hx])
    have h2 := hap x (by simp [hx])
    rcases List.mem_cons.mp ha with rfl | ha
    · omega
    · rw [List.mem_singleton.mp ha]
      omega
  · have := List.pairwise_append.mpr ⟨H.apart, List.pairwise_singleton .., fun x hx e he => by
      rw [List.mem_singleton.mp he]; exact hap x hx⟩
    simpa [Apart] using this

/-- A block is marked used or free. -/
theorem mark {f : Bool} (H : Blocks L m (xs ++ b :: ys))
    (hb' : L.node m' b.addr = some ⟨b.size, f, headAddr ys 0, lastAddr 0 xs⟩)
    (ht : L.Touches [b.addr] m m') : Blocks L m' (xs ++ ⟨b.addr, b.size, f⟩ :: ys) := by
  have hne : ∀ e ∈ xs ++ ys, L.node m' e.addr = L.node m e.addr := fun e he =>
    ht.node_eq fun a ha => by
      have := H.of_apart he
      rw [List.mem_singleton.mp ha]
      omega
  refine ⟨H.chain.mark hb' (fun x hx => hne x (by simp [hx])) (fun y hy => hne y (by simp [hy])),
    ?_⟩
  obtain ⟨hax, hay, haxy⟩ := List.pairwise_append.mp H.apart
  obtain ⟨hby, hys⟩ := List.pairwise_cons.mp hay
  refine List.pairwise_append.mpr ⟨hax, .cons hby hys, fun x hx e he => ?_⟩
  rcases List.mem_cons.mp he with rfl | he
  · exact haxy x hx b (by simp)
  · exact haxy x hx e (by simp [he])

end edits

/-- Memory outside the headers does not matter. -/
theorem congr (H : Blocks L m bs)
    (h : ∀ b ∈ bs, ∀ i < L.hd, m' (b.addr + i) = m (b.addr + i)) : Blocks L m' bs :=
  ⟨H.chain.congr fun b hb => L.congr (h b hb), H.apart⟩

end Blocks
end Theory
