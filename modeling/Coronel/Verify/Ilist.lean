import Coronel.Kernel.Ilist
import Coronel.Verify.Regions
import Coronel.Verify.Watermark

/-!
# The nodes of `virt` are its lists

`Virt` keeps the regions of an object in a Lean list. Any calls on any number of objects do the same
on the nodes: they fault together, answer alike, and leave nodes that link the lists. No node is
shared, so that a copy is an object of its own (`VirtCall.exec_alike`).
-/

namespace Coronel

open Theory

namespace Ilist

/-- A link of a list: where it lies, and the node of the region it points to. -/
structure Cell where
  link : Nat
  spot : Nat
  region : VirtNode

/-- From `p` the links of the cells lead to `q`. -/
def Linked (m : NodeStore) : Nat → List Cell → Nat → Prop
  | p, [], q => p = q
  | p, c :: cs, q => p = c.link ∧ ∃ r, m.links c.link = some ⟨c.spot, r⟩ ∧ Linked m r cs q

/-- The object consists of the cells. -/
structure Holds (m : NodeStore) (l : Ilist) (cs : List Cell) : Prop where
  linked : Linked m l.head cs 0
  tail : l.tail = (cs.getLast?.map Cell.link).getD 0
  size : l.size = cs.length % 2 ^ 64
  regions : ∀ c ∈ cs, m.regions c.spot = some c.region
  links : (cs.map Cell.link).Nodup
  spots : (cs.map Cell.spot).Nodup
  below : ∀ c ∈ cs, 0 < c.link ∧ c.link < m.placement ∧ c.spot < m.placement

/-- The cells `cs` of an object become `cs'`: what lies elsewhere stays, and new nodes are drawn
from the watermark. -/
structure Goes (m : NodeStore) (cs : List Cell) (m' : NodeStore) (cs' : List Cell) : Prop where
  le : m.placement ≤ m'.placement
  links : ∀ p < m.placement, p ∉ cs.map Cell.link → m'.links p = m.links p
  regions : ∀ p < m.placement, p ∉ cs.map Cell.spot → m'.regions p = m.regions p
  ownLinks : ∀ c ∈ cs', c.link ∈ cs.map Cell.link ∨ m.placement ≤ c.link
  ownSpots : ∀ c ∈ cs', c.spot ∈ cs.map Cell.spot ∨ m.placement ≤ c.spot

variable {m m' m'' : NodeStore} {l l' : Ilist} {cs cs' cs'' xs ys : List Cell} {c d : Cell}
  {p q r n size : Nat}

/-! ### Links -/

theorem linked_append : Linked m p (xs ++ ys) q ↔ ∃ r, Linked m p xs r ∧ Linked m r ys q := by
  induction xs generalizing p with
  | nil => simp [Linked]
  | cons c xs ih =>
    simp only [List.cons_append, Linked, ih]
    constructor
    · rintro ⟨h1, r, h2, r', h3, h4⟩
      exact ⟨r', ⟨h1, r, h2, h3⟩, h4⟩
    · rintro ⟨r', ⟨h1, r, h2, h3⟩, h4⟩
      exact ⟨h1, r, h2, r', h3, h4⟩

theorem Linked.frame (h : Linked m p cs q) (hm : ∀ c ∈ cs, m'.links c.link = m.links c.link) :
    Linked m' p cs q := by
  induction cs generalizing p with
  | nil => exact h
  | cons c cs ih =>
    obtain ⟨h1, r, h2, h3⟩ := h
    exact ⟨h1, r, (hm c List.mem_cons_self).trans h2,
      ih h3 fun c hc => hm c (List.mem_cons_of_mem _ hc)⟩

/-! ### Walks -/

section

variable {ρ : Type} {body : Nat → Option (Option ρ)}

/-- The walk passes the cells at which the body goes on. -/
theorem eachFrom_append (h : Linked m p xs q) (hpos : ∀ c ∈ xs, 0 < c.link)
    (hgo : ∀ c ∈ xs, body c.spot = some none) :
    eachFrom m body (xs.length + n) p = eachFrom m body n q := by
  induction xs generalizing p with
  | nil => rw [show p = q from h, List.length_nil, Nat.zero_add]
  | cons c xs ih =>
    obtain ⟨rfl, r, h2, h3⟩ := h
    rw [List.length_cons, Nat.add_right_comm, eachFrom,
      if_neg (Nat.ne_of_gt (hpos c List.mem_cons_self)), h2]
    simp only [hgo c List.mem_cons_self]
    exact ih h3 (fun c hc => hpos c (List.mem_cons_of_mem _ hc))
      fun c hc => hgo c (List.mem_cons_of_mem _ hc)

theorem Holds.length_le (H : Holds m l cs) : cs.length ≤ m.placement := by
  have hsub : cs.map Cell.link ⊆ List.range m.placement := by
    intro p hp
    obtain ⟨c, hc, rfl⟩ := List.mem_map.mp hp
    exact List.mem_range.mpr (H.below c hc).2.1
  have := (H.links.subperm hsub).length_le
  rwa [List.length_map, List.length_range] at this

theorem Holds.each_none (H : Holds m l cs) (hgo : ∀ c ∈ cs, body c.spot = some none) :
    l.each m body = some none := by
  obtain ⟨k, hk⟩ := Nat.exists_eq_add_of_le H.length_le
  rw [each, hk, Nat.add_assoc, eachFrom_append H.linked (fun c hc => (H.below c hc).1) hgo,
    eachFrom, if_pos rfl]

theorem Holds.each_some {r : Option (Option ρ)} (H : Holds m l (xs ++ c :: ys))
    (hgo : ∀ c ∈ xs, body c.spot = some none) (hc : body c.spot = r) (hr : r ≠ some none) :
    l.each m body = r := by
  obtain ⟨q, h1, h2, r', h3, h4⟩ := linked_append.mp H.linked
  subst h2
  have hlen := H.length_le
  rw [List.length_append, List.length_cons] at hlen
  obtain ⟨k, hk⟩ := Nat.exists_eq_add_of_le (show xs.length ≤ m.placement by omega)
  have hpos : 0 < c.link := (H.below c (by simp)).1
  rw [each, hk, Nat.add_assoc, eachFrom_append h1 (fun c hc => (H.below c (by simp [hc])).1) hgo,
    eachFrom, if_neg (Nat.ne_of_gt hpos), h3]
  simp only [hc]

end

/-! ### Edits -/

theorem Goes.refl : Goes m cs m cs where
  le := le_rfl
  links _ _ _ := rfl
  regions _ _ _ := rfl
  ownLinks _ hc := .inl (List.mem_map_of_mem hc)
  ownSpots _ hc := .inl (List.mem_map_of_mem hc)

theorem Goes.trans (h : Goes m cs m' cs') (h' : Goes m' cs' m'' cs'') : Goes m cs m'' cs'' where
  le := h.le.trans h'.le
  links p hp hn := by
    refine (h'.links p (hp.trans_le h.le) fun hm => ?_).trans (h.links p hp hn)
    obtain ⟨c, hc, rfl⟩ := List.mem_map.mp hm
    exact (h.ownLinks c hc).elim hn (Nat.not_le_of_lt hp)
  regions p hp hn := by
    refine (h'.regions p (hp.trans_le h.le) fun hm => ?_).trans (h.regions p hp hn)
    obtain ⟨c, hc, rfl⟩ := List.mem_map.mp hm
    exact (h.ownSpots c hc).elim hn (Nat.not_le_of_lt hp)
  ownLinks c hc := by
    refine (h'.ownLinks c hc).elim (fun hm => ?_) fun hle => .inr (h.le.trans hle)
    obtain ⟨d, hd, hdc⟩ := List.mem_map.mp hm
    exact hdc ▸ h.ownLinks d hd
  ownSpots c hc := by
    refine (h'.ownSpots c hc).elim (fun hm => ?_) fun hle => .inr (h.le.trans hle)
    obtain ⟨d, hd, hdc⟩ := List.mem_map.mp hm
    exact hdc ▸ h.ownSpots d hd

/-- The nodes of other objects stay theirs. -/
theorem Goes.apart (h : Goes m cs m' cs')
    (hb : ∀ d ∈ ys, d.link < m.placement ∧ d.spot < m.placement)
    (hap : ∀ c ∈ cs, ∀ d ∈ ys, c.link ≠ d.link ∧ c.spot ≠ d.spot) :
    ∀ c ∈ cs', ∀ d ∈ ys, c.link ≠ d.link ∧ c.spot ≠ d.spot := by
  intro c hc d hd
  obtain ⟨h1, h2⟩ := hb d hd
  constructor
  · intro heq
    rcases h.ownLinks c hc with hm | hle
    · obtain ⟨e, he, hec⟩ := List.mem_map.mp hm
      exact (hap e he d hd).1 (hec.trans heq)
    · omega
  · intro heq
    rcases h.ownSpots c hc with hm | hle
    · obtain ⟨e, he, hec⟩ := List.mem_map.mp hm
      exact (hap e he d hd).2 (hec.trans heq)
    · omega

/-- Other objects stay what they are. -/
theorem Holds.frame (H : Holds m l ys) (h : Goes m cs m' cs')
    (hap : ∀ c ∈ cs, ∀ d ∈ ys, c.link ≠ d.link ∧ c.spot ≠ d.spot) : Holds m' l ys where
  linked := H.linked.frame fun d hd => h.links _ (H.below d hd).2.1 fun hm =>
    have ⟨c, hc, hcd⟩ := List.mem_map.mp hm
    (hap c hc d hd).1 hcd
  tail := H.tail
  size := H.size
  regions d hd := (h.regions _ (H.below d hd).2.2 fun hm =>
    have ⟨c, hc, hcd⟩ := List.mem_map.mp hm
    (hap c hc d hd).2 hcd).trans (H.regions d hd)
  links := H.links
  spots := H.spots
  below d hd := by
    have := H.below d hd
    have := h.le
    omega

/-- A region of an object is written. -/
theorem Holds.setRegion (H : Holds m l (xs ++ c :: ys)) (n : VirtNode) :
    Holds (m.setRegion c.spot n) l (xs ++ { c with region := n } :: ys) ∧
    Goes m (xs ++ c :: ys) (m.setRegion c.spot n) (xs ++ { c with region := n } :: ys) := by
  have hspots := H.spots
  rw [List.map_append, List.map_cons, List.nodup_middle, List.nodup_cons, List.mem_append] at hspots
  have hne : ∀ d ∈ xs ++ ys, d.spot ≠ c.spot := by
    intro d hd heq
    rcases List.mem_append.mp hd with hd | hd
    · exact hspots.1 (.inl (heq ▸ List.mem_map_of_mem hd))
    · exact hspots.1 (.inr (heq ▸ List.mem_map_of_mem hd))
  have hlinks : (xs ++ { c with region := n } :: ys).map Cell.link =
      (xs ++ c :: ys).map Cell.link := by simp
  have hspot : (xs ++ { c with region := n } :: ys).map Cell.spot =
      (xs ++ c :: ys).map Cell.spot := by simp
  refine ⟨⟨?_, ?_, ?_, ?_, hlinks ▸ H.links, hspot ▸ H.spots, ?_⟩,
    le_rfl, fun _ _ _ => rfl, ?_, ?_, ?_⟩
  · obtain ⟨q, h1, h2, r, h3, h4⟩ := linked_append.mp H.linked
    exact linked_append.mpr ⟨q, h1.frame fun _ _ => rfl, h2, r, h3, h4.frame fun _ _ => rfl⟩
  · rw [H.tail]
    simp only [← List.getLast?_map, hlinks]
  · rw [H.size, List.length_append, List.length_append]
    rfl
  · intro d hd
    rcases List.mem_append.mp hd with hd | hd
    · exact (Function.update_of_ne (hne d (List.mem_append_left _ hd)) ..).trans
        (H.regions d (by simp [hd]))
    · rcases List.mem_cons.mp hd with rfl | hd
      · exact Function.update_self ..
      · exact (Function.update_of_ne (hne d (List.mem_append_right _ hd)) ..).trans
          (H.regions d (by simp [hd]))
  · intro d hd
    rcases List.mem_append.mp hd with hd | hd
    · exact H.below d (by simp [hd])
    · rcases List.mem_cons.mp hd with rfl | hd
      · exact H.below c (by simp)
      · exact H.below d (by simp [hd])
  · intro p _ hp
    exact Function.update_of_ne (fun h => hp (by simp [h])) ..
  · intro d hd
    exact .inl (hlinks ▸ List.mem_map_of_mem hd)
  · intro d hd
    exact .inl (hspot ▸ List.mem_map_of_mem hd)

/-! ### Runs side by side -/

/-- A run on the lists and one on the nodes fault together, or end with results that `R` relates. -/
def Alike {α β : Type} (R : α → β → NodeStore → Prop) :
    Except Trap α × Machine → Option (β × NodeStore) → Prop
  | (.ok a, s), some (b, m) => s.placement = m.placement ∧ R a b m
  | (.error _, _), none => True
  | _, _ => False

section

variable {α α' β β' : Type} {R : α → β → NodeStore → Prop} {R' : α' → β' → NodeStore → Prop}
  {x : Kernel α} {f : α → Kernel α'} {y : Option (β × NodeStore)}
  {g : β × NodeStore → Option (β' × NodeStore)} {s : Machine}

theorem Alike.of_none {x : Except Trap α × Machine} (h : Alike R x none) :
    ∃ e s', x = (.error e, s') := by
  obtain ⟨e | a, s'⟩ := x
  · exact ⟨e, s', rfl⟩
  · exact h.elim

theorem Alike.of_some {x : Except Trap α × Machine} {b : β} (h : Alike R x (some (b, m))) :
    ∃ a s', x = (.ok a, s') ∧ s'.placement = m.placement ∧ R a b m := by
  obtain ⟨e | a, s'⟩ := x
  · exact h.elim
  · exact ⟨a, s', rfl, h⟩

theorem Alike.mono {R' : α → β → NodeStore → Prop} {x : Except Trap α × Machine} (h : Alike R x y)
    (hR : ∀ a b m, R a b m → R' a b m) : Alike R' x y := by
  rcases y with _ | ⟨b, m⟩
  · obtain ⟨e, s', rfl⟩ := h.of_none
    trivial
  · obtain ⟨a, s', rfl, h1, h2⟩ := h.of_some
    exact ⟨h1, hR a b m h2⟩

theorem Alike.bind (h : Alike R (x.run s) y)
    (hf : ∀ a b s' m', s'.placement = m'.placement → R a b m' →
      Alike R' ((f a).run s') (g (b, m'))) : Alike R' ((x >>= f).run s) (y >>= g) := by
  rcases y with _ | ⟨b, m⟩
  · obtain ⟨e, s', hx⟩ := h.of_none
    rw [Prog.run_bind_error hx]
    trivial
  · obtain ⟨a, s', hx, h1, h2⟩ := h.of_some
    rw [Prog.run_bind_ok hx]
    exact hf a b s' m h1 h2

/-- Both draw `size` bytes and access them. -/
theorem Alike.place {f : Nat → Kernel α'} {g : Nat × NodeStore → Option (β' × NodeStore)}
    (hs : s.placement = m.placement)
    (hf : ∀ s', s'.placement = m.placement + size → 0 < m.placement →
      Alike R' ((f m.placement).run s')
        (g (m.placement, { m with placement := m.placement + size }))) :
    Alike R' ((placementKalloc size >>= fun p => touch p size >>= fun _ => f p).run s)
      (m.place size >>= g) := by
  rw [Prog.run_bind, MemoryManager.placementKalloc_run, if_neg (by decide), hs]
  simp only [touch, NodeStore.place]
  by_cases hw : kvirtualAddress ≤ m.placement ∧
      m.placement + size ≤ kvirtualAddress + directMapSize
  · have hadd : add64 m.placement size = m.placement + size := by
      have hkv : kvirtualAddress + directMapSize < 2 ^ 64 := by decide
      exact add64_eq (by omega)
    have hpos : 0 < m.placement := (show 0 < kvirtualAddress by decide).trans_le hw.1
    rw [window, if_pos hw, hadd]
    exact hf _ rfl hpos
  · rw [window, if_neg hw]
    trivial

end

/-! ### New nodes -/

/-- The region `n` was pushed onto an object and its list; no region that was there is written. -/
def Pushed (m : NodeStore) (cs : List Cell) (n : VirtNode) (v v' : Virt) (l : Ilist)
    (m' : NodeStore) : Prop :=
  ∃ c, c.region = n ∧ v' = ⟨v.freeMemList ++ [n]⟩ ∧ Holds m' l (cs ++ [c]) ∧
    Goes m cs m' (cs ++ [c]) ∧ ∀ p < m.placement, m'.regions p = m.regions p

theorem nodup_append_placement {f : Cell → Nat} {b : Nat} (hn : (cs.map f).Nodup)
    (hb : ∀ c ∈ cs, f c < b) (hc : b ≤ f c) : ((cs ++ [c]).map f).Nodup := by
  rw [List.map_append, List.map_cons, List.map_nil, List.nodup_append]
  refine ⟨hn, List.nodup_singleton _, ?_⟩
  intro p hp q hq
  obtain ⟨d, hd, rfl⟩ := List.mem_map.mp hp
  have := hb d hd
  rw [List.mem_singleton.mp hq]
  omega

/-- A cell of two new nodes is linked behind the others. -/
theorem Holds.push {k : Nat} (H : Holds m l cs) (hm : m'.placement = m.placement + k + k)
    (hk : 0 < k)
    (hr : m'.regions = Function.update m.regions m.placement (some c.region))
    (hc : c.spot = m.placement) (hcl : c.link = m.placement + k)
    (hlinks : ∀ p < m.placement, p ∉ cs.map Cell.link → m'.links p = m.links p)
    (hlinked : Linked m' l'.head (cs ++ [c]) 0) (htail : l'.tail = c.link)
    (hlen : l'.size = add64 l.size 1) :
    Holds m' l' (cs ++ [c]) ∧ Goes m cs m' (cs ++ [c]) ∧
      ∀ p < m.placement, m'.regions p = m.regions p := by
  have hreg : ∀ p < m.placement, m'.regions p = m.regions p := by
    intro p hp
    rw [hr, Function.update_of_ne (by omega)]
  refine ⟨⟨hlinked, ?_, ?_, ?_, ?_, ?_, ?_⟩,
    ⟨by omega, hlinks, fun p hp _ => hreg p hp, ?_, ?_⟩, hreg⟩
  · rw [htail, List.getLast?_concat]
    rfl
  · rw [hlen, H.size, add64, List.length_append, List.length_singleton]
    omega
  · intro d hd
    rcases List.mem_append.mp hd with hd | hd
    · rw [hreg _ (H.below d hd).2.2, H.regions d hd]
    · rw [List.mem_singleton.mp hd, hr, hc, Function.update_self]
  · exact nodup_append_placement H.links (fun d hd => (H.below d hd).2.1) (by omega)
  · exact nodup_append_placement H.spots (fun d hd => (H.below d hd).2.2) (by omega)
  · intro d hd
    rcases List.mem_append.mp hd with hd | hd
    · have := H.below d hd
      omega
    · rw [List.mem_singleton.mp hd]
      omega
  · intro d hd
    rcases List.mem_append.mp hd with hd | hd
    · exact .inl (List.mem_map_of_mem hd)
    · exact .inr (by rw [List.mem_singleton.mp hd]; omega)
  · intro d hd
    rcases List.mem_append.mp hd with hd | hd
    · exact .inl (List.mem_map_of_mem hd)
    · exact .inr (by rw [List.mem_singleton.mp hd]; omega)

theorem pushNode_alike {s : Machine} (H : Holds m l cs) (hs : s.placement = m.placement)
    (v : Virt) (n : VirtNode) :
    Alike (Pushed m cs n v) ((Virt.pushBack v n).run s) (l.pushNode n m) := by
  have hsz : Virt.sizeofNode = 16 := rfl
  refine Alike.place hs fun s1 hs1 hpos => ?_
  refine Alike.place hs1 fun s2 hs2 _ => ?_
  simp only [Prog.run_pure]
  rcases List.eq_nil_or_concat' cs with rfl | ⟨xs, d, rfl⟩
  · have htail : l.tail = 0 := H.tail
    rw [if_pos htail]
    refine ⟨hs2, ⟨m.placement + Virt.sizeofNode, m.placement, n⟩, rfl, rfl, ?_⟩
    refine H.push (k := Virt.sizeofNode) rfl (by omega) rfl rfl rfl ?_ ?_ rfl rfl
    · intro p hp _
      exact Function.update_of_ne (by simp only [NodeStore.setRegion]; omega) ..
    · exact ⟨rfl, 0, Function.update_self .., rfl⟩
  · have hd := H.below d (by simp)
    have htail : l.tail = d.link := by
      rw [H.tail, List.getLast?_concat]
      rfl
    obtain ⟨q, h1, rfl, r, h3, rfl⟩ := linked_append.mp H.linked
    have hlook : Function.update m.links (m.placement + Virt.sizeofNode)
        (some ⟨m.placement, 0⟩) d.link = some ⟨d.spot, 0⟩ := by
      rw [Function.update_of_ne (by omega), h3]
    rw [if_neg (by omega)]
    simp only [NodeStore.setLink, NodeStore.setRegion, htail, hlook, Option.bind_eq_bind,
      Option.bind_some]
    refine ⟨hs2, ⟨m.placement + Virt.sizeofNode, m.placement, n⟩, rfl, rfl, ?_⟩
    have hother : ∀ p < m.placement, p ≠ d.link →
        Function.update (Function.update m.links (m.placement + Virt.sizeofNode)
          (some ⟨m.placement, 0⟩)) d.link (some ⟨d.spot, m.placement + Virt.sizeofNode⟩) p =
        m.links p := by
      intro p hp hne
      rw [Function.update_of_ne hne, Function.update_of_ne (by omega)]
    refine H.push (k := Virt.sizeofNode) rfl (by omega) rfl rfl rfl ?_ ?_ rfl rfl
    · intro p hp hn
      exact hother p hp fun h => hn (h ▸ List.mem_map_of_mem (by simp))
    · rw [List.append_assoc]
      refine linked_append.mpr ⟨d.link, h1.frame fun c hc => ?_, rfl,
        m.placement + Virt.sizeofNode, Function.update_self .., rfl, 0, ?_, rfl⟩
      · have hlinks := H.links
        rw [List.map_append, List.nodup_append] at hlinks
        exact hother _ (H.below c (by simp [hc])).2.1
          (hlinks.2.2 _ (List.mem_map_of_mem hc) _ (by simp))
      · have hne : m.placement + Virt.sizeofNode ≠ d.link := by omega
        exact (Function.update_of_ne hne ..).trans (Function.update_self ..)

/-! ### Calls -/

variable {s : Machine} {v : Virt}

/-- The object consists of the cells, and these of the regions of the list. -/
def StandsFor (m : NodeStore) (l : Ilist) (cs : List Cell) (v : Virt) : Prop :=
  Holds m l cs ∧ cs.map Cell.region = v.freeMemList

/-- A call took the object with the cells `cs` to one that shows the list. -/
def Took (m : NodeStore) (cs : List Cell) (v : Virt) (l : Ilist) (m' : NodeStore) : Prop :=
  ∃ cs', StandsFor m' l cs' v ∧ Goes m cs m' cs'

theorem Pushed.took {v' : Virt} {n : VirtNode} (h : Pushed m cs n v v' l m')
    (hv : cs.map Cell.region = v.freeMemList) : Took m cs v' l m' := by
  obtain ⟨c, hc, rfl, h1, h2, -⟩ := h
  exact ⟨cs ++ [c], ⟨h1, by rw [List.map_append, hv, ← hc]; rfl⟩, h2⟩

theorem holds_new : Holds m new [] where
  linked := rfl
  tail := rfl
  size := rfl
  regions := by simp
  links := List.nodup_nil
  spots := List.nodup_nil
  below := by simp

theorem construct_alike (hs : s.placement = m.placement) :
    Alike (Took m []) (Virt.new.run s) (construct m) :=
  (pushNode_alike holds_new hs ⟨[]⟩ _).mono fun _ _ _ h => h.took rfl

theorem map_region_eq {ns ns' : List VirtNode} {n : VirtNode}
    (h : cs.map Cell.region = ns ++ n :: ns') : ∃ xs c ys, cs = xs ++ c :: ys ∧
      xs.map Cell.region = ns ∧ c.region = n ∧ ys.map Cell.region = ns' := by
  obtain ⟨xs, zs, rfl, h1, h2⟩ := List.map_eq_append_iff.mp h
  obtain ⟨c, ys, rfl, h3, h4⟩ := List.map_eq_cons_iff.mp h2
  exact ⟨xs, c, ys, rfl, h1, h3, h4⟩

theorem alloc_took (H : StandsFor m l cs v) (size : Nat) : ∃ m',
    l.alloc size m = some ((v.alloc size).1, m') ∧ m'.placement = m.placement ∧
      Took m cs (v.alloc size).2 l m' := by
  obtain ⟨H, hv⟩ := H
  rw [alloc, Virt.alloc]
  cases h : Virt.allocFrom (alignUp size) v.freeMemList with
  | none =>
    rw [← hv, Virt.allocFrom_eq_none, List.forall_mem_map] at h
    rw [H.each_none fun c hc => ?_]
    · exact ⟨m, rfl, rfl, cs, ⟨H, hv⟩, .refl⟩
    · rw [takeAt, H.regions c hc, Option.bind_eq_bind, Option.bind_some, if_pos (h c hc)]
  | some r =>
    obtain ⟨a, nodes⟩ := r
    obtain ⟨ns, n, ns', h1, h2, h3, h4, rfl, rfl⟩ := Virt.allocFrom_eq_some h
    obtain ⟨xs, c, ys, rfl, rfl, rfl, rfl⟩ := map_region_eq (hv.trans h1)
    rw [List.forall_mem_map] at h2
    obtain ⟨H', hgoes⟩ := H.setRegion ⟨if c.region.size = alignUp size then c.region.start
      else add64 c.region.start (alignUp size), c.region.size - alignUp size⟩
    rw [H.each_some (r := some (some (c.region.start, m.setRegion c.spot _)))
      (fun d hd => ?_) ?_ (by simp)]
    · exact ⟨_, rfl, rfl, _, ⟨H', by rw [List.map_append, List.map_cons]⟩, hgoes⟩
    · rw [takeAt, H.regions c (by simp), Option.bind_eq_bind, Option.bind_some, if_neg (by omega)]
      by_cases he : c.region.size = alignUp size <;> simp [he]
    · rw [takeAt, H.regions d (by simp [hd]), Option.bind_eq_bind, Option.bind_some,
        if_pos (h2 d hd)]

/-- Where the loop of `alloc(initial_addr, size)` stops. -/
theorem reserveFrom_cases (addr size : Nat) (nodes : List VirtNode) :
    (Virt.reserveFrom addr size nodes = none ∧
      ∀ x ∈ nodes, x.start < addr ∧ add64 x.start x.size ≤ add64 addr size) ∨
    ∃ ns n ns', nodes = ns ++ n :: ns' ∧
      (∀ x ∈ ns, x.start < addr ∧ add64 x.start x.size ≤ add64 addr size) ∧
      ¬(n.start < addr ∧ add64 n.start n.size ≤ add64 addr size) ∧
      Virt.reserveFrom addr size nodes = some
        (ns ++ { n with size := sub64 addr n.start } :: ns', ⟨add64 addr size, n.size⟩) := by
  induction nodes with
  | nil => exact .inl ⟨rfl, by simp⟩
  | cons n nodes ih =>
    rw [Virt.reserveFrom]
    by_cases hn : n.start < addr ∧ add64 n.start n.size ≤ add64 addr size
    · rw [if_pos hn]
      obtain ⟨h1, h2⟩ | ⟨ns, n', ns', rfl, h2, h3, h4⟩ := ih
      · rw [h1]
        exact .inl ⟨rfl, List.forall_mem_cons.mpr ⟨hn, h2⟩⟩
      · rw [h4]
        exact .inr ⟨n :: ns, n', ns', rfl, List.forall_mem_cons.mpr ⟨hn, h2⟩, h3, rfl⟩
    · rw [if_neg hn]
      exact .inr ⟨[], n, nodes, rfl, by simp, hn, rfl⟩

theorem allocAt_alike (H : StandsFor m l cs v) (hs : s.placement = m.placement) (addr size : Nat) :
    Alike (fun r r' m' => r.1 = r'.1 ∧ Took m cs r.2 r'.2 m') ((v.allocAt addr size).run s)
      (l.allocAt addr size m) := by
  obtain ⟨H, hv⟩ := H
  rw [allocAt, Virt.allocAt, ← hv]
  obtain ⟨h1, h2⟩ | ⟨ns, n, ns', h1, h2, h3, h4⟩ := reserveFrom_cases addr size (cs.map Cell.region)
  · rw [List.forall_mem_map] at h2
    rw [h1, H.each_none fun c hc => ?_]
    · exact ⟨hs, rfl, cs, ⟨H, hv⟩, .refl⟩
    · rw [reserveAt, H.regions c hc, Option.bind_eq_bind, Option.bind_some, if_pos (h2 c hc)]
  · obtain ⟨xs, c, ys, rfl, rfl, rfl, rfl⟩ := map_region_eq h1
    rw [List.forall_mem_map] at h2
    have hgo : ∀ d ∈ xs, m.regions d.spot = some d.region :=
      fun d hd => H.regions d (by simp [hd])
    have hat := H.regions c (by simp)
    have hpush := pushNode_alike H hs
      ⟨xs.map Cell.region ++ { c.region with size := sub64 addr c.region.start } ::
        ys.map Cell.region⟩ ⟨add64 addr size, c.region.size⟩
    rw [h4]
    simp only [Prog.run_bind]
    cases hy : l.pushNode ⟨add64 addr size, c.region.size⟩ m with
    | none =>
      rw [hy] at hpush
      rw [H.each_some (r := none) ?_ ?_ (by simp)]
      · obtain ⟨e, s', hx⟩ := hpush.of_none
        rw [hx]
        trivial
      · intro d hd
        simp only [reserveAt, hgo d hd, Option.bind_eq_bind, Option.bind_some, if_pos (h2 d hd)]
      · simp only [reserveAt, hat, Option.bind_eq_bind, Option.bind_some, if_neg h3, hy,
          Option.bind_none]
    | some r =>
      obtain ⟨l', m'⟩ := r
      rw [hy] at hpush
      obtain ⟨v', s', hx, hs', c', hc', hv', H', hgoes, hreg⟩ := hpush.of_some
      rw [hx]
      subst hv'
      rw [List.append_assoc, List.cons_append] at H' hgoes
      obtain ⟨H'', hgoes'⟩ := H'.setRegion { c.region with size := sub64 addr c.region.start }
      have hat' : m'.regions c.spot = some c.region :=
        (hreg _ (H.below c (by simp)).2.2).trans hat
      rw [H.each_some (r := some (some ((true, l'), m'.setRegion c.spot
        { c.region with size := sub64 addr c.region.start }))) ?_ ?_ (by simp)]
      · refine ⟨hs', rfl, _, ⟨H'', ?_⟩, hgoes.trans hgoes'⟩
        rw [List.map_append, List.map_cons, List.map_append, List.map_singleton, hc',
          List.append_assoc, List.cons_append]
      · intro d hd
        simp only [reserveAt, hgo d hd, Option.bind_eq_bind, Option.bind_some, if_pos (h2 d hd)]
      · simp only [reserveAt, hat, Option.bind_eq_bind, Option.bind_some, if_neg h3, hy, hat']

/-- What the inner loop of `free` looks for. -/
theorem absorb_cases (start : Nat) (nodes : List VirtNode) :
    (Virt.absorb start nodes = none ∧ ∀ x ∈ nodes, ¬(x.size ≠ 0 ∧ start = x.start)) ∨
    ∃ ns n ns', nodes = ns ++ n :: ns' ∧ (∀ x ∈ ns, ¬(x.size ≠ 0 ∧ start = x.start)) ∧
      (n.size ≠ 0 ∧ start = n.start) ∧
      Virt.absorb start nodes = some (n.size, ns ++ { n with size := 0 } :: ns') := by
  induction nodes with
  | nil => exact .inl ⟨rfl, by simp⟩
  | cons n nodes ih =>
    rw [Virt.absorb]
    by_cases hn : n.size ≠ 0 ∧ start = n.start
    · rw [if_pos hn]
      exact .inr ⟨[], n, nodes, rfl, by simp, hn, rfl⟩
    · rw [if_neg hn]
      obtain ⟨h1, h2⟩ | ⟨ns, n', ns', rfl, h2, h3, h4⟩ := ih
      · rw [h1]
        exact .inl ⟨rfl, List.forall_mem_cons.mpr ⟨hn, h2⟩⟩
      · rw [h4]
        exact .inr ⟨n :: ns, n', ns', rfl, List.forall_mem_cons.mpr ⟨hn, h2⟩, h3, rfl⟩

/-- The list around a region that has grown to `[start, start + grown)`. -/
def joined (start grown : Nat) (before rest : List VirtNode) : List VirtNode :=
  match Virt.absorb (add64 start grown) before with
  | some r => r.2 ++ ⟨start, add64 grown r.1⟩ :: rest
  | none =>
    match Virt.absorb (add64 start grown) rest with
    | some r => before ++ ⟨start, add64 grown r.1⟩ :: r.2
    | none => before ++ ⟨start, grown⟩ :: rest

/-- The region that the outer loop of `free` comes to passes. -/
def Passed (addr size : Nat) (x : VirtNode) : Prop :=
  x.size = 0 ∨ add64 addr size ≠ x.start ∧ add64 x.start x.size ≠ addr

/-- Where the outer loop of `free` stops, and the list it leaves. -/
theorem merge_cases (addr size : Nat) (before rest : List VirtNode) :
    (Virt.merge addr size before rest = none ∧ ∀ x ∈ rest, Passed addr size x) ∨
    ∃ ns n ns', rest = ns ++ n :: ns' ∧ (∀ x ∈ ns, Passed addr size x) ∧ n.size ≠ 0 ∧
      (add64 addr size = n.start ∧ Virt.merge addr size before rest =
          some (before ++ ns ++ ⟨addr, add64 n.size size⟩ :: ns') ∨
        add64 addr size ≠ n.start ∧ add64 n.start n.size = addr ∧
          Virt.merge addr size before rest =
            some (joined n.start (add64 n.size size) (before ++ ns) ns')) := by
  induction rest generalizing before with
  | nil => exact .inl ⟨rfl, by simp⟩
  | cons n rest ih =>
    have hgo : Passed addr size n →
        Virt.merge addr size before (n :: rest) = Virt.merge addr size (before ++ [n]) rest := by
      intro h
      rw [Virt.merge]
      by_cases h0 : n.size = 0
      · rw [if_pos h0]
      · obtain ⟨h1, h2⟩ := h.resolve_left h0
        rw [if_neg h0, if_neg h1, if_neg h2]
    by_cases h : Passed addr size n
    · rw [hgo h]
      obtain ⟨h1, h2⟩ | ⟨ns, n', ns', rfl, h2, h3, h4⟩ := ih (before ++ [n])
      · exact .inl ⟨h1, List.forall_mem_cons.mpr ⟨h, h2⟩⟩
      · refine .inr ⟨n :: ns, n', ns', rfl, List.forall_mem_cons.mpr ⟨h, h2⟩, h3, ?_⟩
        simpa only [List.append_assoc, List.cons_append, List.nil_append] using h4
    · obtain ⟨h0, h⟩ := not_or.mp h
      refine .inr ⟨[], n, rest, rfl, by simp, h0, ?_⟩
      rw [Virt.merge, if_neg h0, List.append_nil]
      by_cases h1 : add64 addr size = n.start
      · rw [if_pos h1]
        exact .inl ⟨h1, rfl⟩
      · have h2 : add64 n.start n.size = addr := by
          by_contra h2
          exact h ⟨h1, h2⟩
        rw [if_neg h1, if_pos h2]
        refine .inr ⟨h1, h2, ?_⟩
        simp only [joined]
        cases Virt.absorb (add64 n.start (add64 n.size size)) before with
        | some r => rfl
        | none => cases Virt.absorb (add64 n.start (add64 n.size size)) rest <;> rfl

/-- The inner loop, at the region `c` that has grown. -/
theorem absorb_took {start grown : Nat} (H : Holds m l (xs ++ c :: ys))
    (hc : c.region = ⟨start, grown⟩) : ∃ m' cs', l.absorb c.spot start grown m = some m' ∧
      m'.placement = m.placement ∧ Holds m' l cs' ∧ Goes m (xs ++ c :: ys) m' cs' ∧
      cs'.map Cell.region = joined start grown (xs.map Cell.region) (ys.map Cell.region) := by
  have hne : ∀ d ∈ xs ++ ys, d.spot ≠ c.spot := by
    have hspots := H.spots
    rw [List.map_append, List.map_cons, List.nodup_middle, List.nodup_cons, ← List.map_append]
      at hspots
    exact fun d hd h => hspots.1 (h ▸ List.mem_map_of_mem hd)
  -- the body goes on at `c` and at every region that does not start at the end of it
  have hgo : ∀ d ∈ xs ++ c :: ys, d.spot = c.spot ∨
      ¬(d.region.size ≠ 0 ∧ add64 start grown = d.region.start) →
      absorbAt c.spot start grown m d.spot = some none := by
    intro d hd h
    rw [absorbAt, H.regions d hd, Option.bind_eq_bind, Option.bind_some]
    by_cases h0 : d.spot = c.spot ∨ d.region.size = 0
    · rw [if_pos h0]
    · rw [if_neg h0, if_neg]
      exact fun he => h.elim (fun h1 => h0 (.inl h1)) fun h1 => h1 ⟨fun h2 => h0 (.inr h2), he⟩
  have hstop : ∀ d ∈ xs ++ ys, (d.region.size ≠ 0 ∧ add64 start grown = d.region.start) →
      absorbAt c.spot start grown m d.spot = some (some ((m.setRegion c.spot
        ⟨start, add64 grown d.region.size⟩).setRegion d.spot { d.region with size := 0 })) := by
    intro d hd h
    have hmem : d ∈ xs ++ c :: ys := by
      rcases List.mem_append.mp hd with hd | hd <;> simp [hd]
    rw [absorbAt, H.regions d hmem, Option.bind_eq_bind, Option.bind_some,
      if_neg (not_or.mpr ⟨hne d hd, h.1⟩), if_pos h.2]
  rw [absorb, joined]
  obtain ⟨h1, h2⟩ | ⟨ns, n, ns', h1, h2, h3, h4⟩ :=
    absorb_cases (add64 start grown) (xs.map Cell.region)
  · rw [List.forall_mem_map] at h2
    rw [h1]
    obtain ⟨h3, h4⟩ | ⟨ns, n, ns', h3, h4, h5, h6⟩ :=
      absorb_cases (add64 start grown) (ys.map Cell.region)
    · rw [List.forall_mem_map] at h4
      rw [h3, H.each_none fun d hd => hgo d hd ?_]
      · exact ⟨m, _, rfl, rfl, H, .refl, by rw [List.map_append, List.map_cons, hc]⟩
      · rcases List.mem_append.mp hd with hd | hd
        · exact .inr (h2 d hd)
        · rcases List.mem_cons.mp hd with rfl | hd
          · exact .inl rfl
          · exact .inr (h4 d hd)
    · obtain ⟨as, d, bs, rfl, rfl, rfl, rfl⟩ := map_region_eq h3
      rw [List.forall_mem_map] at h4
      rw [h6]
      obtain ⟨H1, hgoes1⟩ := H.setRegion ⟨start, add64 grown d.region.size⟩
      rw [← List.cons_append, ← List.append_assoc] at H H1
      obtain ⟨H2, hgoes2⟩ := H1.setRegion { d.region with size := 0 }
      rw [H.each_some (fun e he => hgo e ?_ ?_) (hstop d (by simp) h5) (by simp)]
      · exact ⟨_, _, rfl, rfl, H2, hgoes1.trans (by
        simpa only [List.append_assoc, List.cons_append, Option.getD_some] using hgoes2), by simp⟩
      · simp only [List.mem_append, List.mem_cons] at he ⊢
        tauto
      · rcases List.mem_append.mp he with he | he
        · exact .inr (h2 e he)
        · rcases List.mem_cons.mp he with rfl | he
          · exact .inl rfl
          · exact .inr (h4 e he)
  · obtain ⟨as, d, bs, rfl, rfl, rfl, rfl⟩ := map_region_eq h1
    rw [List.forall_mem_map] at h2
    rw [h4]
    obtain ⟨H1, hgoes1⟩ := H.setRegion ⟨start, add64 grown d.region.size⟩
    rw [List.append_assoc, List.cons_append] at H H1
    obtain ⟨H2, hgoes2⟩ := H1.setRegion { d.region with size := 0 }
    rw [H.each_some (fun e he => hgo e (by simp [he]) (.inr (h2 e he))) (hstop d (by simp) h3)
      (by simp)]
    exact ⟨_, _, rfl, rfl, H2, hgoes1.trans (by
        simpa only [List.append_assoc, List.cons_append, Option.getD_some] using hgoes2), by simp⟩

theorem free_alike (H : StandsFor m l cs v) (hs : s.placement = m.placement) (addr size : Nat) :
    Alike (Took m cs) ((v.free addr size).run s) (l.free addr size m) := by
  obtain ⟨H, hv⟩ := H
  rw [free, Virt.free, ← hv]
  have hpass : ∀ c ∈ cs, Passed addr (alignUp size) c.region →
      l.freeAt addr (alignUp size) m c.spot = some none := by
    intro c hc h
    rw [freeAt, H.regions c hc, Option.bind_eq_bind, Option.bind_some]
    by_cases h0 : c.region.size = 0
    · rw [if_pos h0]
    · obtain ⟨h1, h2⟩ := h.resolve_left h0
      rw [if_neg h0, if_neg h1, if_neg h2]
  obtain ⟨h1, h2⟩ | ⟨ns, n, ns', h1, h2, h3, h4⟩ :=
    merge_cases addr (alignUp size) [] (cs.map Cell.region)
  · rw [List.forall_mem_map] at h2
    rw [h1]
    simp only [H.each_none fun c hc => hpass c hc (h2 c hc), Option.bind_eq_bind, Option.bind_some]
    exact (pushNode_alike H hs _ _).mono fun _ _ _ h => h.took hv
  · obtain ⟨xs, c, ys, rfl, rfl, rfl, rfl⟩ := map_region_eq h1
    rw [List.forall_mem_map] at h2
    have hgo : ∀ d ∈ xs, l.freeAt addr (alignUp size) m d.spot = some none :=
      fun d hd => hpass d (by simp [hd]) (h2 d hd)
    have hat := H.regions c (by simp)
    rw [List.nil_append] at h4
    obtain ⟨h4, h5⟩ | ⟨h4, h5, h6⟩ := h4
    · obtain ⟨H', hgoes⟩ := H.setRegion ⟨addr, add64 c.region.size (alignUp size)⟩
      rw [h5, H.each_some (r := some (some (m.setRegion c.spot
        ⟨addr, add64 c.region.size (alignUp size)⟩))) hgo ?_ (by simp)]
      · exact ⟨hs, _, ⟨H', by simp⟩, hgoes⟩
      · rw [freeAt, hat, Option.bind_eq_bind, Option.bind_some, if_neg h3, if_pos h4]
    · obtain ⟨H', hgoes⟩ := H.setRegion ⟨c.region.start, add64 c.region.size (alignUp size)⟩
      obtain ⟨m', cs', h7, h8, H'', hgoes', hmap⟩ := absorb_took H' rfl
      rw [h6, H.each_some (r := some (some m')) hgo ?_ (by simp)]
      · exact ⟨hs.trans h8.symm, cs', ⟨H'', hmap⟩, hgoes.trans hgoes'⟩
      · rw [freeAt, hat, Option.bind_eq_bind, Option.bind_some, if_neg h3, if_neg h4, if_pos h5]
        simp only [h7, Option.bind_eq_bind, Option.bind_some]

/-! ### Copies -/

/-- The loop of the copies, at the cells `zs` of the other object. -/
theorem copyFrom_alike {zs : List Cell} (H : StandsFor m l cs v) (hs : s.placement = m.placement)
    (hz : Linked m p zs 0)
    (hat : ∀ d ∈ zs, (0 < d.link ∧ d.link < m.placement ∧ d.spot < m.placement) ∧
      m.regions d.spot = some d.region)
    (hap : ∀ c ∈ cs, ∀ d ∈ zs, c.link ≠ d.link ∧ c.spot ≠ d.spot) (hn : zs.length < n) :
    Alike (Took m cs) (((zs.map Cell.region).foldlM Virt.pushBack v).run s) (copyFrom n p l m) := by
  induction zs generalizing n p l cs v m s with
  | nil =>
    obtain ⟨k, rfl⟩ := Nat.exists_eq_add_of_lt hn
    rw [show p = 0 from hz]
    exact ⟨hs, cs, H, .refl⟩
  | cons d zs ih =>
    obtain ⟨k, rfl⟩ : ∃ k, n = k + 1 := ⟨n - 1, by rw [List.length_cons] at hn; omega⟩
    obtain ⟨rfl, r, h2, h3⟩ := hz
    obtain ⟨h4, h5⟩ := hat d List.mem_cons_self
    rw [List.map_cons, List.foldlM_cons, copyFrom, if_neg (by omega)]
    simp only [h2, h5, Option.bind_eq_bind, Option.bind_some]
    refine (pushNode_alike H.1 hs v d.region).bind fun v' l' s' m' hs' hp => ?_
    obtain ⟨cs', H', hgoes⟩ := hp.took H.2
    have hold : ∀ e ∈ d :: zs, e.link ∉ cs.map Cell.link ∧ e.spot ∉ cs.map Cell.spot := by
      intro e he
      constructor
      · intro hm
        obtain ⟨c, hc, hce⟩ := List.mem_map.mp hm
        exact (hap c hc e he).1 hce
      · intro hm
        obtain ⟨c, hc, hce⟩ := List.mem_map.mp hm
        exact (hap c hc e he).2 hce
    have hlink : ∀ e ∈ d :: zs, m'.links e.link = m.links e.link :=
      fun e he => hgoes.links _ (hat e he).1.2.1 (hold e he).1
    simp only [hlink d List.mem_cons_self, h2, Option.bind_some]
    refine (ih H' hs' (h3.frame fun e he => hlink e (List.mem_cons_of_mem _ he)) ?_ ?_
      (by rw [List.length_cons] at hn; omega)).mono fun _ _ _ h => ?_
    · intro e he
      obtain ⟨h6, h7⟩ := hat e (List.mem_cons_of_mem _ he)
      have := hgoes.le
      exact ⟨by omega, (hgoes.regions _ h6.2.2 (hold e (List.mem_cons_of_mem _ he)).2).trans h7⟩
    · exact hgoes.apart (fun e he => (hat e (List.mem_cons_of_mem _ he)).1.2)
        fun c hc e he => hap c hc e (List.mem_cons_of_mem _ he)
    · obtain ⟨cs'', H'', hgoes'⟩ := h
      exact ⟨cs'', H'', hgoes.trans hgoes'⟩

theorem assign_alike {other : Ilist} {w : Virt} (H : Holds m l cs) (Ho : StandsFor m other ys w)
    (hs : s.placement = m.placement) :
    Alike (Took m []) ((w.freeMemList.foldlM Virt.pushBack ⟨[]⟩).run s) (l.assign other m) := by
  have hclear : l.clear m = some new := by
    rw [clear, H.each_none fun _ _ => rfl]
  have hlen := Ho.1.length_le
  rw [assign, hclear, ← Ho.2]
  exact copyFrom_alike ⟨holds_new, rfl⟩ hs Ho.1.linked
    (fun d hd => ⟨Ho.1.below d hd, Ho.1.regions d hd⟩) (by simp) (by omega)

/-- An object that starts anew owns nothing else. -/
theorem Took.of_nil (h : Took m [] v l m') (cs : List Cell) : Took m cs v l m' := by
  obtain ⟨cs', H, hgoes⟩ := h
  refine ⟨cs', H, hgoes.le, fun p hp _ => hgoes.links p hp (by simp),
    fun p hp _ => hgoes.regions p hp (by simp), fun c hc => .inr ?_, fun c hc => .inr ?_⟩
  · exact (hgoes.ownLinks c hc).resolve_left (by simp)
  · exact (hgoes.ownSpots c hc).resolve_left (by simp)

end Ilist

namespace VirtCall

open Ilist

variable {m m' : NodeStore} {objs : Nat → Ilist} {cells : Nat → List Cell} {vs : Nat → Virt}
  {s : Machine} {v : Virt} {l : Ilist} {i : Nat}

/-- Every object shows its list, and no two share a node. -/
structure Inv (m : NodeStore) (objs : Nat → Ilist) (cells : Nat → List Cell) (vs : Nat → Virt) :
    Prop where
  shown : ∀ i, StandsFor m (objs i) (cells i) (vs i)
  apart : ∀ i j, i ≠ j → ∀ c ∈ cells i, ∀ d ∈ cells j, c.link ≠ d.link ∧ c.spot ≠ d.spot

/-- What a call does to one object leaves the others. -/
theorem Inv.update (I : Inv m objs cells vs) (h : Took m (cells i) v l m') : ∃ cells',
    Inv m' (Function.update objs i l) cells' (Function.update vs i v) := by
  obtain ⟨cs', H, hgoes⟩ := h
  have hap : ∀ j, j ≠ i → ∀ c ∈ cs', ∀ d ∈ cells j, c.link ≠ d.link ∧ c.spot ≠ d.spot :=
    fun j hj => hgoes.apart (fun d hd => ((I.shown j).1.below d hd).2) (I.apart i j hj.symm)
  refine ⟨Function.update cells i cs', ⟨fun j => ?_, fun j k hjk => ?_⟩⟩
  · by_cases hj : j = i
    · subst hj
      simpa only [Function.update_self] using H
    · simp only [Function.update_of_ne hj]
      exact ⟨(I.shown j).1.frame hgoes (I.apart i j (Ne.symm hj)), (I.shown j).2⟩
  · by_cases hj : j = i
    · subst hj
      rw [Function.update_self, Function.update_of_ne hjk.symm]
      exact hap k hjk.symm
    · rw [Function.update_of_ne hj]
      by_cases hk : k = i
      · subst hk
        rw [Function.update_self]
        exact fun c hc d hd => (hap j hj d hd c hc).imp Ne.symm Ne.symm
      · rw [Function.update_of_ne hk]
        exact I.apart j k hjk

/-- The two sides of a call: the same answer, and objects that show the lists. -/
def Same {ρ : Type} (r : ρ × (Nat → Virt)) (r' : ρ × (Nat → Ilist)) (m : NodeStore) : Prop :=
  r.1 = r'.1 ∧ ∃ cells, Inv m r'.2 cells r.2

theorem step_alike (I : Inv m objs cells vs) (hs : s.placement = m.placement) (c : VirtCall) :
    Alike Same ((stepLists vs c).run s) (step objs m c) := by
  cases c with
  | construct i =>
    refine (construct_alike hs).bind fun _ _ _ _ hs' h => ?_
    exact ⟨hs', rfl, I.update (h.of_nil (cells i))⟩
  | copy i j =>
    refine (assign_alike holds_new (I.shown j) hs).bind fun _ _ _ _ hs' h => ?_
    exact ⟨hs', rfl, I.update (h.of_nil (cells i))⟩
  | assign i j =>
    rw [step, stepLists]
    by_cases hij : i = j
    · rw [if_pos hij, if_pos hij]
      exact ⟨hs, rfl, cells, I⟩
    · rw [if_neg hij, if_neg hij]
      refine (assign_alike (I.shown i).1 (I.shown j) hs).bind fun _ _ _ _ hs' h => ?_
      exact ⟨hs', rfl, I.update (h.of_nil (cells i))⟩
  | alloc i size =>
    obtain ⟨m', h1, h2, h3⟩ := alloc_took (I.shown i) size
    have hupdate := I.update h3
    rw [Function.update_eq_self] at hupdate
    rw [step, h1]
    exact ⟨hs.trans h2.symm, rfl, hupdate⟩
  | allocAt i addr size =>
    refine (allocAt_alike (I.shown i) hs addr size).bind fun _ _ _ _ hs' h => ?_
    exact ⟨hs', congrArg Bool.toNat h.1, I.update h.2⟩
  | free i addr size =>
    refine (free_alike (I.shown i) hs addr size).bind fun _ _ _ _ hs' h => ?_
    exact ⟨hs', rfl, I.update h⟩
  | place size =>
    refine Alike.place hs fun s' hs' _ => ?_
    have hgoes : Goes m [] { m with placement := m.placement + size } [] :=
      ⟨Nat.le_add_right _ _, fun _ _ _ => rfl, fun _ _ _ => rfl, by simp, by simp⟩
    exact ⟨hs', rfl, cells, fun i => ⟨(I.shown i).1.frame hgoes (by simp), (I.shown i).2⟩, I.apart⟩

theorem exec_alike_of_inv (cs : List VirtCall) (I : Inv m objs cells vs)
    (hs : s.placement = m.placement) :
    Alike Same ((execLists cs vs).run s) (exec cs objs m) := by
  induction cs generalizing m objs cells vs s with
  | nil => exact ⟨hs, rfl, cells, I⟩
  | cons c cs ih =>
    refine (step_alike I hs c).bind fun r r' _ _ hs' h => ?_
    obtain ⟨h1, cells', I'⟩ := h
    refine (ih I' hs').bind fun rs rs' _ _ hs'' h' => ?_
    exact ⟨hs'', congrArg₂ List.cons h1 h'.1, h'.2⟩

/-- **The nodes are the lists.** Any calls on any number of objects, with other code that draws from
the watermark in between, fault on the nodes if and only if they fault on the lists. Else they
answer the same, leave the watermark at the same place, and leave objects that link the regions of
their lists by nodes that no other object has. -/
theorem exec_alike (cs : List VirtCall) (s : Machine) :
    Alike Same ((execLists cs fun _ => ⟨[]⟩).run s)
      (exec cs (fun _ => Ilist.new) ⟨s.placement, fun _ => none, fun _ => none⟩) := by
  have I : Inv ⟨s.placement, fun _ => none, fun _ => none⟩ (fun _ => Ilist.new) (fun _ => [])
      fun _ => ⟨[]⟩ := ⟨fun _ => ⟨holds_new, rfl⟩, by simp⟩
  exact exec_alike_of_inv cs I rfl

end VirtCall
end Coronel
