import Coronel.Kernel.Boot

/-!
# The virtual region manager is exact

`Inv v live`: the regions of the free list and the page-rounded live allocations together
count every address below 256 GB once and no other address. The equation says at once that the
free regions are disjoint, that the allocations are disjoint, and that the former are what the
latter leave. `allocFrom` moves one span from the first family to the second and `merge` moves it
back, whichever of its outcomes (`Joined`) is taken.
-/

namespace Coronel

open Theory

/-- The addresses of a free region. -/
def VirtNode.span (n : VirtNode) : Span := ⟨n.start, n.size⟩

/-- The region `virt` hands out for a request: the request rounded up to pages. -/
def pageRound (r : Span) : Span := ⟨r.start, alignUp r.size⟩

namespace Virt

/-- The regions of a free list. -/
abbrev spans (nodes : List VirtNode) : List Span := nodes.map VirtNode.span

/-- Some region of the free list is large enough for `size` bytes. -/
def HasFit (v : Virt) (size : Nat) : Prop :=
  ∃ spot ∈ v.freeMemList, spot.size ≠ 0 ∧ alignUp size ≤ spot.size

/-- Every live region is made of whole pages. -/
def PageAligned (nodes : List VirtNode) : Prop :=
  ∀ n ∈ nodes, n.size ≠ 0 → n.start % 4096 = 0 ∧ n.size % 4096 = 0

/-- Every live region ends at or below `VADDR_SIZE`. -/
def Bounded (nodes : List VirtNode) : Prop :=
  ∀ n ∈ nodes, n.size ≠ 0 → n.start + n.size ≤ vaddrSize

/-- The free regions and the page-rounded live allocations partition `[0, 256 GB)`. -/
structure Inv (v : Virt) (live : List Span) : Prop where
  cover : ∀ a, cover (spans v.freeMemList) a + cover live a = Span.ind ⟨0, vaddrSize⟩ a
  aligned : PageAligned v.freeMemList
  live_aligned : ∀ r ∈ live, r.start % 4096 = 0 ∧ r.size % 4096 = 0 ∧ 0 < r.size

/-! ### alloc -/

/-- `alloc` cuts the request off the front of the first region it fits in. -/
theorem allocFrom_eq_some {al a : Nat} {nodes nodes' : List VirtNode}
    (h : allocFrom al nodes = some (a, nodes')) : ∃ xs n ys, nodes = xs ++ n :: ys ∧
      (∀ x ∈ xs, x.size = 0 ∨ x.size < al) ∧ n.size ≠ 0 ∧ al ≤ n.size ∧ a = n.start ∧
      nodes' = xs ++ ⟨if n.size = al then n.start else add64 n.start al, n.size - al⟩ :: ys := by
  induction nodes generalizing nodes' with
  | nil => cases h
  | cons n ns ih =>
    rw [allocFrom] at h
    split at h
    · obtain ⟨⟨a', ns'⟩, h1, h2⟩ := Option.map_eq_some_iff.mp h
      cases h2
      obtain ⟨xs, m, ys, rfl, hx, h3, h4, rfl, rfl⟩ := ih h1
      exact ⟨n :: xs, m, ys, rfl, by simpa [*] using hx, h3, h4, rfl, rfl⟩
    · next hfit =>
      refine ⟨[], n, ns, rfl, by simp, by omega, by omega, ?_⟩
      split at h <;> next heq =>
        cases h
        simp [heq]

theorem allocFrom_eq_none {al : Nat} {nodes : List VirtNode} :
    allocFrom al nodes = none ↔ ∀ n ∈ nodes, n.size = 0 ∨ n.size < al := by
  induction nodes with
  | nil => simp [allocFrom]
  | cons n ns ih =>
    rw [allocFrom]
    split
    · next h => simp [ih, h]
    · next h => split <;> simp [h]

theorem Inv.bounded {v : Virt} {live : List Span} (h : Inv v live) : Bounded v.freeMemList := by
  intro n hn hne
  -- the last address of the region is counted, so it is below the end of the space
  have h1 := h.cover (n.start + n.size - 1)
  have h2 : n.span ∈ spans v.freeMemList := List.mem_map_of_mem hn
  have h3 := ind_le_cover (a := n.start + n.size - 1) h2
  rw [Span.ind_eq_one_iff.mpr (by simp only [VirtNode.span, Span.mem_mk]; omega)] at h3
  have h4 : Span.ind ⟨0, vaddrSize⟩ (n.start + n.size - 1) = 1 := by
    have := Span.ind_le_one ⟨0, vaddrSize⟩ (n.start + n.size - 1)
    omega
  simp only [Span.ind_eq_one_iff, Span.mem_mk] at h4
  omega

theorem Inv.live_bounded {v : Virt} {live : List Span} (h : Inv v live) {r : Span}
    (hr : r ∈ live) : r.start + r.size ≤ vaddrSize := by
  have h0 := (h.live_aligned r hr).2.2
  have h1 := h.cover (r.start + r.size - 1)
  have h3 := ind_le_cover (a := r.start + r.size - 1) hr
  rw [Span.ind_eq_one_iff.mpr (by rw [Span.mem_iff]; omega)] at h3
  have h4 : Span.ind ⟨0, vaddrSize⟩ (r.start + r.size - 1) = 1 := by
    have := Span.ind_le_one ⟨0, vaddrSize⟩ (r.start + r.size - 1)
    omega
  simp only [Span.ind_eq_one_iff, Span.mem_mk] at h4
  omega

/-- A request that fits becomes a live allocation. -/
theorem Inv.alloc {v : Virt} {live : List Span} {size : Nat} (h : Inv v live) (h1 : 1 ≤ size)
    (h2 : size + 4095 < 2 ^ 64) (hfit : v.HasFit size) :
    Inv (v.alloc size).2 (⟨(v.alloc size).1, alignUp size⟩ :: live) := by
  have hal : 0 < alignUp size := by have := le_alignUp h2; omega
  have hmod := alignUp_mod size
  unfold Virt.alloc
  rcases hr : allocFrom (alignUp size) v.freeMemList with _ | ⟨a, nodes⟩
  · obtain ⟨spot, hm, h3, h4⟩ := hfit
    rcases allocFrom_eq_none.mp hr spot hm with h | h <;> omega
  obtain ⟨xs, n, ys, he, -, hne, hle, rfl, rfl⟩ := allocFrom_eq_some hr
  have hmem : n ∈ v.freeMemList := by rw [he]; simp
  have hb := h.bounded n hmem hne
  have ha := h.aligned n hmem hne
  have hw : add64 n.start (alignUp size) = n.start + alignUp size :=
    add64_eq (by have : vaddrSize < 2 ^ 64 := by decide
                 omega)
  simp only [hw]
  refine ⟨fun a => ?_, ?_, ?_⟩
  · have h3 := h.cover a
    have h4 := Span.ind_add n.start (alignUp size) (n.size - alignUp size) a
    rw [Nat.add_sub_cancel' hle] at h4
    have h5 : Span.ind ⟨if n.size = alignUp size then n.start else n.start + alignUp size,
        n.size - alignUp size⟩ a = Span.ind ⟨n.start + alignUp size, n.size - alignUp size⟩ a := by
      split
      · rw [Span.ind_of_size_zero (by simp only; omega), Span.ind_of_size_zero (by simp only; omega)]
      · rfl
    rw [he] at h3
    simp only [spans, List.map_append, List.map_cons, VirtNode.span, cover_append,
      cover_cons] at h3 ⊢
    omega
  · intro m hm hm0
    simp only [List.mem_append, List.mem_cons] at hm
    rcases hm with hm | rfl | hm
    · exact h.aligned m (by rw [he]; simp [hm]) hm0
    · simp only at hm0 ⊢
      rw [if_neg (by omega)]
      omega
    · exact h.aligned m (by rw [he]; simp [hm]) hm0
  · intro r hr
    rcases List.mem_cons.mp hr with rfl | hr
    · exact ⟨ha.1, hmod, hal⟩
    · exact h.live_aligned r hr

theorem alloc_of_not_hasFit {v : Virt} {size : Nat} (h : ¬v.HasFit size) :
    v.alloc size = (0, v) := by
  unfold Virt.alloc
  rw [allocFrom_eq_none.mpr]
  intro n hn
  by_contra hc
  exact h ⟨n, hn, by omega, by omega⟩

/-! ### free -/

theorem absorb_eq_some {start k : Nat} {nodes nodes' : List VirtNode}
    (h : absorb start nodes = some (k, nodes')) : ∃ xs n ys, nodes = xs ++ n :: ys ∧
      n.size ≠ 0 ∧ start = n.start ∧ k = n.size ∧ nodes' = xs ++ { n with size := 0 } :: ys := by
  induction nodes generalizing nodes' with
  | nil => cases h
  | cons n ns ih =>
    rw [absorb] at h
    split at h
    · next hn =>
      cases h
      exact ⟨[], n, ns, rfl, hn.1, hn.2, rfl, rfl⟩
    · obtain ⟨⟨k', ns'⟩, h1, h2⟩ := Option.map_eq_some_iff.mp h
      cases h2
      obtain ⟨xs, m, ys, rfl, h3, h4, h5, rfl⟩ := ih h1
      exact ⟨n :: xs, m, ys, rfl, h3, h4, h5, rfl⟩

/-- Replacing one region by one with `k` more bytes behind it. -/
theorem cover_grow (xs ys : List VirtNode) (s n k a : Nat) :
    cover (spans (xs ++ ⟨s, n + k⟩ :: ys)) a =
      cover (spans (xs ++ ⟨s, n⟩ :: ys)) a + Span.ind ⟨s + n, k⟩ a := by
  have := Span.ind_add s n k a
  simp only [spans, List.map_append, List.map_cons, VirtNode.span, cover_append, cover_cons]
  omega

theorem PageAligned.replace {xs ys : List VirtNode} {n m : VirtNode}
    (h : PageAligned (xs ++ n :: ys)) (hm : m.start % 4096 = 0 ∧ m.size % 4096 = 0) :
    PageAligned (xs ++ m :: ys) := by
  intro x hx hx0
  simp only [List.mem_append, List.mem_cons] at hx
  rcases hx with hx | rfl | hx
  · exact h x (by simp [hx]) hx0
  · exact hm
  · exact h x (by simp [hx]) hx0

/-- A live region right before or right behind the range. -/
def touches (addr size : Nat) (n : VirtNode) : Bool :=
  n.size ≠ 0 ∧ (addr + size = n.start ∨ n.start + n.size = addr)

theorem absorb_eq_none {start : Nat} {nodes : List VirtNode} (h : absorb start nodes = none) :
    ∀ n ∈ nodes, n.size ≠ 0 → n.start ≠ start := by
  induction nodes with
  | nil => simp
  | cons n ns ih =>
    rw [absorb] at h
    split at h
    · cases h
    · next hn =>
      refine List.forall_mem_cons.mpr ⟨fun h0 heq => hn ⟨h0, heq.symm⟩, ih ?_⟩
      exact Option.map_eq_none_iff.mp h

/-- The list after a merge with the region `n`, which stands between `xs` and `ys`: the range lies
right before `n`, or right behind it, alone or with another region behind the range. -/
inductive Joined (addr size : Nat) (xs : List VirtNode) (n : VirtNode) :
    List VirtNode → List VirtNode → Prop
  | front {ys} : addr + size = n.start → Joined addr size xs n ys (xs ++ ⟨addr, n.size + size⟩ :: ys)
  | back {ys} : n.start + n.size = addr → (∀ m ∈ xs ++ ys, m.size ≠ 0 → m.start ≠ addr + size) →
    Joined addr size xs n ys (xs ++ ⟨n.start, n.size + size⟩ :: ys)
  | both {ys m zs} : n.start + n.size = addr → m.size ≠ 0 → m.start = addr + size →
    Joined addr size xs n (ys ++ m :: zs)
      (xs ++ ⟨n.start, n.size + size + m.size⟩ :: (ys ++ { m with size := 0 } :: zs))

/-- `merge` joins the range to the first region that touches it. -/
theorem merge_eq {addr size : Nat} {before rest : List VirtNode} (hb : Bounded (before ++ rest))
    (hend : addr + size ≤ vaddrSize) (hno : ∀ x ∈ before, touches addr size x = false) :
    match rest.find? (touches addr size) with
    | none => merge addr size before rest = none
    | some n => ∃ xs ys nodes, before ++ rest = xs ++ n :: ys ∧ n.size ≠ 0 ∧
        merge addr size before rest = some nodes ∧ Joined addr size xs n ys nodes := by
  have hv : vaddrSize < 2 ^ 64 := by decide
  induction rest generalizing before with
  | nil => rfl
  | cons n ns ih =>
    have hmem : n ∈ before ++ n :: ns := by simp
    have happ : before ++ [n] ++ ns = before ++ n :: ns := by simp
    by_cases ht : touches addr size n = true
    · rw [List.find?_cons_of_pos ht]
      simp only [touches, decide_eq_true_iff] at ht
      obtain ⟨hne, htouch⟩ := ht
      have hnb := hb n hmem hne
      rw [merge, if_neg hne, add64_eq (a := addr) (by omega)]
      by_cases hfront : addr + size = n.start
      · rw [if_pos hfront, add64_eq (by omega)]
        exact ⟨before, ns, _, rfl, hne, rfl, .front hfront⟩
      have hback := htouch.resolve_left hfront
      have hg : add64 n.size size = n.size + size := add64_eq (by omega)
      have hr : add64 n.start (n.size + size) = addr + size := by rw [add64_eq] <;> omega
      rw [if_neg hfront, add64_eq (a := n.start) (by omega), if_pos hback]
      simp only [hg, hr]
      -- no region before `n` starts where the range ends: it would have been met first
      rcases hbefore : absorb (addr + size) before with _ | r
      · have h1 := absorb_eq_none hbefore
        rcases hafter : absorb (addr + size) ns with _ | r
        · have h2 := absorb_eq_none hafter
          refine ⟨before, ns, _, rfl, hne, rfl, .back hback fun m hm => ?_⟩
          exact (List.mem_append.mp hm).elim (h1 m) (h2 m)
        · obtain ⟨ys, m, zs, rfl, hm, hstart, hk, hlist⟩ := absorb_eq_some hafter
          have hmb := hb m (by simp) hm
          refine ⟨before, _, _, rfl, hne, rfl, ?_⟩
          simp only [hlist, hk]
          rw [add64_eq (by omega)]
          exact .both hback hm hstart.symm
      · obtain ⟨ys, m, zs, rfl, hm, hstart, -⟩ := absorb_eq_some hbefore
        have := hno m (by simp)
        simp only [touches, decide_eq_false_iff_not] at this
        exact absurd ⟨hm, .inl hstart⟩ this
    · have hf : touches addr size n = false := by simpa using ht
      rw [List.find?_cons_of_neg ht]
      have hskip : merge addr size before (n :: ns) = merge addr size (before ++ [n]) ns := by
        simp only [touches, decide_eq_false_iff_not] at hf
        rw [merge]
        split
        · rfl
        · next hne =>
          have hnb := hb n hmem hne
          rw [add64_eq (a := addr) (by omega), if_neg fun h => hf ⟨hne, .inl h⟩,
            add64_eq (a := n.start) (by omega), if_neg fun h => hf ⟨hne, .inr h⟩]
      have := @ih (before ++ [n]) (by rwa [happ]) (by simpa [or_imp, forall_and, hf] using hno)
      rwa [← hskip, happ] at this

/-- A merge adds exactly the freed span. -/
theorem Joined.spec {addr size : Nat} {xs ys nodes : List VirtNode} {n : VirtNode}
    (h : Joined addr size xs n ys nodes) (ha : PageAligned (xs ++ n :: ys)) (hne : n.size ≠ 0)
    (hal : addr % 4096 = 0 ∧ size % 4096 = 0) :
    (∀ a, cover (spans nodes) a = cover (spans (xs ++ n :: ys)) a + Span.ind ⟨addr, size⟩ a) ∧
      PageAligned nodes := by
  have hna := ha n (by simp) hne
  cases h with
  | front heq =>
    refine ⟨fun a => ?_, ha.replace (by simp only; omega)⟩
    have := Span.ind_add addr size n.size a
    rw [heq] at this
    simp only [spans, List.map_append, List.map_cons, VirtNode.span, cover_append, cover_cons,
      Nat.add_comm n.size size]
    omega
  | back heq _ =>
    refine ⟨fun a => ?_, ha.replace (by simp only; omega)⟩
    have := cover_grow xs ys n.start n.size size a
    rwa [heq] at this
  | @both ys m zs heq hm hstart =>
    have hma := ha m (by simp) hm
    refine ⟨fun a => ?_, ?_⟩
    · have h1 := Span.ind_add n.start n.size (size + m.size) a
      have h2 := Span.ind_add addr size m.size a
      have h3 := Span.ind_of_size_zero (r := ⟨m.start, 0⟩) rfl a
      rw [heq, ← Nat.add_assoc] at h1
      rw [← hstart] at h2
      simp only [spans, List.map_append, List.map_cons, VirtNode.span, cover_append,
        cover_cons, h3]
      omega
    · intro x hx hx0
      simp only [List.mem_append, List.mem_cons] at hx
      rcases hx with hx | rfl | hx | rfl | hx
      · exact ha x (by simp [hx]) hx0
      · simp only
        omega
      · exact ha x (by simp [hx]) hx0
      · exact absurd rfl hx0
      · exact ha x (by simp [hx]) hx0

theorem pushBack_ok {v v' : Virt} {n : VirtNode} {s s' : Machine}
    (h : (pushBack v n).run s = (.ok v', s')) : v' = ⟨v.freeMemList ++ [n]⟩ := by
  unfold pushBack at h
  obtain ⟨_, _, -, h⟩ := Prog.run_bind_eq_ok.mp h
  obtain ⟨_, _, -, h⟩ := Prog.run_bind_eq_ok.mp h
  obtain ⟨_, _, -, h⟩ := Prog.run_bind_eq_ok.mp h
  obtain ⟨_, _, -, h⟩ := Prog.run_bind_eq_ok.mp h
  cases h
  rfl

/-- The list after `free`: the range joined to the first region that touches it, or a region of its
own. -/
theorem free_cases {v v' : Virt} {addr size : Nat} {s s' : Machine} (hb : Bounded v.freeMemList)
    (hend : addr + alignUp size ≤ vaddrSize) (hf : (v.free addr size).run s = (.ok v', s')) :
    match v.freeMemList.find? (touches addr (alignUp size)) with
    | none => v' = ⟨v.freeMemList ++ [⟨addr, alignUp size⟩]⟩
    | some n => ∃ xs ys, v.freeMemList = xs ++ n :: ys ∧ n.size ≠ 0 ∧
        Joined addr (alignUp size) xs n ys v'.freeMemList := by
  have hm := @merge_eq _ _ [] v.freeMemList hb hend (by simp)
  unfold Virt.free at hf
  split at hm
  · rw [hm] at hf
    exact pushBack_ok hf
  · obtain ⟨xs, ys, nodes, h1, h2, h3, h4⟩ := hm
    rw [h3] at hf
    cases hf
    exact ⟨xs, ys, h1, h2, h4⟩

/-- `free` adds exactly the freed span. -/
theorem free_spec {v v' : Virt} {addr size : Nat} {s s' : Machine} (hb : Bounded v.freeMemList)
    (ha : PageAligned v.freeMemList) (haddr : addr % 4096 = 0)
    (hend : addr + alignUp size ≤ vaddrSize) (hf : (v.free addr size).run s = (.ok v', s')) :
    (∀ a, Theory.cover (spans v'.freeMemList) a =
      Theory.cover (spans v.freeMemList) a + Span.ind ⟨addr, alignUp size⟩ a) ∧
      PageAligned v'.freeMemList := by
  have hal := alignUp_mod size
  have hc := free_cases hb hend hf
  split at hc
  · rw [hc]
    refine ⟨fun a => ?_, fun n hn hn0 => ?_⟩
    · simp only [spans, List.map_append, List.map_cons, List.map_nil, VirtNode.span, cover_append,
        cover_cons, cover_nil, Nat.add_zero]
    · rcases List.mem_append.mp hn with hn | hn
      · exact ha n hn hn0
      · rw [List.mem_singleton.mp hn]
        exact ⟨haddr, hal⟩
  · obtain ⟨xs, ys, h1, h2, h3⟩ := hc
    rw [h1] at ha ⊢
    exact h3.spec ha h2 ⟨haddr, hal⟩

/-- Freeing a live allocation gives its pages back. -/
theorem Inv.free {v v' : Virt} {live : List Span} {addr size : Nat} {s s' : Machine}
    (h : Inv v (⟨addr, alignUp size⟩ :: live))
    (hf : (v.free addr size).run s = (.ok v', s')) : Inv v' live := by
  have hl := h.live_aligned _ (by simp : (⟨addr, alignUp size⟩ : Span) ∈ _)
  have hend := h.live_bounded (by simp : (⟨addr, alignUp size⟩ : Span) ∈ _)
  have haddr : addr % 4096 = 0 := hl.1
  obtain ⟨h1, h2⟩ := free_spec h.bounded h.aligned haddr hend hf
  refine ⟨fun a => ?_, h2, fun r hr => h.live_aligned r (by simp [hr])⟩
  have h3 := h.cover a
  rw [cover_cons] at h3
  have h4 := h1 a
  omega

theorem Inv.new {v : Virt} {s s' : Machine} (h : Virt.new.run s = (.ok v, s')) : Inv v [] := by
  rw [pushBack_ok h]
  refine ⟨fun a => ?_, ?_, by simp⟩
  · simp [VirtNode.span, vaddrStart]
  · intro n hn _
    rw [List.mem_singleton.mp hn]
    decide

theorem Inv.perm {v : Virt} {live live' : List Span} (h : Inv v live) (hp : live.Perm live') :
    Inv v live' :=
  ⟨fun a => by rw [← cover_perm hp]; exact h.cover a, h.aligned,
    fun r hr => h.live_aligned r (hp.mem_iff.mpr hr)⟩

/-! ### Runs -/

/-- The states of a `virt` and its live allocations (start and requested size) under `alloc(size)`
and `free(addr, size)`. A request that fits is an allocation, also when it is handed address 0. -/
inductive Run : Virt → List Span → Prop
  | new {v s s'} : Virt.new.run s = (.ok v, s') → Run v []
  | alloc {v live size} : Run v live → 1 ≤ size → size + 4095 < 2 ^ 64 → v.HasFit size →
    Run (v.alloc size).2 (⟨(v.alloc size).1, size⟩ :: live)
  | allocNull {v live size} : Run v live → 1 ≤ size → size + 4095 < 2 ^ 64 → ¬v.HasFit size →
    Run (v.alloc size).2 live
  | free {v v' live r s s'} : Run v live → r ∈ live →
    (v.free r.start r.size).run s = (.ok v', s') → Run v' (live.erase r)

theorem Run.inv {v : Virt} {live : List Span} (h : Run v live) : Inv v (live.map pageRound) := by
  induction h with
  | new h => exact Inv.new h
  | alloc _ h1 h2 hfit ih => exact ih.alloc h1 h2 hfit
  | allocNull _ _ _ hfit ih => rwa [alloc_of_not_hasFit hfit]
  | @free v v' live r s s' _ hr hf ih =>
    have hp : (live.map pageRound).Perm (pageRound r :: (live.erase r).map pageRound) :=
      (List.perm_cons_erase hr).map pageRound
    exact (ih.perm hp).free hf

/-- **Exactness.** In every state a `virt` reaches, its non-empty free regions are page aligned and
pairwise disjoint, its live allocations are pairwise disjoint, and the free addresses are those of
`[0, 256 GB)` outside the page-rounded live allocations. -/
theorem Run.exact {v : Virt} {live : List Span} (h : Run v live) :
    PageAligned v.freeMemList ∧
    (spans v.freeMemList).Pairwise Span.Disjoint ∧
    (live.map pageRound).Pairwise Span.Disjoint ∧
    ∀ a, (∃ n ∈ v.freeMemList, a ∈ n.span) ↔
      a < vaddrSize ∧ ¬∃ r ∈ live, a ∈ pageRound r := by
  have hi := h.inv
  have hle : ∀ a, cover (spans v.freeMemList) a + cover (live.map pageRound) a ≤ 1 :=
    fun a => by rw [hi.cover]; exact Span.ind_le_one ..
  refine ⟨hi.aligned, pairwise_disjoint_of_cover_le_one fun a => ?_,
    pairwise_disjoint_of_cover_le_one fun a => ?_, fun a => ?_⟩
  · have := hle a; omega
  · have := hle a; omega
  · have h1 : 0 < Theory.cover (spans v.freeMemList) a ↔ _ := cover_pos_iff
    have h2 : 0 < Theory.cover (live.map pageRound) a ↔ _ := cover_pos_iff
    simp only [List.mem_map, exists_exists_and_eq_and] at h1 h2
    have h3 := hi.cover a
    have h4 : Span.ind ⟨0, vaddrSize⟩ a = if a < vaddrSize then 1 else 0 := by
      simp [Span.ind]
    rw [← h1, ← h2]
    split at h4 <;> omega

/-- The first allocation is at address 0, and the rest of the space stays free. -/
theorem Run.exact_alloc : ∃ v s', Virt.new.run (bootMachine (mb 5)) = (.ok v, s') ∧
    (v.alloc 4096).1 = 0 ∧ ∀ a, (∃ n ∈ (v.alloc 4096).2.freeMemList, a ∈ n.span) ↔
      a < vaddrSize ∧ ¬∃ r ∈ [⟨(v.alloc 4096).1, 4096⟩], a ∈ pageRound r := by
  refine ⟨⟨[⟨0, gb 256⟩]⟩, _, rfl, rfl, ?_⟩
  exact (Run.exact (.alloc (.new (s := bootMachine (mb 5)) rfl) (by decide) (by decide)
    ⟨_, List.mem_cons_self, by decide, by decide⟩)).2.2.2

end Virt
end Coronel
