import Coronel.Verify.Virtual

/-!
# The contracts of `virt`

What `alloc(size)`, `alloc(addr, size)` and `free` do to the set of free addresses, for every size,
and exactly when it is what they are for. The null address is also the start of the address space,
`alloc(addr, size)` leaves a slot as large as the whole region, and `free` looks for a second
neighbour behind the freed range only.
-/

namespace Coronel

open Theory

namespace Virt

/-- The address lies in a region of the free list. -/
def IsFree (v : Virt) (a : Nat) : Prop := ∃ n ∈ v.freeMemList, a ∈ n.span

/-- A call of a `virt`. -/
inductive Request
  | alloc (size : Nat)
  | allocAt (addr size : Nat)
  | free (addr size : Nat)
deriving DecidableEq, Repr

/-- The states of a `virt` under calls that meet `ok`, with its live allocations. -/
inductive RunWhere (ok : Virt → Request → Prop) : Virt → List Span → Prop
  | new {v s s'} : Virt.new.run s = (.ok v, s') → RunWhere ok v []
  | alloc {v live size} : RunWhere ok v live → size < 2 ^ 64 → ok v (.alloc size) →
    v.HasFit size → RunWhere ok (v.alloc size).2 (⟨(v.alloc size).1, size⟩ :: live)
  | allocNull {v live size} : RunWhere ok v live → size < 2 ^ 64 → ok v (.alloc size) →
    ¬v.HasFit size → RunWhere ok (v.alloc size).2 live
  | allocAt {v v' live addr size r s s'} : RunWhere ok v live → addr % 4096 = 0 →
    size % 4096 = 0 → addr + size < 2 ^ 64 → ok v (.allocAt addr size) →
    (v.allocAt addr size).run s = (.ok (r, v'), s') →
    RunWhere ok v' (if r then ⟨addr, size⟩ :: live else live)
  | free {v v' live r s s'} : RunWhere ok v live → r ∈ live → ok v (.free r.start r.size) →
    (v.free r.start r.size).run s = (.ok v', s') → RunWhere ok v' (live.erase r)

/-! ### Regions within the address space -/

/-- The regions, dead ones included, end at or below `VADDR_SIZE`. -/
def Within (v : Virt) : Prop := ∀ n ∈ v.freeMemList, n.start + n.size ≤ vaddrSize

section
variable {v v' : Virt} {live : List Span} {addr size a : Nat} {s s' : Machine}
  {ok : Virt → Request → Prop}

theorem vaddrSize_lt : vaddrSize < 2 ^ 64 := by decide

theorem Within.bounded (h : Within v) : Bounded v.freeMemList := fun n hn _ => h n hn

theorem Within.lt (h : Within v) (ha : v.IsFree a) : a < vaddrSize := by
  obtain ⟨n, hn, hmem⟩ := ha
  have := h n hn
  simp only [VirtNode.span, Span.mem_mk] at hmem
  omega

theorem isFree_iff_cover : v.IsFree a ↔ 0 < cover (spans v.freeMemList) a := by
  rw [cover_pos_iff]
  simp only [IsFree, spans, List.mem_map, exists_exists_and_eq_and]

/-- Where `alloc` cuts its request off. -/
theorem alloc_cut (h : Within v) (hfit : v.HasFit size) : ∃ xs n ys, v.freeMemList = xs ++ n :: ys ∧
    (∀ x ∈ xs, x.size = 0 ∨ x.size < alignUp size) ∧ n.size ≠ 0 ∧ alignUp size ≤ n.size ∧
    (v.alloc size).1 = n.start ∧ (v.alloc size).2.freeMemList = xs ++
      ⟨if n.size = alignUp size then n.start else n.start + alignUp size, n.size - alignUp size⟩
        :: ys := by
  rcases hr : allocFrom (alignUp size) v.freeMemList with _ | ⟨r, nodes⟩
  · obtain ⟨spot, hm, h3, h4⟩ := hfit
    rcases allocFrom_eq_none.mp hr spot hm with h | h <;> omega
  · obtain ⟨xs, n, ys, he, hx, hne, hle, rfl, rfl⟩ := allocFrom_eq_some hr
    have hn := h n (by rw [he]; simp)
    have hv := vaddrSize_lt
    rw [add64_eq (by omega)] at hr
    refine ⟨xs, n, ys, he, hx, hne, hle, ?_, ?_⟩ <;> rw [Virt.alloc, hr]

/-- The regions around one of them. -/
theorem Within.split {xs ys : List VirtNode} {n : VirtNode} (h : Within v)
    (he : v.freeMemList = xs ++ n :: ys) : (∀ x ∈ xs, x.start + x.size ≤ vaddrSize) ∧
      n.start + n.size ≤ vaddrSize ∧ ∀ y ∈ ys, y.start + y.size ≤ vaddrSize := by
  rwa [Within, he, List.forall_mem_append, List.forall_mem_cons] at h

theorem within_mk {xs ys : List VirtNode} {n : VirtNode} (hv : v.freeMemList = xs ++ n :: ys)
    (hx : ∀ x ∈ xs, x.start + x.size ≤ vaddrSize) (hn : n.start + n.size ≤ vaddrSize)
    (hy : ∀ y ∈ ys, y.start + y.size ≤ vaddrSize) : Within v := by
  rw [Within, hv, List.forall_mem_append, List.forall_mem_cons]
  exact ⟨hx, hn, hy⟩

theorem Within.alloc (h : Within v) : Within (v.alloc size).2 := by
  by_cases hfit : v.HasFit size
  · obtain ⟨xs, n, ys, he, -, -, hle, -, hlist⟩ := alloc_cut h hfit
    obtain ⟨hx, hn, hy⟩ := h.split he
    refine within_mk hlist hx ?_ hy
    simp only
    split <;> omega
  · rwa [alloc_of_not_hasFit hfit]

theorem Within.free (h : Within v) (hend : addr + alignUp size ≤ vaddrSize)
    (hf : (v.free addr size).run s = (.ok v', s')) : Within v' := by
  have hc := free_cases h.bounded hend hf
  split at hc
  · exact within_mk (by rw [hc]) h hend (by simp)
  · obtain ⟨xs, ys, he, hne, hj⟩ := hc
    obtain ⟨hx, hn, hy⟩ := h.split he
    rcases hl : v'.freeMemList with nodes
    rw [hl] at hj
    cases hj with
    | front heq => exact within_mk hl hx (by simp only; omega) hy
    | back heq _ => exact within_mk hl hx (by simp only; omega) hy
    | @both ys m zs heq hm hstart =>
      rw [List.forall_mem_append, List.forall_mem_cons] at hy
      refine within_mk hl hx (by simp only; omega) ?_
      rw [List.forall_mem_append, List.forall_mem_cons]
      exact ⟨hy.1, by simp only; omega, hy.2.2⟩

/-! ### alloc(size) -/

/-- The region `alloc` takes its memory from. -/
def firstFit (v : Virt) (size : Nat) : Option VirtNode :=
  v.freeMemList.find? fun spot => spot.size ≠ 0 ∧ alignUp size ≤ spot.size

/-- What `alloc(size)` promises: `nullptr` exactly when no free region has `size` bytes, and
otherwise the start of a range that was free and is taken, with nothing beyond its pages. -/
def AllocContract (v : Virt) (size : Nat) : Prop :=
  ((v.alloc size).1 = 0 ↔ ¬∃ spot ∈ v.freeMemList, size ≤ spot.size) ∧
  ((v.alloc size).1 = 0 → ∀ a, (v.alloc size).2.IsFree a ↔ v.IsFree a) ∧
  ((v.alloc size).1 ≠ 0 →
    (∀ a ∈ (⟨(v.alloc size).1, size⟩ : Span), v.IsFree a ∧ ¬(v.alloc size).2.IsFree a) ∧
    ∀ a ∉ (⟨(v.alloc size).1, (size + 4095) / 4096 * 4096⟩ : Span),
      (v.alloc size).2.IsFree a ↔ v.IsFree a)

/-- A request that rounds to nothing takes nothing. -/
theorem alloc_of_alignUp_eq_zero (h : Within v) (h0 : alignUp size = 0) : (v.alloc size).2 = v := by
  by_cases hfit : v.HasFit size
  · obtain ⟨xs, n, ys, he, -, hne, -, -, hlist⟩ := alloc_cut h hfit
    rw [h0, if_neg hne, Nat.add_zero, Nat.sub_zero, ← he] at hlist
    exact congrArg Virt.mk hlist
  · rw [alloc_of_not_hasFit hfit]

theorem hasFit_iff_firstFit : v.HasFit size ↔ ∃ n, v.firstFit size = some n := by
  rw [← Option.isSome_iff_exists, firstFit, List.find?_isSome]
  simp only [decide_eq_true_iff, HasFit]

theorem alloc_start (h : Within v) {n : VirtNode} (hn : v.firstFit size = some n) :
    (v.alloc size).1 = n.start := by
  obtain ⟨xs, m, ys, he, hx, hne, hle, hstart, -⟩ := alloc_cut h (hasFit_iff_firstFit.mpr ⟨n, hn⟩)
  rw [hstart]
  rw [firstFit, he, List.find?_append, List.find?_eq_none.mpr, Option.none_or,
    List.find?_cons_of_pos (by simpa using ⟨hne, hle⟩)] at hn
  · rw [Option.some.inj hn]
  · intro x hxm
    have := hx x hxm
    simp only [decide_eq_true_iff]
    omega

/-- The rounded live allocations, those of no page left out. -/
def pages (live : List Span) : List Span := (live.map pageRound).filter fun r => r.size ≠ 0

/-- What holds along a run without fixed addresses. -/
structure Sound (v : Virt) (live : List Span) : Prop where
  inv : Inv v (pages live)
  within : Within v
  live : ∀ r ∈ live, r.start % 4096 = 0 ∧ r.start + alignUp r.size ≤ vaddrSize

theorem pages_cons (r : Span) (live : List Span) : pages (r :: live) =
    if alignUp r.size = 0 then pages live else pageRound r :: pages live := by
  rw [pages, List.map_cons, List.filter_cons]
  split <;> split <;> simp_all [pageRound, pages]

theorem pages_perm {live' : List Span} (h : live.Perm live') : (pages live).Perm (pages live') :=
  (h.map _).filter _

theorem Sound.alloc (H : Sound v live) (hsize : size < 2 ^ 64) (hfit : v.HasFit size) :
    Sound (v.alloc size).2 (⟨(v.alloc size).1, size⟩ :: live) := by
  obtain ⟨xs, n, ys, he, -, hne, hle, hstart, -⟩ := alloc_cut H.within hfit
  have hmem : n ∈ v.freeMemList := by rw [he]; simp
  have hend := H.within n hmem
  refine ⟨?_, H.within.alloc, List.forall_mem_cons.mpr ⟨?_, H.live⟩⟩
  · rw [pages_cons]
    by_cases h0 : alignUp size = 0
    · rw [if_pos h0, alloc_of_alignUp_eq_zero H.within h0]
      exact H.inv
    · have := (alignUp_eq_zero_iff hsize).not.mp h0
      rw [if_neg h0]
      exact H.inv.alloc (by omega) (by omega) hfit
  · rw [hstart]
    exact ⟨(H.inv.aligned n hmem hne).1, by simp only; omega⟩

theorem Sound.free {r : Span} (H : Sound v live) (hr : r ∈ live)
    (hf : (v.free r.start r.size).run s = (.ok v', s')) : Sound v' (live.erase r) := by
  obtain ⟨haddr, hend⟩ := H.live r hr
  have hp := pages_perm (List.perm_cons_erase hr)
  rw [pages_cons] at hp
  refine ⟨?_, H.within.free hend hf, fun x hx => H.live x (List.mem_of_mem_erase hx)⟩
  by_cases h0 : alignUp r.size = 0
  · rw [if_pos h0] at hp
    obtain ⟨h1, h2⟩ := free_spec H.inv.bounded H.inv.aligned haddr hend hf
    refine ⟨fun a => ?_, h2, (H.inv.perm hp).live_aligned⟩
    rw [h1, Span.ind_of_size_zero h0, Nat.add_zero]
    exact (H.inv.perm hp).cover a
  · rw [if_neg h0] at hp
    exact (H.inv.perm hp).free hf

theorem RunWhere.sound (h : RunWhere ok v live)
    (hok : ∀ v addr size, ¬ok v (.allocAt addr size)) : Sound v live := by
  induction h with
  | new h =>
    refine ⟨Inv.new h, ?_, by simp⟩
    rw [pushBack_ok h]
    exact fun n hn => by rw [List.mem_singleton.mp hn]; decide
  | alloc _ hsize _ hfit ih => exact ih.alloc hsize hfit
  | allocNull _ _ _ hfit ih => rwa [alloc_of_not_hasFit hfit]
  | allocAt _ _ _ _ hno => exact absurd hno (hok _ _ _)
  | free _ hr _ hf ih => exact ih.free hr hf

/-- No region has two owners. -/
theorem Sound.isFree_iff (H : Sound v live) :
    v.IsFree a ↔ a < vaddrSize ∧ ¬∃ r ∈ pages live, a ∈ r := by
  have h1 := H.inv.cover a
  have h2 : 0 < cover (pages live) a ↔ _ := cover_pos_iff
  have h3 := Span.ind_le_one ⟨0, vaddrSize⟩ a
  have h4 : Span.ind ⟨0, vaddrSize⟩ a = 1 ↔ a < vaddrSize := by
    rw [Span.ind_eq_one_iff, Span.mem_mk]
    omega
  rw [isFree_iff_cover, ← h2, ← h4]
  omega

/-- Requests other than for a fixed address. -/
def Floating : Request → Prop
  | .allocAt _ _ => False
  | _ => True

/-- What a request takes that does not wrap. -/
theorem Sound.isFree_alloc (H : Sound v live) (h1 : 1 ≤ size) (hwrap : size + 4095 < 2 ^ 64)
    (hfit : v.HasFit size) : (v.alloc size).2.IsFree a ↔
      v.IsFree a ∧ a ∉ pageRound ⟨(v.alloc size).1, size⟩ := by
  have hpos : alignUp size ≠ 0 := by
    have := le_alignUp hwrap
    omega
  rw [(H.alloc (by omega) hfit).isFree_iff, H.isFree_iff, pages_cons, if_neg hpos]
  simp only [List.exists_mem_cons_iff, not_or]
  exact ⟨fun ⟨h, hno, hno'⟩ => ⟨⟨h, hno'⟩, hno⟩, fun ⟨⟨h, hno'⟩, hno⟩ => ⟨h, hno, hno'⟩⟩

theorem Sound.allocContract {n : VirtNode} (H : Sound v live) (h1 : 1 ≤ size)
    (hwrap : size + 4095 < 2 ^ 64) (hfirst : v.firstFit size = some n) (hne : n.start ≠ 0) :
    AllocContract v size := by
  have hfit : v.HasFit size := hasFit_iff_firstFit.mpr ⟨n, hfirst⟩
  have hstart := alloc_start H.within hfirst
  have hn := List.find?_some hfirst
  have hmem := List.mem_of_find?_eq_some hfirst
  rw [decide_eq_true_iff] at hn
  have hle := le_alignUp hwrap
  have hfree := fun a => H.isFree_alloc (a := a) h1 hwrap hfit
  rw [hstart] at hfree
  have hex : ∃ spot ∈ v.freeMemList, size ≤ spot.size := ⟨n, hmem, hle.trans hn.2⟩
  refine ⟨⟨fun h0 => absurd (hstart.symm.trans h0) hne, fun hno => absurd hex hno⟩,
    fun h0 => absurd (hstart.symm.trans h0) hne, fun _ => ⟨fun a ha => ?_, fun a ha => ?_⟩⟩
  · rw [hstart, Span.mem_mk] at ha
    have hin : a ∈ pageRound ⟨n.start, size⟩ := by
      simp only [pageRound, Span.mem_mk]
      omega
    refine ⟨⟨n, hmem, ?_⟩, fun hc => ((hfree a).mp hc).2 hin⟩
    simp only [pageRound, VirtNode.span, Span.mem_mk] at hin ⊢
    omega
  · rw [hstart, ← alignUp_eq hwrap] at ha
    rw [hfree]
    exact and_iff_left ha

/-- **`alloc(size)`.** The contract holds exactly when no region fits or the first that fits starts
at 0 exactly if rounding the size up wraps. -/
theorem RunWhere.allocContract_iff (h : RunWhere (fun _ => Floating) v live) (h1 : 1 ≤ size)
    (hsize : size < 2 ^ 64) : AllocContract v size ↔
      ∀ spot ∈ v.firstFit size, spot.start ≠ 0 ↔ size + 4095 < 2 ^ 64 := by
  have H := h.sound fun _ _ _ hno => hno
  have hv : vaddrSize + 4095 < 2 ^ 64 := by decide
  rcases hfirst : v.firstFit size with _ | n
  · -- no region fits
    have hfit : ¬v.HasFit size := fun hc => by
      rw [hasFit_iff_firstFit, hfirst] at hc
      simp at hc
    have hnone : ¬∃ spot ∈ v.freeMemList, size ≤ spot.size := by
      rintro ⟨spot, hm, hle⟩
      have hb := H.within spot hm
      have ha := H.inv.aligned spot hm (by omega)
      exact hfit ⟨spot, hm, by omega, alignUp_le ha.2 (by omega) hle⟩
    simp [AllocContract, alloc_of_not_hasFit hfit, hnone]
  · have hstart := alloc_start H.within hfirst
    have hn := List.find?_some hfirst
    have hmem := List.mem_of_find?_eq_some hfirst
    rw [decide_eq_true_iff] at hn
    simp only [Option.mem_some_iff, forall_eq']
    by_cases hwrap : size + 4095 < 2 ^ 64
    · rw [iff_true_right hwrap]
      refine ⟨fun hc h0 => ?_, H.allocContract h1 hwrap hfirst⟩
      exact hc.1.mp (hstart.trans h0) ⟨n, hmem, (le_alignUp hwrap).trans hn.2⟩
    · have hnone : ¬∃ spot ∈ v.freeMemList, size ≤ spot.size := by
        rintro ⟨spot, hm, hle⟩
        have := H.within spot hm
        omega
      have hsame := alloc_of_alignUp_eq_zero H.within (alignUp_wrap hsize (by omega))
      rw [iff_false_right hwrap, not_not]
      refine ⟨fun hc => hstart.symm.trans (hc.1.mpr hnone), fun h0 => ?_⟩
      rw [← hstart] at h0
      exact ⟨⟨fun _ => hnone, fun _ => h0⟩, fun _ a => by rw [hsame], fun hne => absurd h0 hne⟩

/-- A new `virt`: the whole space is free. -/
theorem run_new : RunWhere ok ⟨[⟨0, gb 256⟩]⟩ [] :=
  have h : Virt.new.run (bootMachine (mb 5)) = (.ok ⟨[⟨0, gb 256⟩]⟩, _) := rfl
  .new h

theorem RunWhere.allocContract_iff_second :
    AllocContract (Virt.alloc ⟨[⟨0, gb 256⟩]⟩ 4096).2 4096 := by
  have hrun : RunWhere (fun _ => Floating) (Virt.alloc ⟨[⟨0, gb 256⟩]⟩ 4096).2 _ :=
    .alloc run_new (by decide) trivial ⟨_, List.mem_cons_self, by decide, by decide⟩
  exact (RunWhere.allocContract_iff hrun (by decide) (by decide)).mpr (by decide)

/-- The first allocation is handed out as `nullptr`. -/
theorem RunWhere.not_allocContract_first : ¬∀ v live size, RunWhere (fun _ => Floating) v live →
    1 ≤ size → size < 2 ^ 64 → AllocContract v size := by
  intro hall
  have hc := hall _ _ 4096 run_new (by decide) (by decide)
  exact hc.1.mp rfl ⟨⟨0, gb 256⟩, List.mem_cons_self, by decide⟩

/-! ### alloc(addr, size) -/

/-- The test that makes the loop of `alloc(addr, size)` pass over a region. -/
def passes (addr size : Nat) (spot : VirtNode) : Bool :=
  spot.start < addr ∧ add64 spot.start spot.size ≤ add64 addr size

/-- What `alloc(addr, size)` promises with its result and the new state. -/
def ReserveContract (v : Virt) (addr size : Nat) (r : Bool) (v' : Virt) : Prop :=
  (r = true ↔ ∀ a ∈ (⟨addr, size⟩ : Span), v.IsFree a) ∧
  (r = true → ∀ a, v'.IsFree a ↔ v.IsFree a ∧ a ∉ (⟨addr, size⟩ : Span)) ∧
  (r = false → ∀ a, v'.IsFree a ↔ v.IsFree a)

/-- When it keeps that: it passes over all regions and the range is not free, or the region it stops
at holds the whole range, no other region meets it, and the bytes by which the new slot is too large
are free already. -/
def Reserves (v : Virt) (addr size : Nat) : Prop :=
  match v.freeMemList.dropWhile (passes addr size) with
  | [] => ¬∀ a ∈ (⟨addr, size⟩ : Span), v.IsFree a
  | spot :: rest => spot.start ≤ addr ∧ addr + size ≤ spot.start + spot.size ∧
    (∀ m ∈ v.freeMemList.takeWhile (passes addr size) ++ rest, ∀ a ∈ m.span,
      a ∉ (⟨addr, size⟩ : Span)) ∧
    ∀ a, spot.start + spot.size ≤ a → a < addr + size + spot.size → v.IsFree a

/-- Requests that keep the promise of `alloc(addr, size)`. -/
def Exact (v : Virt) : Request → Prop
  | .allocAt addr size => Reserves v addr size
  | _ => True

theorem reserveFrom_eq (nodes : List VirtNode) : reserveFrom addr size nodes =
    match nodes.dropWhile (passes addr size) with
    | [] => none
    | spot :: rest => some (nodes.takeWhile (passes addr size) ++
        { spot with size := sub64 addr spot.start } :: rest, ⟨add64 addr size, spot.size⟩) := by
  induction nodes with
  | nil => rfl
  | cons n ns ih =>
    rw [reserveFrom]
    by_cases h : passes addr size n = true
    · rw [if_pos (by simpa [passes] using h), ih, List.dropWhile_cons_of_pos h,
        List.takeWhile_cons_of_pos h]
      split <;> rfl
    · rw [if_neg (by simpa [passes] using h), List.dropWhile_cons_of_neg h,
        List.takeWhile_cons_of_neg h]
      rfl

/-- The outcomes of `alloc(addr, size)`. -/
theorem allocAt_cases {r : Bool} (h : (v.allocAt addr size).run s = (.ok (r, v'), s')) :
    v.freeMemList.dropWhile (passes addr size) = [] ∧ r = false ∧ v' = v ∨
    ∃ spot rest, v.freeMemList.dropWhile (passes addr size) = spot :: rest ∧ r = true ∧
      v' = ⟨v.freeMemList.takeWhile (passes addr size) ++
        { spot with size := sub64 addr spot.start } :: rest ++ [⟨add64 addr size, spot.size⟩]⟩ := by
  rw [allocAt, reserveFrom_eq] at h
  rcases hd : v.freeMemList.dropWhile (passes addr size) with _ | ⟨spot, rest⟩
  · rw [hd] at h
    cases h
    exact .inl ⟨rfl, rfl, rfl⟩
  · rw [hd] at h
    simp only [Prog.run_bind_eq_ok] at h
    obtain ⟨v1, s1, h1, h2⟩ := h
    cases h2
    exact .inr ⟨spot, rest, rfl, rfl, pushBack_ok h1⟩

theorem isFree_split {xs ys : List VirtNode} {n : VirtNode} (he : v.freeMemList = xs ++ n :: ys) :
    v.IsFree a ↔ (∃ m ∈ xs ++ ys, a ∈ m.span) ∨ a ∈ n.span := by
  rw [IsFree, he]
  simp only [List.mem_append, List.mem_cons, or_and_right, exists_or, exists_eq_left]
  rw [or_left_comm, or_comm]

/-- The sets behind `alloc(addr, size)`: other regions `P`, the region `[start, start + n)` and the
two that replace it. -/
theorem reserve_sets {P : Nat → Prop} {start n : Nat} (hn : start + n ≤ vaddrSize)
    (hP : ∀ a, P a → a < vaddrSize) (haddr : addr < 2 ^ 64)
    (hstop : start < addr → addr + size < start + n) :
    ((∀ a, addr ≤ a ∧ a < addr + size → P a ∨ start ≤ a ∧ a < start + n) ∧
      ∀ a, (P a ∨ (start ≤ a ∧ a < start + sub64 addr start) ∨
          addr + size ≤ a ∧ a < addr + size + n) ↔
        (P a ∨ start ≤ a ∧ a < start + n) ∧ ¬(addr ≤ a ∧ a < addr + size)) ↔
    start ≤ addr ∧ addr + size ≤ start + n ∧ (∀ a, P a → ¬(addr ≤ a ∧ a < addr + size)) ∧
      ∀ a, start + n ≤ a → a < addr + size + n → P a ∨ start ≤ a ∧ a < start + n := by
  have hv := vaddrSize_lt
  constructor
  · rintro ⟨hin, hset⟩
    have hle : start ≤ addr := by
      -- a region that starts behind `addr` would be stretched to the end of the address space
      by_contra hlt
      have hsub : start + sub64 addr start = 2 ^ 64 + addr := by
        unfold sub64
        omega
      rcases ((hset (2 ^ 64 - 1)).mp (.inr (.inl ⟨by omega, by omega⟩))).1 with h | h
      · have := hP _ h
        omega
      · omega
    have hother : ∀ a, P a → ¬(addr ≤ a ∧ a < addr + size) := fun a ha =>
      ((hset a).mp (.inl ha)).2
    refine ⟨hle, ?_, hother, fun a h1 h2 => ?_⟩
    · by_cases h0 : size = 0
      · omega
      · have hlast : addr ≤ addr + size - 1 ∧ addr + size - 1 < addr + size := by omega
        rcases hin _ hlast with h | h
        · exact absurd hlast (hother _ h)
        · omega
    · by_cases ha : a < addr + size
      · exact hin a ⟨by omega, ha⟩
      · exact ((hset a).mp (.inr (.inr ⟨by omega, h2⟩))).1
  · rintro ⟨hle, hin, hother, hextra⟩
    rw [sub64_eq hle haddr]
    refine ⟨fun a ha => .inr (by omega), fun a => ⟨?_, ?_⟩⟩
    · rintro (h | h | h)
      · exact ⟨.inl h, hother a h⟩
      · exact ⟨.inr (by omega), by omega⟩
      · refine ⟨?_, by omega⟩
        by_cases ha : a < start + n
        · exact .inr (by omega)
        · exact hextra a (by omega) h.2
    · rintro ⟨h | h, hno⟩
      · exact .inl h
      · exact .inr (by omega)

/-- Exactly when `alloc(addr, size)` keeps its promise. -/
theorem reserveContract_iff_reserves {r : Bool} (H : Within v) (hend : addr + size < 2 ^ 64)
    (h : (v.allocAt addr size).run s = (.ok (r, v'), s')) :
    ReserveContract v addr size r v' ↔ Reserves v addr size := by
  have hv := vaddrSize_lt
  rcases allocAt_cases h with ⟨hd, rfl, rfl⟩ | ⟨spot, rest, hd, rfl, hv'⟩
  · rw [Reserves, hd]
    simp [ReserveContract]
  rw [Reserves, hd]
  simp only
  have he : v.freeMemList = v.freeMemList.takeWhile (passes addr size) ++ spot :: rest := by
    rw [← hd, List.takeWhile_append_dropWhile]
  generalize v.freeMemList.takeWhile (passes addr size) = before at he hv'
  have hspot : spot.start + spot.size ≤ vaddrSize := H spot (by rw [he]; simp)
  have hstop : spot.start < addr → addr + size < spot.start + spot.size := by
    have hno := List.head?_dropWhile_not (passes addr size) v.freeMemList
    simp only [hd, List.head?_cons, passes, decide_eq_false_iff_not] at hno
    rw [add64_eq (by omega), add64_eq hend] at hno
    omega
  have hfree : ∀ a, v.IsFree a ↔ (∃ m ∈ before ++ rest, a ∈ m.span) ∨ a ∈ spot.span :=
    fun a => isFree_split he
  have hfree' : ∀ a, v'.IsFree a ↔ (∃ m ∈ before ++ rest, a ∈ m.span) ∨
      a ∈ (⟨spot.start, sub64 addr spot.start⟩ : Span) ∨ a ∈ (⟨addr + size, spot.size⟩ : Span) := by
    intro a
    rw [hv', @isFree_split _ _ before (rest ++ [⟨add64 addr size, spot.size⟩])
        ⟨spot.start, sub64 addr spot.start⟩ (by simp), add64_eq hend, ← List.append_assoc]
    simp only [List.mem_append, List.mem_singleton, or_and_right, exists_or, exists_eq_left,
      VirtNode.span]
    rw [or_assoc, or_comm (a := a ∈ (⟨addr + size, spot.size⟩ : Span))]
  have hsets := reserve_sets (P := fun a => ∃ m ∈ before ++ rest, a ∈ m.span) hspot
    (fun a ha => H.lt ((hfree a).mpr (.inl ha))) (by omega) hstop
  simp only [Span.mem_mk, VirtNode.span] at hfree hfree' hsets ⊢
  simp only [ReserveContract, hfree, hfree', true_iff, forall_const, Bool.true_eq_false,
    false_implies, and_true, Span.mem_mk]
  rw [hsets]
  simp only [forall_exists_index, and_imp]
  exact ⟨fun ⟨h1, h2, h3, h4⟩ => ⟨h1, h2, fun m hm a ha ha' => h3 a m hm ha ha', h4⟩,
    fun ⟨h1, h2, h3, h4⟩ => ⟨h1, h2, fun a m hm ha ha' => h3 m hm a ha ha', h4⟩⟩

/-- A reservation that keeps its promise stays within the address space. -/
theorem Within.allocAt {r : Bool} (H : Within v) (hend : addr + size < 2 ^ 64)
    (h : (v.allocAt addr size).run s = (.ok (r, v'), s')) (hok : Reserves v addr size) :
    Within v' ∧ (r = true → addr + size ≤ vaddrSize) := by
  have hv := vaddrSize_lt
  rcases allocAt_cases h with ⟨-, rfl, rfl⟩ | ⟨spot, rest, hd, rfl, hv'⟩
  · exact ⟨H, fun h => absurd h (by decide)⟩
  rw [Reserves, hd] at hok
  obtain ⟨hle, hin, -, hextra⟩ := hok
  have he : v.freeMemList = v.freeMemList.takeWhile (passes addr size) ++ spot :: rest := by
    rw [← hd, List.takeWhile_append_dropWhile]
  obtain ⟨hx, hspot, hy⟩ := H.split he
  have hslot : addr + size + spot.size ≤ vaddrSize := by
    by_contra hlt
    have := H.lt (hextra (addr + size + spot.size - 1) (by omega) (by omega))
    omega
  rw [sub64_eq hle (by omega), add64_eq hend] at hv'
  have hlist : v'.freeMemList = v.freeMemList.takeWhile (passes addr size) ++
      ⟨spot.start, addr - spot.start⟩ :: (rest ++ [⟨addr + size, spot.size⟩]) := by
    rw [hv', List.append_assoc]
    rfl
  refine ⟨within_mk hlist hx (by simp only; omega) ?_, fun _ => by omega⟩
  rw [List.forall_mem_append, List.forall_mem_singleton]
  exact ⟨hy, hslot⟩

theorem RunWhere.within (h : RunWhere Exact v live) :
    Within v ∧ ∀ r ∈ live, r.start + alignUp r.size ≤ vaddrSize := by
  induction h with
  | new h =>
    rw [pushBack_ok h]
    exact ⟨fun n hn => by rw [List.mem_singleton.mp hn]; decide, by simp⟩
  | alloc _ _ _ hfit ih =>
    obtain ⟨xs, n, ys, he, -, -, hle, hstart, -⟩ := alloc_cut ih.1 hfit
    have hn := (ih.1.split he).2.1
    refine ⟨ih.1.alloc, List.forall_mem_cons.mpr ⟨?_, ih.2⟩⟩
    rw [hstart]
    simp only
    omega
  | allocNull _ _ _ hfit ih => rwa [alloc_of_not_hasFit hfit]
  | @allocAt v v' live addr size r s s' _ haddr hsize hend hok h ih =>
    obtain ⟨h1, h2⟩ := ih.1.allocAt hend h hok
    refine ⟨h1, ?_⟩
    cases r with
    | false => exact ih.2
    | true =>
      refine List.forall_mem_cons.mpr ⟨?_, ih.2⟩
      rw [alignUp_of_aligned (show size + 4095 < 2 ^ 64 by omega) hsize]
      exact h2 rfl
  | free _ hr _ hf ih =>
    exact ⟨ih.1.free (ih.2 _ hr) hf, fun x hx => ih.2 x (List.mem_of_mem_erase hx)⟩

/-- **`alloc(addr, size)`.** In every run whose reservations keep their promise, a further one keeps
it exactly when `Reserves` holds of the list. -/
theorem RunWhere.reserveContract_iff (h : RunWhere Exact v live) (hend : addr + size < 2 ^ 64) :
    ∀ r v' s s', (v.allocAt addr size).run s = (.ok (r, v'), s') →
      (ReserveContract v addr size r v' ↔ Reserves v addr size) :=
  fun _ _ _ _ hrun => reserveContract_iff_reserves h.within.1 hend hrun

theorem RunWhere.reserveContract_iff_beyond :
    ReserveContract ⟨[⟨0, gb 256⟩]⟩ (gb 256) 4096 false ⟨[⟨0, gb 256⟩]⟩ := by
  refine (RunWhere.reserveContract_iff run_new (by decide) false _
    (bootMachine (mb 5)) _ rfl).mpr ?_
  change ¬∀ a ∈ (⟨gb 256, 4096⟩ : Span), _
  intro hall
  obtain ⟨n, hn, hmem⟩ := hall (gb 256) (by decide)
  rw [List.mem_singleton.mp hn] at hmem
  exact absurd hmem (by decide)

/-- A reservation in a new `virt` frees two pages beyond its end. -/
theorem RunWhere.not_reserveContract_new : ¬∀ v live, RunWhere (fun _ _ => True) v live →
    ∀ addr size, addr % 4096 = 0 → size % 4096 = 0 → addr + size < 2 ^ 64 → ∀ r v' s s',
      (v.allocAt addr size).run s = (.ok (r, v'), s') → ReserveContract v addr size r v' := by
  intro hall
  have hc := hall _ _ run_new 4096 4096 (by decide) (by decide) (by decide) true
    ⟨[⟨0, 4096⟩, ⟨8192, gb 256⟩]⟩ (bootMachine (mb 5)) _ rfl
  have hfree := (hc.2.1 rfl (gb 256)).mp ⟨⟨8192, gb 256⟩, by decide, by decide⟩
  obtain ⟨n, hn, hmem⟩ := hfree.1
  rw [List.mem_singleton.mp hn] at hmem
  exact absurd hmem (by decide)

/-! ### free -/

/-- No live region ends where another starts. -/
def NoAdjacent (v : Virt) : Prop :=
  ∀ m ∈ v.freeMemList, ∀ n ∈ v.freeMemList, m.size ≠ 0 → n.size ≠ 0 → m.start + m.size ≠ n.start

/-- `free` meets a region that ends at the range first, or there is none. -/
def JoinsBoth (v : Virt) (addr size : Nat) : Prop :=
  ∀ n ∈ v.freeMemList.find? (touches addr (alignUp size)), addr + alignUp size = n.start →
    ∀ m ∈ v.freeMemList, m.size ≠ 0 → m.start + m.size ≠ addr

/-- Requests whose `free` merges on both sides. -/
def Coalesces (v : Virt) : Request → Prop
  | .alloc _ => True
  | .allocAt _ _ => False
  | .free addr size => JoinsBoth v addr size

theorem noAdjacent_split {xs ys : List VirtNode} {n : VirtNode}
    (he : v.freeMemList = xs ++ n :: ys) : NoAdjacent v ↔
      (∀ m ∈ xs ++ ys, ∀ m' ∈ xs ++ ys, m.size ≠ 0 → m'.size ≠ 0 → m.start + m.size ≠ m'.start) ∧
      (n.size ≠ 0 → ∀ m ∈ xs ++ ys, m.size ≠ 0 →
        m.start + m.size ≠ n.start ∧ n.start + n.size ≠ m.start) := by
  have hmem : ∀ m, m ∈ v.freeMemList ↔ m = n ∨ m ∈ xs ++ ys := fun m => by
    rw [he, List.perm_middle.mem_iff, List.mem_cons]
  simp only [NoAdjacent, hmem]
  constructor
  · intro h
    exact ⟨fun m hm m' hm' => h m (.inr hm) m' (.inr hm'), fun hn m hm hm0 =>
      ⟨h m (.inr hm) n (.inl rfl) hm0 hn, h n (.inl rfl) m (.inr hm) hn hm0⟩⟩
  · rintro ⟨h1, h2⟩ m (rfl | hm) m' (rfl | hm') hm0 hm0'
    · omega
    · exact (h2 hm0 m' hm' hm0').2
    · exact (h2 hm0' m hm hm0).1
    · exact h1 m hm m' hm' hm0 hm0'

/-- Exactly when `free` leaves no adjacent regions. -/
theorem noAdjacent_free (H : Within v) (hno : NoAdjacent v)
    (hend : addr + alignUp size ≤ vaddrSize) (hf : (v.free addr size).run s = (.ok v', s')) :
    NoAdjacent v' ↔ JoinsBoth v addr size := by
  have hc := free_cases H.bounded hend hf
  rw [JoinsBoth]
  rcases hfind : v.freeMemList.find? (touches addr (alignUp size)) with _ | n
  · rw [hfind] at hc
    simp only [Option.mem_def, reduceCtorEq, false_implies, implies_true, iff_true]
    rw [@noAdjacent_split _ v.freeMemList [] _ (by rw [hc]), List.append_nil]
    refine ⟨hno, fun _ m hm hm0 => ?_⟩
    have := List.find?_eq_none.mp hfind m hm
    simp only [touches, decide_eq_true_iff, not_and, not_or] at this
    exact ⟨(this hm0).2, (this hm0).1⟩
  · rw [hfind] at hc
    obtain ⟨xs, ys, he, hne, hj⟩ := hc
    simp only [Option.mem_some_iff, forall_eq']
    obtain ⟨h1, h2⟩ := (noAdjacent_split he).mp hno
    have hmem : ∀ m, m ∈ v.freeMemList ↔ m = n ∨ m ∈ xs ++ ys := fun m => by
      rw [he, List.perm_middle.mem_iff, List.mem_cons]
    obtain ⟨nodes, hl⟩ : ∃ nodes, nodes = v'.freeMemList := ⟨_, rfl⟩
    rw [← hl] at hj
    cases hj with
    | front heq =>
      -- the region that ends at the range is looked for by nobody
      rw [noAdjacent_split hl.symm]
      refine ⟨fun h _ m hm hm0 => ?_, fun h => ⟨h1, fun _ m hm hm0 => ⟨?_, ?_⟩⟩⟩
      · rcases (hmem m).mp hm with rfl | hm
        · omega
        · exact (h.2 (by simp only; omega) m hm hm0).1
      · exact h heq m ((hmem m).mpr (.inr hm)) hm0
      · have := (h2 hne m hm hm0).2
        simp only
        omega
    | back heq hlast =>
      refine iff_of_true ((noAdjacent_split hl.symm).mpr ⟨h1, fun _ m hm hm0 => ?_⟩)
        fun h => by omega
      have h3 := (h2 hne m hm hm0).1
      have h4 := hlast m hm hm0
      simp only
      omega
    | @both ys m zs heq hm hstart =>
      have hsub : ∀ x ∈ xs ++ (ys ++ { m with size := 0 } :: zs), x.size ≠ 0 →
          x ∈ xs ++ (ys ++ m :: zs) := by
        intro x hx hx0
        simp only [List.mem_append, List.mem_cons] at hx ⊢
        rcases hx with hx | hx | rfl | hx
        · exact .inl hx
        · exact .inr (.inl hx)
        · exact absurd rfl hx0
        · exact .inr (.inr (.inr hx))
      refine iff_of_true ((noAdjacent_split hl.symm).mpr ⟨fun x hx y hy hx0 hy0 => ?_,
        fun _ x hx hx0 => ?_⟩) fun h => by omega
      · exact h1 x (hsub x hx hx0) y (hsub y hy hy0) hx0 hy0
      · have h3 := (h2 hne x (hsub x hx hx0) hx0).1
        have h4 := h1 m (by simp) x (hsub x hx hx0) hm hx0
        simp only
        omega

/-- Regions around one of them do not meet it. -/
theorem Sound.disjoint {xs ys : List VirtNode} {n m : VirtNode} (H : Sound v live)
    (he : v.freeMemList = xs ++ n :: ys) (hm : m ∈ xs ++ ys) : Span.Disjoint m.span n.span := by
  have hcov : ∀ a, cover (spans xs ++ n.span :: spans ys) a ≤ 1 := fun a => by
    have h1 := H.inv.cover a
    have h2 := Span.ind_le_one ⟨0, vaddrSize⟩ a
    rw [he] at h1
    simp only [spans, List.map_append, List.map_cons] at h1 ⊢
    omega
  refine (disjoint_of_cover_le_one hcov ?_).symm
  rw [← List.map_append]
  exact List.mem_map_of_mem hm

/-- Cutting off the front of a region makes nothing adjacent. -/
theorem NoAdjacent.alloc (H : Sound v live) (hno : NoAdjacent v) : NoAdjacent (v.alloc size).2 := by
  by_cases hfit : v.HasFit size
  · obtain ⟨xs, n, ys, he, -, hne, hle, -, hlist⟩ := alloc_cut H.within hfit
    obtain ⟨h1, h2⟩ := (noAdjacent_split he).mp hno
    refine (noAdjacent_split hlist).mpr ⟨h1, fun h0 m hm hm0 => ?_⟩
    have h3 := h2 hne m hm hm0
    have h4 := (H.disjoint he hm).le_or_le (by simp only [VirtNode.span]; omega)
      (by simp only [VirtNode.span]; omega)
    simp only [VirtNode.span] at h0 h4 ⊢
    split <;> omega
  · rwa [alloc_of_not_hasFit hfit]

/-- Where everything is free and nothing is adjacent there is one region. -/
theorem NoAdjacent.hasFit (H : Sound v []) (hno : NoAdjacent v) : v.HasFit vaddrSize := by
  have hall : ∀ a < vaddrSize, v.IsFree a := fun a ha => by
    rw [H.isFree_iff]
    exact ⟨ha, by simp [pages]⟩
  obtain ⟨n, hn, hmem⟩ := hall 0 (by decide)
  simp only [VirtNode.span, Span.mem_mk] at hmem
  refine ⟨n, hn, by omega, ?_⟩
  have hal : alignUp vaddrSize = vaddrSize := alignUp_of_aligned (by decide) (by decide)
  rw [hal]
  by_contra hlt
  -- the region that holds the end of `n` starts there, or meets `n`
  obtain ⟨m, hm, hmem'⟩ := hall n.size (by omega)
  simp only [VirtNode.span, Span.mem_mk] at hmem'
  have h1 := hno n hn m hm (by omega) (by omega)
  obtain ⟨xs, ys, he⟩ := List.append_of_mem hn
  rw [he, List.perm_middle.mem_iff, List.mem_cons] at hm
  rcases hm with rfl | hm
  · omega
  · have h2 := (H.disjoint he hm).le_or_le (by simp only [VirtNode.span]; omega)
      (by simp only [VirtNode.span]; omega)
    simp only [VirtNode.span] at h2
    omega

/-- **`free` coalesces.** In a run whose frees all meet the condition no two regions are adjacent, a
further free keeps that exactly when it meets the condition as well, and once everything is freed an
allocation of the whole space takes all of it. -/
theorem RunWhere.noAdjacent_iff (h : RunWhere Coalesces v live) : NoAdjacent v ∧
    (∀ r ∈ live, ∀ v' s s', (v.free r.start r.size).run s = (.ok v', s') →
      (NoAdjacent v' ↔ JoinsBoth v r.start r.size)) ∧
    (live = [] → v.HasFit vaddrSize ∧ ∀ a, ¬(v.alloc vaddrSize).2.IsFree a) := by
  have H := h.sound fun _ _ _ hno => hno
  have hno : NoAdjacent v := by
    clear H
    induction h with
    | new h =>
      rw [pushBack_ok h]
      intro m hm n hn _ _
      rw [List.mem_singleton.mp hm, List.mem_singleton.mp hn]
      decide
    | alloc h _ _ _ ih => exact ih.alloc (h.sound fun _ _ _ hno => hno)
    | allocNull h _ _ _ ih => exact ih.alloc (h.sound fun _ _ _ hno => hno)
    | allocAt _ _ _ _ hok => exact hok.elim
    | free h hr hok hf ih =>
      have H := h.sound fun _ _ _ hno => hno
      exact (noAdjacent_free H.within ih (H.live _ hr).2 hf).mpr hok
  refine ⟨hno, fun r hr v' s s' hf => noAdjacent_free H.within hno (H.live r hr).2 hf, ?_⟩
  rintro rfl
  have hfit := hno.hasFit H
  refine ⟨hfit, fun a ha => ?_⟩
  obtain ⟨h1, h2⟩ := (H.isFree_alloc (by decide) (by decide) hfit).mp ha
  obtain ⟨xs, n, ys, he, -, hne, hle, hstart, -⟩ := alloc_cut H.within hfit
  have hn := (H.within.split he).2.1
  have hal : alignUp vaddrSize = vaddrSize := alignUp_of_aligned (by decide) (by decide)
  refine h2 ?_
  have := H.within.lt h1
  simp only [hstart, pageRound, Span.mem_mk]
  omega

/-- A first allocation of one page, freed again. -/
theorem RunWhere.noAdjacent_iff_one : ∃ v', (Virt.free ⟨[⟨4096, gb 256 - 4096⟩]⟩ 0 4096).run
    (bootMachine (mb 5)) = (.ok v', bootMachine (mb 5)) ∧ NoAdjacent v' := by
  have hrun : RunWhere Coalesces ⟨[⟨4096, gb 256 - 4096⟩]⟩ [⟨0, 4096⟩] :=
    @RunWhere.alloc _ ⟨[⟨0, gb 256⟩]⟩ [] 4096 run_new (by decide) trivial
      ⟨_, List.mem_cons_self, by decide, by decide⟩
  refine ⟨_, rfl, ?_⟩
  refine ((RunWhere.noAdjacent_iff hrun).2.1 ⟨0, 4096⟩ (by decide) _ (bootMachine (mb 5)) _ rfl).mpr ?_
  intro n _ _ m hm _
  rw [List.mem_singleton.mp hm]
  decide

/-- Two pages freed in the order they were allocated in stay two regions. -/
theorem RunWhere.not_noAdjacent_two : ¬∀ v live, RunWhere (fun _ => Floating) v live →
    NoAdjacent v := by
  intro hall
  have h1 : RunWhere (fun _ => Floating) ⟨[⟨4096, gb 256 - 4096⟩]⟩ [⟨0, 4096⟩] :=
    @RunWhere.alloc _ ⟨[⟨0, gb 256⟩]⟩ [] 4096 run_new (by decide) trivial
      ⟨_, List.mem_cons_self, by decide, by decide⟩
  have h2 : RunWhere (fun _ => Floating) ⟨[⟨8192, gb 256 - 8192⟩]⟩ [⟨4096, 4096⟩, ⟨0, 4096⟩] :=
    @RunWhere.alloc _ _ _ 4096 h1 (by decide) trivial
      ⟨_, List.mem_cons_self, by decide, by decide⟩
  have h3 : RunWhere (fun _ => Floating) ⟨[⟨8192, gb 256 - 8192⟩, ⟨0, 4096⟩]⟩ [⟨4096, 4096⟩] :=
    @RunWhere.free _ _ _ _ ⟨0, 4096⟩ (bootMachine (mb 5)) _ h2 (by decide) trivial rfl
  have h4 : RunWhere (fun _ => Floating) ⟨[⟨4096, gb 256 - 4096⟩, ⟨0, 4096⟩]⟩ [] :=
    @RunWhere.free _ _ _ _ ⟨4096, 4096⟩ (bootMachine (mb 5)) _ h3 (by decide) trivial rfl
  exact hall _ _ h4 ⟨0, 4096⟩ (by decide) ⟨4096, gb 256 - 4096⟩ (by decide) (by decide) (by decide)
    rfl

end
end Virt
end Coronel
