import Coronel.Verify.Access

/-!
# Device memory

`mapio` maps a device address into a window of 256 pages: bits 12 to 19 of the address choose the
page, and the leaf entry is the address with three added. Two devices meet in the window when these
bits agree, and the low bits of an address end up among the flags.
-/

namespace Coronel

open Theory Theory.Bytes

namespace Paging

/-- The page of the window that `mapio` takes for an address. -/
def ioPage (addr : Nat) : Nat := addr / 4096 % 256

/-- The virtual address `mapio` returns. -/
def ioAddress (addr : Nat) : Nat := pciVirtualAddress + addr % 2 ^ 20

/-- The leaf that `mapio` leaves for the walk. -/
def ioLeaf (addr : Nat) : Option Nat :=
  if present (add64 addr 0x3) then some (add64 addr 0x3) else none

/-- A sequence of `mapio` calls, each with its flags: the addresses they return. -/
def mapioAll : List (Nat × Nat) → Kernel (List Nat)
  | [] => return []
  | call :: calls => do
    let vaddr ← mapio call.1 call.2
    let vaddrs ← mapioAll calls
    return vaddr :: vaddrs

/-- The virtual address leads to the device, through a present and writable entry. -/
def Reaches (s : Machine) (vaddr addr : Nat) : Prop :=
  translate s.ram s.cr3 vaddr = some addr ∧
    ∃ e, walk s.ram s.cr3 vaddr = some e ∧ permits 0x02 e = true

/-- The devices are found on different pages of the window, or on the same page of memory, and the
last one on each page is a multiple of 4. -/
def Coexist (addrs : List Nat) : Prop :=
  (∀ a ∈ addrs, a < 2 ^ 52) ∧
  (∀ a ∈ addrs, ∀ b ∈ addrs, ioPage a = ioPage b → a / 4096 = b / 4096) ∧
  ∀ xs a ys, addrs = xs ++ a :: ys → (∀ b ∈ ys, ioPage b ≠ ioPage a) → a % 4 = 0

section
variable {dirs : List Nat} {s s' : Machine} {a b d e t v x : Nat} {addrs : List Nat}
  {calls : List (Nat × Nat)}

/-! ### One call -/

theorem pciVirtualAddress_eq : pciVirtualAddress = 2 ^ 64 - 2 ^ 30 := by decide

theorem ioAddress_lt (a : Nat) : ioAddress a < 2 ^ 64 := by
  rw [ioAddress, pciVirtualAddress_eq]
  omega

/-- All addresses of the window have one leaf table. -/
theorem pathOf_ioAddress (a : Nat) : pathOf (ioAddress a) = [0, 511, 511] := by
  have h := pciVirtualAddress_eq
  simp only [pathOf, pdeIndex_eq, pdptIndex_eq, pml4Index_eq, ioAddress, List.cons.injEq, and_true]
  omega

theorem same_page_ioAddress : ioAddress a % 2 ^ 48 / 4096 = ioAddress b % 2 ^ 48 / 4096 ↔
    ioPage a = ioPage b := by
  have h := pciVirtualAddress_eq
  simp only [ioAddress, ioPage]
  omega

/-- Writing a leaf entry changes the walks of one page. -/
theorem storeLeaf_run (H : Tables dirs s) (hd : d ∈ dirs)
    (ht : tableAt s.ram d (pathOf v) = some t) (he : e < 2 ^ 64) :
    ∃ s', (storeDirect (slot (kvirtualAddress + t) (pteIndex v)) e).run s = (.ok (), s') ∧
      Tables dirs s' ∧ TableStep s s' ∧ s'.placement = s.placement ∧
      SetLeaf dirs d v (if present e then some e else none) s s' ∧
      ∀ d' ∈ dirs, ∀ p, ValidPath p → tableAt s'.ram d' p = tableAt s.ram d' p := by
  have hF := H.forest
  have hwin := hF.window
  have hT := hF.table d hd _ (validPath_pathOf v) t ht
  have hi := pteIndex_lt v
  rw [slot_eq (by omega) hi]
  refine ⟨_, run_storeDirect (by omega) s, ⟨hF.leaf hd ht he, H.base, H.cr3⟩,
    ⟨rfl, fun a ha => ?_, Nat.le_refl _, List.suffix_rfl, .inl rfl, fun _ hr => .inl hr⟩, rfl,
    fun d' hd' v' => hF.walk_leaf hd ht he hd' v', fun d' hd' p hp => hF.tableAt_leaf hd ht he hd' hp⟩
  simp only at ha ⊢
  exact store_of_not_mem (by omega)

theorem mapio_eq (a flags : Nat) : mapio a flags = (do
    let page ← getPage (← getCurrentPage) (ioAddress a) 0x0 true
    storeDirect (slot page (pteIndex (ioAddress a))) (add64 a 0x3)
    return ioAddress a) := by
  have hmask : a &&& 0xfffff = a % 2 ^ 20 := Nat.and_two_pow_sub_one_eq_mod a 20
  have hpci := pciVirtualAddress_eq
  have hadd : add64 pciVirtualAddress (a % 2 ^ 20) = ioAddress a := by
    rw [add64_eq (by omega), ioAddress]
  have hor : pciVirtualAddress ||| a % 2 ^ 20 = ioAddress a := by
    rw [ioAddress, show pciVirtualAddress = 2 ^ 20 * 0xffffffffc00 by decide]
    exact (Nat.two_pow_add_eq_or_of_lt (Nat.mod_lt _ (by decide)) _).symm
  simp only [mapio, hmask, hadd, hor]

/-- `mapio` sets the leaf of its page in the current directory, or runs out of room. -/
theorem mapio_safe {C : LowerSet Machine} (H : Tables dirs s) (a flags : Nat) :
    Prog.Safe C (NoRoom s.placement (missingTables s.ram s.cr3 (ioAddress a))) (mapio a flags) s
      fun r s' => r = ioAddress a ∧ Tables dirs s' ∧ s'.cr3 = s.cr3 ∧
        SetLeaf dirs s.cr3 (ioAddress a) (ioLeaf a) s s' ∧
        tableAt s'.ram s.cr3 [0, 511, 511] ≠ none := by
  rw [mapio_eq]
  refine Prog.Safe.bind_run (run_getCurrentPage s) (Prog.Safe.bind (getPage_safe H H.cr3 _ _) ?_)
  rintro _ s1 - ⟨⟨t, rfl, ht⟩, hg⟩
  obtain ⟨s2, hrun, hT, hstep, -, hset, htab⟩ :=
    storeLeaf_run hg.tables H.cr3 ht (add64_lt a 0x3)
  refine Prog.Safe.bind_run hrun (Prog.Safe.pure ⟨rfl, hT, ?_, fun d' hd' v' => ?_, ?_⟩)
  · rw [hstep.eq, hg.step.eq]
  · rw [hset d' hd' v', hg.walk d' hd' v']
    rfl
  · rw [htab _ H.cr3 _ (pathOf_ioAddress a ▸ validPath_pathOf (ioAddress a)),
      ← pathOf_ioAddress a, ht]
    exact Option.some_ne_none t

/-- A leaf table that is there needs no room. -/
theorem missingTables_of_tableAt (h : tableAt s.ram d (pathOf v) ≠ none) :
    missingTables s.ram d v = 0 := by
  obtain ⟨t, ht⟩ := Option.ne_none_iff_exists'.mp h
  obtain ⟨t2, h2, -⟩ := Option.bind_eq_some_iff.mp ht
  obtain ⟨t1, h1, -⟩ := Option.bind_eq_some_iff.mp h2
  rw [missingTables, miss, miss, miss, if_neg (by rw [h1]; exact Option.some_ne_none _),
    if_neg (by rw [h2]; exact Option.some_ne_none _), if_neg h]

/-! ### Sequences of calls -/

/-- What the page of `x` leads to after the calls. -/
def leafAfter (x : Nat) (leaf : Option Nat) (addrs : List Nat) : Option Nat :=
  addrs.foldl (fun leaf a => if ioPage x = ioPage a then ioLeaf a else leaf) leaf

theorem mapioAll_spec {vaddrs : List Nat} (H : Tables dirs s)
    (h : (mapioAll calls).run s = (.ok vaddrs, s')) : Tables dirs s' ∧ s'.cr3 = s.cr3 ∧
      vaddrs = calls.map (ioAddress ·.1) ∧
      ∀ x, walk s'.ram s.cr3 (ioAddress x) =
        leafAfter x (walk s.ram s.cr3 (ioAddress x)) (calls.map (·.1)) := by
  induction calls generalizing s vaddrs with
  | nil =>
    cases h
    exact ⟨H, rfl, rfl, fun x => rfl⟩
  | cons c calls ih =>
    rw [mapioAll, Prog.run_bind_eq_ok] at h
    obtain ⟨v, s1, h1, h⟩ := h
    obtain ⟨rfl, H1, hc, hset, -⟩ := (mapio_safe (C := ⊤) H c.1 c.2).ok h1 trivial
    rw [Prog.run_bind_eq_ok] at h
    obtain ⟨vs, s2, h2, h⟩ := h
    cases h
    obtain ⟨H2, hc2, rfl, hwalk⟩ := ih H1 h2
    refine ⟨H2, hc2.trans hc, rfl, fun x => ?_⟩
    rw [← hc, hwalk x, hc, hset _ H.cr3]
    simp only [same_page_ioAddress, true_or, and_true]
    rfl

/-- The calls end when there is room for the tables of the first. -/
theorem exists_mapioAll_run (H : Tables dirs s)
    (hroom : afterTables s.placement (missingTables s.ram s.cr3 pciVirtualAddress) ≤
      kvirtualAddress + directMapSize) (calls : List (Nat × Nat)) :
    ∃ vaddrs s', (mapioAll calls).run s = (.ok vaddrs, s') := by
  induction calls generalizing s with
  | nil => exact ⟨[], s, rfl⟩
  | cons c calls ih =>
    have hpath : missingTables s.ram s.cr3 (ioAddress c.1) =
        missingTables s.ram s.cr3 pciVirtualAddress := by
      have h1 := pathOf_ioAddress c.1
      have h2 := pathOf_ioAddress 0
      rw [show ioAddress 0 = pciVirtualAddress from rfl] at h2
      simp only [pathOf, List.cons.injEq] at h1 h2
      simp only [missingTables, pathOf, h1, h2]
    obtain ⟨v, s1, h1, -, H1, hc, -, htab⟩ := (mapio_safe (C := ⊤) H c.1 c.2).exists_ok trivial
      fun e he => by have := he.2; rw [hpath] at this; omega
    have hzero : missingTables s1.ram s1.cr3 pciVirtualAddress = 0 := by
      refine missingTables_of_tableAt ?_
      rwa [show pciVirtualAddress = ioAddress 0 from rfl, pathOf_ioAddress, hc]
    obtain ⟨vs, s2, h2⟩ := ih H1 (by rw [hzero]; exact H1.bound)
    exact ⟨v :: vs, s2, by rw [mapioAll, Prog.run_bind_ok h1, Prog.run_bind_ok h2]; rfl⟩

/-! ### Devices that meet -/

/-- A leaf leads to `x` when it is made from an aligned address on the page of `x`. -/
theorem ioLeaf_iff (hb : b < 2 ^ 64) : (∃ e, ioLeaf b = some e ∧ permits 0x02 e = true ∧
    entryFrame e + x % 4096 = x) ↔ b % 4 = 0 ∧ b % 2 ^ 52 / 4096 = x / 4096 := by
  have hpr : present (add64 b 0x3) = true ↔ add64 b 0x3 % 2 = 1 := present_iff
  have hwr : permits 0x02 (add64 b 0x3) = true ↔ add64 b 0x3 / 2 % 2 = 1 := permits_two_pow_iff 1
  constructor
  · rintro ⟨e, h1, h2, h3⟩
    rw [ioLeaf] at h1
    split at h1
    · next h =>
      cases h1
      rw [hpr] at h
      rw [hwr] at h2
      rw [entryFrame_eq] at h3
      unfold add64 at h h2 h3
      omega
    · cases h1
  · rintro ⟨h1, h2⟩
    have he : add64 b 0x3 = b + 3 := add64_eq (by omega)
    refine ⟨add64 b 0x3, if_pos (hpr.mpr (by omega)), hwr.mpr (by omega), ?_⟩
    rw [entryFrame_eq, he]
    omega

/-- The last call on a page decides where the page leads. -/
theorem leafAfter_last {leaf : Option Nat} {xs ys : List Nat} (h : ioPage x = ioPage b)
    (hys : ∀ c ∈ ys, ioPage c ≠ ioPage b) : leafAfter x leaf (xs ++ b :: ys) = ioLeaf b := by
  rw [leafAfter, List.foldl_append, List.foldl_cons, if_pos h]
  induction ys with
  | nil => rfl
  | cons c ys ih =>
    rw [List.foldl_cons, if_neg fun hc => hys c (by simp) (hc.symm.trans h)]
    exact ih fun c hc => hys c (List.mem_cons_of_mem _ hc)

theorem exists_last_on_page {n : Nat} (h : ∃ a ∈ addrs, ioPage a = n) :
    ∃ xs b ys, addrs = xs ++ b :: ys ∧ ioPage b = n ∧ ∀ c ∈ ys, ioPage c ≠ n := by
  induction addrs with
  | nil => simp at h
  | cons c addrs ih =>
    by_cases hex : ∃ a ∈ addrs, ioPage a = n
    · obtain ⟨xs, b, ys, rfl, hb⟩ := ih hex
      exact ⟨c :: xs, b, ys, rfl, hb⟩
    · have hc : ioPage c = n := by
        obtain ⟨a, ha, hn⟩ := h
        rcases List.mem_cons.mp ha with rfl | ha
        · exact hn
        · exact absurd ⟨a, ha, hn⟩ hex
      exact ⟨[], c, addrs, rfl, hc, fun a ha hn => hex ⟨a, ha, hn⟩⟩

theorem reaches_iff (hd : walk s.ram s.cr3 (ioAddress x) = ioLeaf b) (hb : b < 2 ^ 64) :
    Reaches s (ioAddress x) x ↔ b % 4 = 0 ∧ b % 2 ^ 52 / 4096 = x / 4096 := by
  have hoff : ioAddress x % 4096 = x % 4096 := by
    have h := pciVirtualAddress_eq
    rw [ioAddress]
    omega
  rw [← ioLeaf_iff hb, Reaches, translate, hd, hoff]
  constructor
  · rintro ⟨h1, e, h2, h3⟩
    rw [h2, Option.map_some, Option.some.injEq] at h1
    exact ⟨e, h2, h3, h1⟩
  · rintro ⟨e, h1, h2, h3⟩
    exact ⟨by rw [h1, Option.map_some, h3], e, h1, h2⟩

/-- After the calls every device is reached when the devices can coexist. -/
theorem mapioAll_reaches_iff {vaddrs : List Nat} (H : Tables dirs s)
    (h64 : ∀ c ∈ calls, c.1 < 2 ^ 64) (h : (mapioAll calls).run s = (.ok vaddrs, s')) :
    List.Forall₂ (fun c vaddr => Reaches s' vaddr c.1) calls vaddrs ↔
      Coexist (calls.map (·.1)) := by
  obtain ⟨-, hc, rfl, hwalk⟩ := mapioAll_spec H h
  have hlt : ∀ a ∈ calls.map (·.1), a < 2 ^ 64 := fun a ha => by
    obtain ⟨c, hc, rfl⟩ := List.mem_map.mp ha
    exact h64 c hc
  rw [← hc] at hwalk
  have hall : List.Forall₂ (fun c vaddr => Reaches s' vaddr c.1) calls (calls.map (ioAddress ·.1)) ↔
      ∀ a ∈ calls.map (·.1), Reaches s' (ioAddress a) a := by
    rw [List.forall₂_map_right_iff, List.forall₂_same, List.forall_mem_map]
  rw [hall]
  generalize calls.map (·.1) = addrs at hlt hwalk
  -- the walk of a device ends in the leaf of the last call on its page
  have hlast : ∀ xs b ys x, addrs = xs ++ b :: ys → ioPage x = ioPage b →
      (∀ c ∈ ys, ioPage c ≠ ioPage b) →
      (Reaches s' (ioAddress x) x ↔ b % 4 = 0 ∧ b % 2 ^ 52 / 4096 = x / 4096) := by
    intro xs b ys x hsplit hx hys
    refine reaches_iff ?_ (hlt b (by rw [hsplit]; simp))
    rw [hwalk x, hsplit, leafAfter_last hx hys]
  constructor
  · intro hr
    have hpage : ∀ a ∈ addrs, ∀ xs b ys, addrs = xs ++ b :: ys → ioPage b = ioPage a →
        (∀ c ∈ ys, ioPage c ≠ ioPage b) → b < 2 ^ 52 ∧ b / 4096 = a / 4096 := by
      intro a ha xs b ys hsplit hb hys
      have h1 := (hlast xs b ys a hsplit hb.symm hys).mp (hr a ha)
      have h2 := (hlast xs b ys b hsplit rfl hys).mp (hr b (by rw [hsplit]; simp))
      omega
    refine ⟨fun a ha => ?_, fun a ha a' ha' hpg => ?_, fun xs b ys hsplit hys => ?_⟩
    · obtain ⟨xs, b, ys, hsplit, hb, hys⟩ := exists_last_on_page ⟨a, ha, rfl⟩
      have := hpage a ha xs b ys hsplit hb (hb ▸ hys)
      omega
    · obtain ⟨xs, b, ys, hsplit, hb, hys⟩ := exists_last_on_page ⟨a, ha, rfl⟩
      have h1 := hpage a ha xs b ys hsplit hb (hb ▸ hys)
      have h2 := hpage a' ha' xs b ys hsplit (hb.trans hpg) (hb ▸ hys)
      omega
    · exact ((hlast xs b ys b hsplit rfl hys).mp (hr b (by rw [hsplit]; simp))).1
  · rintro ⟨hsmall, hsame, hfour⟩ a ha
    obtain ⟨xs, b, ys, hsplit, hb, hys⟩ := exists_last_on_page ⟨a, ha, rfl⟩
    have hmem : b ∈ addrs := by rw [hsplit]; simp
    rw [hlast xs b ys a hsplit hb.symm (hb ▸ hys)]
    have h1 := hsmall b hmem
    have h2 := hsame b hmem a ha hb
    exact ⟨hfour xs b ys hsplit (hb ▸ hys), by omega⟩

/-- **Device mappings.** From every reachable state, after any sequence of `mapio` calls each
returned address leads to the device it was made for exactly when the devices can coexist. -/
theorem Run.coexist_iff {boot : Machine} {vaddrs : List Nat} (hb : Booted boot)
    (h : Run boot dirs s) (h64 : ∀ c ∈ calls, c.1 < 2 ^ 64)
    (hrun : (mapioAll calls).run s = (.ok vaddrs, s')) :
    List.Forall₂ (fun c vaddr => Reaches s' vaddr c.1) calls vaddrs ↔
      Coexist (calls.map (·.1)) :=
  mapioAll_reaches_iff (h.tables hb).1 h64 hrun

/-- The sequence of calls ends on the machine just booted. -/
theorem exists_mapioAll_run_boot (calls : List (Nat × Nat)) : ∃ vaddrs s',
    (mapioAll calls).run (bootMachine (mb 5)) = (.ok vaddrs, s') := by
  have hb : Booted (bootMachine (mb 5)) := booted_bootMachine (by decide) (by decide)
  have hm := missingTables_le (bootMachine (mb 5)).ram (mb 2) pciVirtualAddress
  exact exists_mapioAll_run hb.tables ((afterTables_mono (by decide) hm).trans (by decide)) calls

/-- An interrupt controller and a network card. -/
theorem Run.coexist_iff_two : ∃ vaddrs s',
    (mapioAll [(0xfec00000, 0), (0xfebc0000, 0)]).run (bootMachine (mb 5)) = (.ok vaddrs, s') ∧
      List.Forall₂ (fun c vaddr => Reaches s' vaddr c.1) [(0xfec00000, 0), (0xfebc0000, 0)]
        vaddrs := by
  have hb : Booted (bootMachine (mb 5)) := booted_bootMachine (by decide) (by decide)
  obtain ⟨vaddrs, s', hrun⟩ := exists_mapioAll_run_boot [(0xfec00000, 0), (0xfebc0000, 0)]
  refine ⟨vaddrs, s', hrun, (Run.coexist_iff hb .boot (by decide) hrun).mpr ⟨?_, ?_, ?_⟩⟩
  · decide
  · decide
  · intro xs a ys hsplit _
    have hfour : ∀ a ∈ [(0xfec00000, 0), (0xfebc0000, 0)].map (·.1), a % 4 = 0 := by decide
    exact hfour a (by rw [hsplit]; simp)

/-- Two devices a megabyte apart get one address. -/
theorem Run.not_coexist_megabyte : ¬∀ boot dirs s calls vaddrs s', Booted boot → Run boot dirs s →
    (∀ c ∈ calls, c.1 < 2 ^ 64) → (mapioAll calls).run s = (.ok vaddrs, s') →
    List.Forall₂ (fun c vaddr => Reaches s' vaddr c.1) calls vaddrs := by
  intro hall
  have hb : Booted (bootMachine (mb 5)) := booted_bootMachine (by decide) (by decide)
  obtain ⟨vaddrs, s', hrun⟩ := exists_mapioAll_run_boot [(0xfec00000, 0), (0xfeb00000, 0)]
  have h64 : ∀ c ∈ [(0xfec00000, 0), (0xfeb00000, 0)], c.1 < 2 ^ 64 := by decide
  have := (mapioAll_reaches_iff hb.tables h64 hrun).mp (hall _ _ _ _ _ _ hb .boot h64 hrun)
  exact absurd (this.2.1 0xfec00000 (by decide) 0xfeb00000 (by decide) (by decide)) (by decide)

end
end Paging
end Coronel
