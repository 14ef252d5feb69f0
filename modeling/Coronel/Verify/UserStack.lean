import Coronel.Verify.Mmio

/-!
# The stack of a user directory

`setup_user_memory_layout` maps sixteen pages from the bottom of the stack on, a zeroed frame from
placement memory for each. The bottom is not aligned, as the top is not, so the stack lies on
seventeen pages: the last one, with its 4080 bytes, is left as it was.
-/

namespace Coronel

open Theory Theory.Bytes

namespace Paging

/-- The bytes from `lo` to `hi` lie below the watermark, and no table of the directories meets
them. -/
structure Spared (dirs : List Nat) (lo hi : Nat) (s : Machine) : Prop where
  below : hi ≤ s.placement - kvirtualAddress
  table : ∀ d ∈ dirs, ∀ p, ValidPath p → ∀ t, tableAt s.ram d p = some t → t + 4096 ≤ lo ∨ hi ≤ t

/-- Spared bytes keep their values, and stay spared. -/
def Spares (dirs : List Nat) (lo hi : Nat) (s s' : Machine) : Prop :=
  Spared dirs lo hi s → Spared dirs lo hi s' ∧ ∀ a, lo ≤ a → a < hi → s'.ram a = s.ram a

/-- The `USER` bit and the `WRITABLE` bit. -/
def userWritable : Nat := 0x06

/-- The bottom of the stack. -/
def userStackBottom : Nat := 0x7FEFFF0

/-- A frame of zeros that was reserved on the way from `s` to `s'`. -/
def ZeroedFrame (s s' : Machine) (f : Nat) : Prop :=
  s.placement ≤ kvirtualAddress + f ∧ kvirtualAddress + f + 4096 ≤ s'.placement ∧
    ∀ k < 4096, s'.ram (f + k) = 0

/-- Each byte of the stack can be read and written in ring 3, on a frame of zeros that was reserved
on the way from `s` to `s'`. -/
def StackMapped (d : Nat) (s s' : Machine) : Prop :=
  ∀ v, sub64 userStackTop userStackSize ≤ v → v < userStackTop →
    ∃ e, access userWritable s'.ram d v = some e ∧ ZeroedFrame s s' (entryFrame e)

/-- The page under the top of the stack is mapped already, for ring 3, and to one of the sixteen
frames behind the watermark. -/
def TopMapped (d : Nat) (s : Machine) : Prop :=
  ∃ e, access userWritable s.ram d (userStackTop - 1) = some e ∧
    alignUp s.placement ≤ kvirtualAddress + entryFrame e ∧
    kvirtualAddress + entryFrame e < alignUp s.placement + userStackSize

/-- The machine after the frame at `f` was placed and zeroed. -/
def withFrame (f : Nat) (s : Machine) : Machine :=
  { s with
    ram := fill s.ram f 4096 0
    placement := kvirtualAddress + f + 4096
    reserved := ⟨kvirtualAddress + f, 4096⟩ :: s.reserved }

/-- What the `n` turns of the loop from page `i` do to the tables. -/
structure Stacked (dirs : List Nat) (d i n : Nat) (s s' : Machine) : Prop where
  tables : Tables dirs s'
  spares : ∀ lo hi, Spares dirs lo hi s s'
  grants : ∀ d' ∈ dirs, ∀ v, Grants userWritable s'.ram d' v ↔ Grants userWritable s.ram d' v
  walks : ∀ d' ∈ dirs, ∀ v, ¬(d' = d ∧ 0x7FEF + i ≤ v % 2 ^ 48 / 4096 ∧
    v % 2 ^ 48 / 4096 < 0x7FEF + i + n) → walk s'.ram d' v = walk s.ram d' v
  frames : ∀ k < n, ∃ f, walk s'.ram d (userStackBottom + 4096 * (i + k)) = some (leafEntry f 0x07) ∧
    f % 4096 = 0 ∧ ZeroedFrame s s' f ∧ kvirtualAddress + f = alignUp s.placement +
      4096 * if k = 0 then 0 else missingTables s.ram d (userStackBottom + 4096 * i) + k
  placement : s'.placement = if n = 0 then s.placement else alignUp s.placement +
    4096 * (missingTables s.ram d (userStackBottom + 4096 * i) + n)

section
variable {dirs : List Nat} {s s' s'' : Machine} {d d' i k n t f v v' lo hi : Nat} {p : List Nat}

/-! ### Memory the tables spare -/

theorem Spares.trans (h : Spares dirs lo hi s s') (h' : Spares dirs lo hi s' s'') :
    Spares dirs lo hi s s'' := fun hs =>
  have ⟨h1, h2⟩ := h hs
  have ⟨h3, h4⟩ := h' h1
  ⟨h3, fun a ha ha' => (h4 a ha ha').trans (h2 a ha ha')⟩

theorem nextTable_spares {r : Option Nat} (H : Tables dirs s) (hd : d ∈ dirs)
    (hp : ValidPath (i :: p)) (ht : tableAt s.ram d p = some t) (hf : f < 4096) (hf1 : f % 2 = 1)
    (h : (nextTable (kvirtualAddress + t) i f true).run s = (.ok r, s')) :
    Spares dirs lo hi s s' := by
  intro hs
  have hi' := hp.2 i List.mem_cons_self
  have hbelow := hs.below
  have hT := hs.table d hd p hp.tail t ht
  obtain ⟨-, -, hg⟩ := (nextTable_safe (C := ⊤) H hd hp ht hf hf1).ok h trivial
  have hle := hg.step.le
  rcases nextTable_ram H hd hp ht hf h with h1 | ⟨habs, t₀, h2, h3, h4, h1⟩
  · exact ⟨⟨by omega, h1 ▸ hs.table⟩, fun _ _ _ => by rw [h1]⟩
  · refine ⟨⟨by omega, fun d' hd' q hq t' ht' => ?_⟩, fun a ha ha' => ?_⟩
    · rw [h1, H.forest.tableAt_link hd hp ht habs h2 h3 h4 hf hf1 hd' hq] at ht'
      split at ht'
      · cases ht'
        exact .inr (hbelow.trans h3)
      · exact hs.table d' hd' q hq t' ht'
    · rw [h1, Forest.link, store_of_not_mem (by omega), fill_of_not_mem (by omega)]

theorem map_spares {flags paddr : Nat} {r : Int} (H : Tables dirs s) (hd : d ∈ dirs)
    (h : (Paging.map d v paddr flags).run s = (.ok r, s')) : Spares dirs lo hi s s' := by
  obtain ⟨hf, hf1⟩ := dirFlags_spec flags
  rw [Paging.map, Prog.run_bind_eq_ok] at h
  obtain ⟨page, s1, h1, h⟩ := h
  obtain ⟨⟨t, rfl, ht⟩, hg⟩ := (getPage_safe (C := ⊤) H hd v flags).ok h1 trivial
  have hsp : Spares dirs lo hi s s1 := getPage_rel H hd (fun _ _ _ => Spares.trans)
    (fun a b i p t r Ha hp ht hrun => nextTable_spares Ha hd hp ht hf hf1 hrun) h1
  refine hsp.trans fun hs => ?_
  have hF := hg.tables.forest
  have hwin := hF.window
  have hT := hs.table d hd _ (validPath_pathOf v) t ht
  have hi' := pteIndex_lt v
  rw [if_neg (by rw [kvirtualAddress_eq]; omega),
    slot_eq (by have := hF.table d hd _ (validPath_pathOf v) t ht; omega) hi',
    Prog.run_bind_ok (run_storeDirect (by
      have := hF.table d hd _ (validPath_pathOf v) t ht
      omega) s1)] at h
  cases h
  refine ⟨⟨hs.below, fun d' hd' q hq t' ht' => ?_⟩, fun a ha ha' => store_of_not_mem (by omega)⟩
  rw [hF.tableAt_leaf hd ht (leafEntry_lt paddr flags) hd' hq] at ht'
  exact hs.table d' hd' q hq t' ht'

/-! ### The loop -/

theorem stackPage_eq (hi : i < 16) :
    add64 (sub64 userStackTop userStackSize) (mul64 i 0x1000) = userStackBottom + 4096 * i := by
  rw [show sub64 userStackTop userStackSize = userStackBottom by decide, mul64_eq (by omega),
    add64_eq (by rw [userStackBottom]; omega), Nat.mul_comm]

theorem stackPage_number (hi : i ≤ 16) :
    (userStackBottom + 4096 * i) % 2 ^ 48 / 4096 = 0x7FEF + i := by
  rw [userStackBottom]
  omega

/-- The pages of the stack have one leaf table. -/
theorem pathOf_stackPage (hi : i ≤ 16) : pathOf (userStackBottom + 4096 * i) = [63, 0, 0] := by
  simp only [pathOf, pdeIndex_eq, pdptIndex_eq, pml4Index_eq, userStackBottom, List.cons.injEq,
    and_true]
  omega

theorem mapStackFrom_eq (d b n i : Nat) : mapStackFrom d b (n + 1) i = (do
    let stack ← placementKallocPaddr 0x1000 true
    if stack.1 = 0 then
      return false
    zeroDirect stack.1 0x1000
    let result ← mapUser d (add64 b (mul64 i 0x1000)) stack.2
    if result ≠ 0 then
      return false
    mapStackFrom d b n (i + 1)) := rfl

/-- One turn of the loop: a frame is placed and zeroed, and mapped. -/
theorem mapStackFrom_succ (H : Tables dirs s) (hi : i < 16) :
    ∃ f, alignUp s.placement = kvirtualAddress + f ∧ f % 4096 = 0 ∧
      s.placement - kvirtualAddress ≤ f ∧ f < s.placement - kvirtualAddress + 4096 ∧
      (f + 4096 ≤ directMapSize → Tables dirs (withFrame f s) ∧
        (mapStackFrom d (sub64 userStackTop userStackSize) (n + 1) i).run s = (do
          let result ← Paging.map d (userStackBottom + 4096 * i) f 0x07
          if result ≠ 0 then
            return false
          mapStackFrom d (sub64 userStackTop userStackSize) n (i + 1)).run (withFrame f s)) ∧
      (¬f + 4096 ≤ directMapSize → ∀ r s', (mapStackFrom d (sub64 userStackTop userStackSize)
        (n + 1) i).run s ≠ (.ok r, s')) := by
  have hkv := kvirtualAddress_eq
  obtain ⟨f, h1, h2, h3, h4, hrun⟩ := run_placementKallocPaddr 4096 (Nat.le_refl _) H.base H.bound
  refine ⟨f, h1, h2, h3, h4, fun hfit => ⟨?_, ?_⟩, fun hfit r s' h => ?_⟩
  · have hram : ∀ a < s.placement - kvirtualAddress, (withFrame f s).ram a = s.ram a :=
      fun a ha => fill_of_not_mem (by omega)
    have hF := (H.forest.congr hram).2
    have hpl : (withFrame f s).placement = kvirtualAddress + f + 4096 := rfl
    exact ⟨hF.mono (by omega) (by omega), by omega, H.cr3⟩
  · have hzero : (zeroDirect (kvirtualAddress + f) 4096).run { s with
        placement := kvirtualAddress + f + 4096
        reserved := ⟨kvirtualAddress + f, 4096⟩ :: s.reserved } = (.ok (), withFrame f s) :=
      run_zeroDirect hfit _
    rw [mapStackFrom_eq, Prog.run_bind_ok hrun, if_neg (by simp only; omega),
      Prog.run_bind_ok hzero, stackPage_eq hi, show (kvirtualAddress + f, f).2 = f from rfl, mapUser]
  · rw [mapStackFrom_eq, Prog.run_bind_ok hrun, if_neg (by simp only; omega), zeroDirect,
      window_eq_none (by omega)] at h
    cases h

/-- The invariant of the loop. -/
theorem mapStackFrom_spec {r : Bool} (H : Tables dirs s) (hd : d ∈ dirs) (hi : i + n ≤ 16)
    (h : (mapStackFrom d (sub64 userStackTop userStackSize) n i).run s = (.ok r, s')) :
    r = true ∧ Stacked dirs d i n s s' := by
  have hkv := kvirtualAddress_eq
  have hgb := directMapSize_eq
  induction n generalizing i s with
  | zero =>
    cases h
    exact ⟨rfl, H, fun _ _ hs => ⟨hs, fun _ _ _ => rfl⟩, fun _ _ _ => Iff.rfl, fun _ _ _ _ => rfl,
      fun k hk => by omega, rfl⟩
  | succ n ih =>
    obtain ⟨f, h1, h2, h3, -, hturn, hfull⟩ := mapStackFrom_succ (d := d) (i := i) (n := n) H (by omega)
    have h4 : f + 4096 ≤ directMapSize := by
      by_contra hno
      exact hfull hno _ _ h
    obtain ⟨hT1, hrun⟩ := hturn h4
    rw [hrun, Prog.run_bind_eq_ok] at h
    obtain ⟨r2, s2, hmap, hrest⟩ := h
    obtain ⟨rfl, -, -⟩ := map_spec hT1 hd hmap
    rw [if_neg (by simp)] at hrest
    obtain ⟨s1, hs1⟩ : ∃ s1, s1 = withFrame f s := ⟨_, rfl⟩
    rw [← hs1] at hmap hT1
    have hram : ∀ a < s.placement - kvirtualAddress, s1.ram a = s.ram a := fun a ha => by
      rw [hs1]
      exact fill_of_not_mem (by omega)
    have htab := (H.forest.congr hram).1
    have hpl1 : s1.placement = kvirtualAddress + f + 4096 := by
      rw [hs1]
      rfl
    have hpath := validPath_pathOf (userStackBottom + 4096 * i)
    have hmiss : missingTables s1.ram d (userStackBottom + 4096 * i) =
        missingTables s.ram d (userStackBottom + 4096 * i) := by
      rw [missingTables, missingTables, miss, miss, miss, htab d hd _ hpath,
        htab d hd _ hpath.tail, htab d hd _ hpath.tail.tail]
      rfl
    have hsp1 : ∀ lo hi, Spares dirs lo hi s s1 := fun lo hi hs =>
      ⟨⟨by have := hs.below; omega, fun d' hd' q hq t ht =>
        hs.table d' hd' q hq t (htab d' hd' q hq ▸ ht)⟩,
        fun a _ ha => hram a (by have := hs.below; omega)⟩
    have hspf : Spared dirs f (f + 4096) s1 := ⟨by omega, fun d' hd' q hq t ht =>
      .inl (((H.forest.table d' hd' q hq t (htab d' hd' q hq ▸ ht)).2).trans h3)⟩
    obtain ⟨-, hT2, hstep, hset, hpl2⟩ := (map_safe (C := ⊤) hT1 hd _ f 0x07).ok hmap trivial
    rw [hmiss, hpl1] at hpl2
    obtain ⟨rfl, hS⟩ := ih hT2 (by omega) hrest
    have hb := hT1.bound
    have hm := missingTables_le s.ram d (userStackBottom + 4096 * i)
    have hidx : pml4Index (userStackBottom + 4096 * i) ≠ 511 := by
      rw [pml4Index_eq, userStackBottom]
      omega
    -- the leaf table is there after the first turn
    have hwalk2 : walk s2.ram d (userStackBottom + 4096 * i) = some (leafEntry f 0x07) := by
      rw [hset d hd, if_pos ⟨rfl, .inl rfl⟩]
      rfl
    have hmiss2 : missingTables s2.ram d (userStackBottom + 4096 * (i + 1)) = 0 := by
      obtain ⟨t, ht, -⟩ := (walk_some_iff (hT2.forest.entryFrame_dir hd)).mp hwalk2
      refine missingTables_of_tableAt ?_
      rw [pathOf_stackPage (by omega), ← pathOf_stackPage (i := i) (by omega), ht]
      exact Option.some_ne_none t
    have halign : s2.placement = kvirtualAddress + f + 4096 +
        4096 * missingTables s.ram d (userStackBottom + 4096 * i) := by
      rw [hpl2, afterTables]
      split
      · omega
      · rw [alignUp_of_aligned (by omega) (by omega)]
    have halign2 : alignUp s2.placement = s2.placement :=
      alignUp_of_aligned (by omega) (by have := hT2.placement_lt; omega)
    have hpl : s'.placement = s2.placement + 4096 * n := by
      rw [hS.placement, hmiss2, halign2]
      split
      · omega
      · omega
    refine ⟨rfl, hS.tables, fun lo hi => ?_, fun d' hd' v => ?_, fun d' hd' v hv => ?_,
      fun k hk => ?_, ?_⟩
    · exact (hsp1 lo hi).trans ((map_spares hT1 hd hmap).trans (hS.spares lo hi))
    · rw [hS.grants d' hd' v, map_grants hT1 hd (by decide) (by decide) hmap hd']
      exact H.forest.grants_congr hram hd'
    · rw [hS.walks d' hd' v fun hc => hv ⟨hc.1, by omega, by omega⟩, hset d' hd' v,
        if_neg ?_, H.forest.walk_congr hram hd']
      intro hc
      rw [stackPage_number (by omega)] at hc
      exact hv ⟨hc.2.resolve_right hidx, by omega, by omega⟩
    · cases k with
      | zero =>
        refine ⟨f, ?_, h2, ⟨by omega, by omega, fun k hk => ?_⟩, by rw [if_pos rfl]; omega⟩
        · rw [Nat.add_zero, hS.walks d hd _ fun hc => ?_, hwalk2]
          rw [stackPage_number (by omega)] at hc
          omega
        · obtain ⟨hsp2, hk2⟩ := map_spares hT1 hd hmap hspf
          rw [(hS.spares f (f + 4096) hsp2).2 _ (by omega) (by omega), hk2 _ (by omega) (by omega),
            hs1]
          exact fill_of_mem (by omega) (by omega)
      | succ k =>
        obtain ⟨g, h5, h6, ⟨h7, h8, h9⟩, h10⟩ := hS.frames k (by omega)
        rw [show i + 1 + k = i + (k + 1) by omega] at h5
        refine ⟨g, h5, h6, ⟨by omega, h8, h9⟩, ?_⟩
        rw [h10, hmiss2, halign2, if_neg (Nat.succ_ne_zero k)]
        split
        · omega
        · omega
    · rw [hpl, if_neg (by omega)]
      omega

/-- With room for the frames and their tables the loop ends. -/
theorem exists_mapStackFrom_run (H : Tables dirs s) (hd : d ∈ dirs) (hi : i + n ≤ 16)
    (hroom : s.placement + n * 32768 ≤ kvirtualAddress + mb 6) :
    ∃ s', (mapStackFrom d (sub64 userStackTop userStackSize) n i).run s = (.ok true, s') := by
  have hwin : mb 6 + 0x100000 ≤ directMapSize := by decide
  induction n generalizing i s with
  | zero => exact ⟨s, rfl⟩
  | succ n ih =>
    obtain ⟨f, h1, h2, h3, h4, hturn, -⟩ := mapStackFrom_succ (d := d) (i := i) (n := n) H (by omega)
    obtain ⟨hT1, hrun⟩ := hturn (by omega)
    have hpl : (withFrame f s).placement = kvirtualAddress + f + 4096 := rfl
    have hbase := H.base
    obtain ⟨s2, hmap, hpl2⟩ :=
      exists_map_run hT1 hd (by omega) (userStackBottom + 4096 * i) f 0x07
    have hT2 := (map_spec hT1 hd hmap).2.1
    obtain ⟨s', hrest⟩ := ih (i := i + 1) hT2 (by omega) (by omega)
    refine ⟨s', ?_⟩
    rw [hrun, Prog.run_bind_ok hmap, if_neg (by simp), hrest]

/-! ### The pages of the stack -/

theorem userStack_range (hlo : sub64 userStackTop userStackSize ≤ v) (hhi : v < userStackTop) :
    (∃ k < 16, v % 2 ^ 48 / 4096 = (userStackBottom + 4096 * k) % 2 ^ 48 / 4096) ∨
      v % 2 ^ 48 / 4096 = (userStackTop - 1) % 2 ^ 48 / 4096 := by
  rw [show sub64 userStackTop userStackSize = 0x7FEFFF0 by decide] at hlo
  rw [userStackTop] at hhi ⊢
  by_cases hv : v / 4096 = 0x7FFF
  · exact .inr (by omega)
  · exact .inl ⟨v / 4096 - 0x7FEF, by omega, by rw [userStackBottom]; omega⟩

theorem access_congr_page {mask : Nat} {ram : Mem} (h : v % 2 ^ 48 / 4096 = v' % 2 ^ 48 / 4096) :
    access mask ram d v = access mask ram d v' := by
  obtain ⟨h1, h2⟩ := same_page_iff.mpr h
  simp only [pathOf, List.cons.injEq, and_true] at h1
  rw [access, access, h1.1, h1.2.1, h1.2.2, h2]

theorem grants_congr_path {mask : Nat} {ram : Mem} (h : pathOf v = pathOf v') :
    Grants mask ram d v ↔ Grants mask ram d v' := by
  rw [Grants, Grants, h]

/-- The sixteen pages are mapped; the one under the top is as it was. -/
theorem Stacked.mapped_iff (H : Tables dirs s) (hd : d ∈ dirs) (h : Stacked dirs d 0 16 s s') :
    StackMapped d s s' ↔ TopMapped d s := by
  have hd1 := H.forest.entryFrame_dir hd
  have hd2 := h.tables.forest.entryFrame_dir hd
  have hsize : userStackSize = 65536 := rfl
  have hpl := h.placement
  rw [if_neg (by decide)] at hpl
  -- the walk to the last page is as before
  have htop : ∀ e, access userWritable s'.ram d (userStackTop - 1) = some e ↔
      access userWritable s.ram d (userStackTop - 1) = some e := by
    intro e
    rw [access_eq_some hd1, access_eq_some hd2, h.grants d hd, h.walks d hd]
    rintro ⟨-, -, h1⟩
    revert h1
    decide
  have hmiss : ∀ e, access userWritable s.ram d (userStackTop - 1) = some e →
      missingTables s.ram d (userStackBottom + 4096 * 0) = 0 := by
    intro e he
    obtain ⟨t, ht, -⟩ := (walk_some_iff hd1).mp ((access_eq_some hd1).mp he).1
    refine missingTables_of_tableAt ?_
    rw [show pathOf (userStackBottom + 4096 * 0) = pathOf (userStackTop - 1) by decide, ht]
    exact Option.some_ne_none t
  constructor
  · intro hm
    obtain ⟨e, he, h1, h2, -⟩ := hm (userStackTop - 1) (by decide) (by decide)
    have he' := (htop e).mp he
    rw [hmiss e he'] at hpl
    have hmod := entryFrame_mod e
    have hkv := kvirtualAddress_eq
    have hb := H.placement_lt
    have hup := alignUp_lt_add (a := s.placement) (by omega)
    have halign := alignUp_mod s.placement
    exact ⟨e, he', by omega, by omega⟩
  · rintro ⟨e, he, h1, h2⟩ v hlo hhi
    obtain ⟨hw, hp, hg⟩ := (access_eq_some hd1).mp he
    have hm := hmiss e he
    have hmod := entryFrame_mod e
    have halign := alignUp_mod s.placement
    have hkv := kvirtualAddress_eq
    rcases userStack_range hlo hhi with ⟨k, hk, hv⟩ | hv
    · obtain ⟨f, h3, h4, h5, -⟩ := h.frames k hk
      rw [Nat.zero_add] at h3
      have hlt : f < 2 ^ 52 := by
        have := h.tables.bound
        have := h5.2.1
        rw [directMapSize_eq] at *
        omega
      have hf := (entryFrame_leafEntry 0x07 h4 hlt).1
      refine ⟨leafEntry f 0x07, (access_eq_some hd2).mpr ⟨?_, ?_, ?_⟩, hf.symm ▸ h5⟩
      · rw [walk_congr_page hv, h3]
      · rw [leafEntry_eq, permits_add (by omega) (by decide) (by decide)]
        decide
      · rw [h.grants d hd, grants_congr_path ?_]
        · exact hg
        · rw [(same_page_iff.mpr hv).1, pathOf_stackPage (by omega)]
          decide
    · refine ⟨e, by rw [access_congr_page hv, htop, he], ?_⟩
      obtain ⟨k, hk⟩ : ∃ k, kvirtualAddress + entryFrame e = alignUp s.placement + 4096 * k :=
        ⟨(kvirtualAddress + entryFrame e - alignUp s.placement) / 4096, by omega⟩
      obtain ⟨f, -, -, h5, h6⟩ := h.frames k (by omega)
      rw [hm] at h6
      have hf : f = entryFrame e := by
        split at h6
        · omega
        · omega
      exact hf ▸ h5

/-- **The user stack.** In every directory of every reachable state, when
`setup_user_memory_layout` returns true the stack is mapped on zeroed frames of the call exactly
when the page under its top was mapped already, to one of the frames the call was about to take. -/
theorem Run.stackMapped_iff {boot : Machine} (hb : Booted boot) (h : Run boot dirs s) (hd : d ∈ dirs)
    (hrun : (setupUserMemoryLayout d).run s = (.ok true, s')) :
    StackMapped d s s' ↔ TopMapped d s := by
  have H := (h.tables hb).1
  exact (mapStackFrom_spec (n := 16) (i := 0) H hd (by decide) hrun).2.mapped_iff H hd

/-- Four megabytes behind the image are enough for the stack. -/
theorem exists_setup_run (H : Tables dirs s) (hd : d ∈ dirs)
    (hpl : s.placement + 524288 ≤ kvirtualAddress + mb 6) :
    ∃ s', (setupUserMemoryLayout d).run s = (.ok true, s') :=
  exists_mapStackFrom_run (i := 0) (n := 16) H hd (by decide) hpl

/-- The page under the top is mapped first, to the frame that comes after its three tables. -/
theorem Run.stackMapped_iff_behind : ∃ s s',
    (Paging.map (mb 2) 0x7FFF000 0x503000 0x07).run (bootMachine (mb 5)) = (.ok 0, s) ∧
      (setupUserMemoryLayout (mb 2)).run s = (.ok true, s') ∧ StackMapped (mb 2) s s' := by
  have hb : Booted (bootMachine (mb 5)) := booted_bootMachine (by decide) (by decide)
  have hd : mb 2 ∈ [(bootMachine (mb 5)).cr3] := List.mem_singleton.mpr rfl
  have hnone := tableAt_bootMachine
  have hmiss : missingTables (bootMachine (mb 5)).ram (mb 2) 0x7FFF000 = 3 := by
    rw [missingTables, show pathOf 0x7FFF000 = [63, 0, 0] by decide,
      show pml4Index 0x7FFF000 = 0 by decide, show pdptIndex 0x7FFF000 = 0 by decide]
    simp only [miss, tableAt_cons _ _ 63, tableAt_cons _ _ 0 [0], hnone, Option.bind_none, if_true]
  obtain ⟨s, hmap, -⟩ := exists_map_run hb.tables hd (by decide) 0x7FFF000 0x503000 0x07
  obtain ⟨-, hT, -, hset, hpl⟩ :=
    (map_safe (C := ⊤) hb.tables hd 0x7FFF000 0x503000 0x07).ok hmap trivial
  rw [hmiss] at hpl
  have hpl' : s.placement = kvirtualAddress + 0x503000 := hpl.trans (by decide)
  obtain ⟨s', hrun⟩ := exists_setup_run hT hd (by rw [hpl']; decide)
  have hg : Grants userWritable s.ram (mb 2) 0x7FFF000 :=
    (map_grants hb.tables hd (by decide) (by decide) hmap hd).mpr (grants_of_missing hnone)
  have htop : access userWritable s.ram (mb 2) 0x7FFF000 = some (leafEntry 0x503000 0x07) := by
    refine (access_eq_some (hT.forest.entryFrame_dir hd)).mpr ⟨?_, by decide, hg⟩
    rw [hset _ hd, if_pos ⟨rfl, .inl rfl⟩]
    rfl
  refine ⟨s, s', hmap, hrun, (Run.stackMapped_iff hb (.map .boot hd hmap) hd hrun).mpr
    ⟨leafEntry 0x503000 0x07, ?_, ?_, ?_⟩⟩
  · rw [← htop]
    exact access_congr_page (by decide)
  · rw [hpl']
    decide
  · rw [hpl']
    decide

/-- The boot directory has no page under the top of the stack. -/
theorem Run.not_stackMapped : ¬∀ boot dirs s d s', Booted boot → Run boot dirs s → d ∈ dirs →
    (setupUserMemoryLayout d).run s = (.ok true, s') → StackMapped d s s' := by
  intro hall
  have hb : Booted (bootMachine (mb 5)) := booted_bootMachine (by decide) (by decide)
  have hd : mb 2 ∈ [(bootMachine (mb 5)).cr3] := List.mem_singleton.mpr rfl
  obtain ⟨s', hrun⟩ := exists_setup_run hb.tables hd (by decide)
  have hS := (mapStackFrom_spec (n := 16) (i := 0) hb.tables hd (by decide) hrun).2
  obtain ⟨e, he, -⟩ := (hS.mapped_iff hb.tables hd).mp (hall _ _ _ _ _ hb .boot hd hrun)
  obtain ⟨t, ht, -⟩ := (walk_some_iff (hb.tables.forest.entryFrame_dir hd)).mp
    ((access_eq_some (hb.tables.forest.entryFrame_dir hd)).mp he).1
  rw [show pathOf (userStackTop - 1) = [63, 0, 0] by decide, tableAt_cons, tableAt_cons,
    tableAt_bootMachine] at ht
  cases ht

end
end Paging
end Coronel
