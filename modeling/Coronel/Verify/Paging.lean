import Coronel.Verify.PageTables

/-!
# The paging operations

`Tables dirs s`: the tables of the directories `dirs` fill placement memory below the watermark.
`map`, `unmap` and `create_page_directory` keep it, and their effect is given by what they do to
walks. The only trap they can meet is a table that placement memory has no room for.
-/

namespace Coronel

open Theory Theory.Bytes

/-- The kernel used up its window. -/
def Trap.IsDirectMap : Trap → Prop
  | .directMap _ => True
  | _ => False

/-- The directories `dirs`, one of them current, with their tables below the watermark. -/
structure Tables (dirs : List Nat) (s : Machine) : Prop where
  forest : Forest s.ram dirs (s.placement - kvirtualAddress)
  base : kvirtualAddress ≤ s.placement
  cr3 : s.cr3 ∈ dirs

/-- What a paging operation leaves alone: the managers, and memory above the watermark. -/
structure TableStep (s s' : Machine) : Prop where
  eq : s' = { s with ram := s'.ram, placement := s'.placement, reserved := s'.reserved }
  above : ∀ a, s'.placement - kvirtualAddress ≤ a → s'.ram a = s.ram a
  le : s.placement ≤ s'.placement
  grows : s ≤ s'
  /-- The watermark stands at the end of a reserved range, if it moved. -/
  placed : s'.placement = s.placement ∨ ∃ r ∈ s'.reserved, s'.placement = r.start + r.size
  /-- What is newly reserved lies between the two watermarks. -/
  fresh : ∀ r ∈ s'.reserved, r ∈ s.reserved ∨ s.placement ≤ r.start ∧ r.start + r.size ≤ s'.placement

theorem TableStep.refl (s : Machine) : TableStep s s :=
  ⟨rfl, fun _ _ => rfl, Nat.le_refl _, le_refl s, .inl rfl, fun _ hr => .inl hr⟩

theorem TableStep.trans {s s' s'' : Machine} (h : TableStep s s') (h' : TableStep s' s'') :
    TableStep s s'' := by
  have hle := h'.le
  have hle' := h.le
  refine ⟨?_, fun a ha => (h'.above a ha).trans (h.above a (by omega)), h.le.trans hle,
    h.grows.trans h'.grows, ?_, fun r hr => ?_⟩
  · rw [h'.eq, h.eq]
  · rcases h'.placed with h1 | h1
    · rcases h.placed with h2 | ⟨r, hr, h2⟩
      · exact .inl (h1.trans h2)
      · exact .inr ⟨r, (Machine.le_iff.mp h'.grows).subset hr, h1.trans h2⟩
    · exact .inr h1
  · rcases h'.fresh r hr with hr | hr
    · exact (h.fresh r hr).imp_right fun hr => ⟨hr.1, by omega⟩
    · exact .inr ⟨by omega, hr.2⟩

/-- The watermark after `m` tables were placed. -/
def afterTables (placement m : Nat) : Nat :=
  if m = 0 then placement else alignUp placement + 4096 * m

/-! ### The window -/

theorem directMapSize_eq : directMapSize = 2 ^ 30 := by decide

theorem kvirtualAddress_eq : kvirtualAddress = 2 ^ 64 - 2 ^ 31 := by decide

theorem Tables.bound {dirs : List Nat} {s : Machine} (H : Tables dirs s) :
    s.placement ≤ kvirtualAddress + directMapSize := by
  have h1 := H.forest.window
  have h2 := H.base
  omega

theorem window_of_le {p n : Nat} (h : p + n ≤ directMapSize) :
    window (kvirtualAddress + p) n = some p := by
  rw [window, if_pos ⟨by omega, by omega⟩]
  simp

theorem window_eq_none {v n : Nat} (h : kvirtualAddress + directMapSize < v + n) :
    window v n = none := by
  rw [window, if_neg (by omega)]

theorem run_loadDirect {p : Nat} (h : p + 8 ≤ directMapSize) (s : Machine) :
    (loadDirect (kvirtualAddress + p)).run s = (.ok (load s.ram 8 p), s) := by
  rw [loadDirect, window_of_le h]
  rfl

theorem run_storeDirect {p e : Nat} (h : p + 8 ≤ directMapSize) (s : Machine) :
    (storeDirect (kvirtualAddress + p) e).run s =
      (.ok (), { s with ram := store s.ram 8 p e }) := by
  rw [storeDirect, window_of_le h]
  rfl

theorem of_loadDirect_run {v e : Nat} {s s' : Machine} (h : (loadDirect v).run s = (.ok e, s')) :
    ∃ p, v = kvirtualAddress + p ∧ p + 8 ≤ directMapSize ∧ e = load s.ram 8 p ∧ s' = s := by
  by_cases hw : kvirtualAddress ≤ v ∧ v + 8 ≤ kvirtualAddress + directMapSize
  · obtain ⟨p, rfl⟩ := Nat.exists_eq_add_of_le hw.1
    rw [run_loadDirect (by omega)] at h
    obtain ⟨h1, h2⟩ := Prod.mk.inj h
    exact ⟨p, rfl, by omega, (Except.ok.inj h1).symm, h2.symm⟩
  · rw [loadDirect, window, if_neg hw] at h
    cases h

theorem of_storeDirect_run {v e : Nat} {s s' : Machine}
    (h : (storeDirect v e).run s = (.ok (), s')) :
    ∃ p, v = kvirtualAddress + p ∧ p + 8 ≤ directMapSize ∧
      s' = { s with ram := store s.ram 8 p e } := by
  by_cases hw : kvirtualAddress ≤ v ∧ v + 8 ≤ kvirtualAddress + directMapSize
  · obtain ⟨p, rfl⟩ := Nat.exists_eq_add_of_le hw.1
    rw [run_storeDirect (by omega)] at h
    exact ⟨p, rfl, by omega, (Prod.mk.inj h).2.symm⟩
  · rw [storeDirect, window, if_neg hw] at h
    cases h

theorem run_zeroDirect {p n : Nat} (h : p + n ≤ directMapSize) (s : Machine) :
    (zeroDirect (kvirtualAddress + p) n).run s = (.ok (), { s with ram := fill s.ram p n 0 }) := by
  rw [zeroDirect, window_of_le h]
  rfl

theorem slot_eq {t i : Nat} (ht : t + 4096 ≤ directMapSize) (hi : i < 512) :
    Paging.slot (kvirtualAddress + t) i = kvirtualAddress + (t + 8 * i) := by
  rw [directMapSize_eq] at ht
  rw [Paging.slot, add64_eq (by rw [kvirtualAddress_eq]; omega), Nat.add_assoc]

theorem run_getCurrentPage (s : Machine) : getCurrentPage.run s = (.ok s.cr3, s) := rfl

/-- An aligned placement below the end of the window is an address of the window. -/
theorem run_placementKallocPaddr {s : Machine} (size : Nat) (hs : size ≤ 4096)
    (h : kvirtualAddress ≤ s.placement) (h' : s.placement ≤ kvirtualAddress + directMapSize) :
    ∃ t₀, alignUp s.placement = kvirtualAddress + t₀ ∧ t₀ % 4096 = 0 ∧
      s.placement - kvirtualAddress ≤ t₀ ∧ t₀ < s.placement - kvirtualAddress + 4096 ∧
      (placementKallocPaddr size true).run s = (.ok (kvirtualAddress + t₀, t₀),
        { s with placement := kvirtualAddress + t₀ + size,
                 reserved := ⟨kvirtualAddress + t₀, size⟩ :: s.reserved }) := by
  rw [directMapSize_eq] at h'
  have hkv := kvirtualAddress_eq
  have h0 : s.placement + 4095 < 2 ^ 64 := by omega
  have h1 := le_alignUp h0
  have h2 := alignUp_lt_add h0
  have h3 := alignUp_mod s.placement
  have h4 : kvirtualAddress % 4096 = 0 := by decide
  refine ⟨alignUp s.placement - kvirtualAddress, by omega, by omega, by omega, by omega, ?_⟩
  rw [Nat.add_sub_cancel' (by omega)]
  rw [placementKallocPaddr, Prog.run_bind_ok (Prog.run_get s)]
  simp only [if_true]
  rw [Prog.run_bind_ok (Prog.run_modify ..), add64_eq (by omega), sub64_eq (by omega) (by omega)]
  rfl

/-! ### get_page -/

open Paging

/-- 1 when the table at the path is still to be made. -/
def miss (ram : Mem) (d : Nat) (p : List Nat) : Nat := if tableAt ram d p = none then 1 else 0

/-- How many tables `get_page` makes for `v`. -/
def missingTables (ram : Mem) (d v : Nat) : Nat :=
  miss ram d [pml4Index v] + miss ram d [pdptIndex v, pml4Index v] + miss ram d (pathOf v)

/-- The state after `m` tables were linked: the same walks, `m` tables less room. -/
structure Grown (dirs : List Nat) (m : Nat) (s s' : Machine) : Prop where
  tables : Tables dirs s'
  step : TableStep s s'
  walk : ∀ d ∈ dirs, ∀ v, walk s'.ram d v = walk s.ram d v
  placement : s'.placement = afterTables s.placement m

/-- `m` tables do not fit below the end of the window. -/
def NoRoom (placement m : Nat) (e : Trap) : Prop :=
  e.IsDirectMap ∧ kvirtualAddress + directMapSize < afterTables placement m

theorem afterTables_add {pl m m' : Nat} (h : pl + 4096 * m + 8192 < 2 ^ 64) :
    afterTables (afterTables pl m) m' = afterTables pl (m + m') := by
  unfold afterTables
  by_cases hm : m = 0
  · simp [hm]
  by_cases hm' : m' = 0
  · simp [hm']
  have h1 := alignUp_lt_add (a := pl) (by omega)
  have h2 := alignUp_mod pl
  have h3 : alignUp (alignUp pl + 4096 * m) = alignUp pl + 4096 * m :=
    alignUp_of_aligned (by omega) (by omega)
  have hne : ¬m + m' = 0 := by omega
  rw [if_neg hm, if_neg hm', if_neg hne, h3]
  omega

theorem afterTables_mono {pl m m' : Nat} (h : pl + 4095 < 2 ^ 64) (hle : m ≤ m') :
    afterTables pl m ≤ afterTables pl m' := by
  have h1 := le_alignUp h
  unfold afterTables
  split <;> split <;> omega

section
variable {C : LowerSet Machine} {dirs : List Nat} {s : Machine} {d t i f : Nat} {p : List Nat}

/-- One level down: the table that is there, or a new one. -/
theorem nextTable_safe (H : Tables dirs s) (hd : d ∈ dirs) (hp : ValidPath (i :: p))
    (ht : tableAt s.ram d p = some t) (hf : f < 4096) (hf1 : f % 2 = 1) :
    Prog.Safe C (NoRoom s.placement (miss s.ram d (i :: p)))
      (nextTable (kvirtualAddress + t) i f true) s fun r s' =>
        (∃ t', r = some (kvirtualAddress + t') ∧ tableAt s'.ram d (i :: p) = some t') ∧
        (∀ q, ValidPath q → q ≠ i :: p → tableAt s'.ram d q = tableAt s.ram d q) ∧
        Grown dirs (miss s.ram d (i :: p)) s s' := by
  have hw := H.forest.window
  have hi := hp.2 i (by simp)
  have hT := H.forest.table d hd p hp.tail t ht
  have hgb := directMapSize_eq
  have hchild : tableAt s.ram d (i :: p) = childTable s.ram t i := by
    rw [tableAt_cons, ht, Option.bind_some]
  rw [nextTable, slot_eq (by omega) hi, sizeofTable]
  refine Prog.Safe.bind_run (run_loadDirect (by omega) s) ?_
  rw [show load s.ram 8 (t + 8 * i) = tableEntry s.ram t i from rfl]
  rcases hpr : present (tableEntry s.ram t i)
  · -- an absent entry: a table is placed, zeroed and linked
    have hnone : tableAt s.ram d (i :: p) = none := by rw [hchild, childTable_of_absent hpr]
    have hm : miss s.ram d (i :: p) = 1 := if_pos hnone
    obtain ⟨t₀, h1, h2, h3, h4, hrun⟩ :=
      run_placementKallocPaddr 4096 (Nat.le_refl _) H.base H.bound
    rw [if_pos (by simp)]
    refine Prog.Safe.bind_run hrun ?_
    by_cases hfit : t₀ + 4096 ≤ directMapSize
    · obtain ⟨he1, he2, he3⟩ := entry_with_flags (f := f) h2 (by omega) hf
      have hnew := fun q (hq : ValidPath q) =>
        H.forest.tableAt_link hd hp ht hpr h2 h3 hfit hf hf1 hd hq
      refine Prog.Safe.bind_run (run_zeroDirect hfit _) ?_
      refine Prog.Safe.bind_run (run_storeDirect (by omega) _) ?_
      refine Prog.Safe.bind_run (run_loadDirect (by omega) _) ?_
      rw [or_flags h2 hf]
      have hent : load (store (fill s.ram t₀ 4096 0) 8 (t + 8 * i) (t₀ + f)) 8 (t + 8 * i) =
          t₀ + f := load_store_of_lt (by omega)
      refine Prog.Safe.pure ⟨⟨t₀, ?_, ?_⟩, fun q hq hne => ?_, ?_, ?_, ?_, ?_⟩
      · simp only [hent]
        rw [address_eq he3 (by rw [he1]; omega), he1]
      · exact (hnew _ hp).trans (if_pos ⟨rfl, .inl rfl⟩)
      · exact (hnew q hq).trans (if_neg fun h => hne h.1)
      · have := H.forest.link_forest hd hp ht hpr h2 h3 hfit hf hf1
        have htop : kvirtualAddress + t₀ + 4096 - kvirtualAddress = t₀ + 4096 := by omega
        refine ⟨?_, by simp only; omega, H.cr3⟩
        simp only [htop]
        exact this
      · refine ⟨rfl, fun a ha => ?_, by have := H.base; simp only; omega, List.suffix_cons ..,
          .inr ⟨_, List.mem_cons_self, rfl⟩, fun r hr => ?_⟩
        swap
        · rcases List.mem_cons.mp hr with rfl | hr
          · exact .inr ⟨by have := H.base; simp only; omega, Nat.le_refl _⟩
          · exact .inl hr
        simp only at ha ⊢
        rw [store_of_not_mem (by omega), fill_of_not_mem (by omega)]
      · exact fun d' hd' v => H.forest.walk_link hd hp ht hpr h2 h3 hfit hf hf1 hd' v
      · rw [hm, afterTables, if_neg (by decide), h1]
    · refine Prog.Safe.bind (Q := fun _ _ => False) ?_ fun _ _ _ h => h.elim
      rw [zeroDirect, window_eq_none (by omega)]
      exact Prog.Safe.throw ⟨trivial, by rw [hm, afterTables, if_neg (by decide), h1]; omega⟩
  · -- a present entry: nothing changes
    have hsmall := H.forest.small d hd p hp.tail
      (by have := hp.1; rw [List.length_cons] at this; omega) t ht i hi hpr
    have hsome : tableAt s.ram d (i :: p) = some (entryFrame (tableEntry s.ram t i)) := by
      rw [hchild, childTable, if_pos hpr]
    have hm : miss s.ram d (i :: p) = 0 := if_neg (by simp [hsome])
    have hT' := H.forest.table d hd _ hp _ hsome
    simp only [Bool.not_true, Bool.false_and, Bool.false_eq_true, if_false]
    refine Prog.Safe.pure ⟨⟨_, ?_, hsome⟩, fun _ _ _ => rfl, H, TableStep.refl s,
      fun _ _ _ => rfl, by rw [hm]; rfl⟩
    exact congrArg some (address_eq hsmall (by omega))

theorem miss_le_one (ram : Mem) (d : Nat) (p : List Nat) : miss ram d p ≤ 1 := by
  unfold miss; split <;> omega

theorem missingTables_le (ram : Mem) (d v : Nat) : missingTables ram d v ≤ 3 := by
  have h1 := miss_le_one ram d [pml4Index v]
  have h2 := miss_le_one ram d [pdptIndex v, pml4Index v]
  have h3 := miss_le_one ram d (pathOf v)
  unfold missingTables
  omega

theorem Tables.placement_lt (H : Tables dirs s) : s.placement + 65536 < 2 ^ 64 := by
  have h1 := H.bound
  rw [kvirtualAddress_eq, directMapSize_eq] at h1
  omega

theorem Grown.trans {m m' : Nat} {s' s'' : Machine} (H : Tables dirs s) (h : Grown dirs m s s')
    (h' : Grown dirs m' s' s'') (hm : m ≤ 3) : Grown dirs (m + m') s s'' := by
  have hp := H.placement_lt
  refine ⟨h'.tables, h.step.trans h'.step, fun d hd v => ?_, ?_⟩
  · rw [h'.walk d hd, h.walk d hd]
  · rw [h'.placement, h.placement, afterTables_add (by omega)]

theorem Grown.noRoom {m m' k : Nat} {s' : Machine} {e : Trap} (H : Tables dirs s)
    (h : Grown dirs m s s') (he : NoRoom s'.placement m' e) (hm : m ≤ 3) (hk : m + m' ≤ k) :
    NoRoom s.placement k e := by
  have hp := H.placement_lt
  have h1 := he.2
  rw [h.placement, afterTables_add (by omega)] at h1
  exact ⟨he.1, Nat.lt_of_lt_of_le h1 (afterTables_mono (by omega) hk)⟩

theorem dirFlags_spec (flags : Nat) : dirFlags flags < 4096 ∧ dirFlags flags % 2 = 1 := by
  unfold dirFlags; split <;> decide

/-- `get_page` finds the leaf table of `v`, making the tables that are missing. -/
theorem getPage_safe (H : Tables dirs s) (hd : d ∈ dirs) (v flags : Nat) :
    Prog.Safe C (NoRoom s.placement (missingTables s.ram d v)) (getPage d v flags true) s
      fun r s' => (∃ t, r = kvirtualAddress + t ∧ tableAt s'.ram d (pathOf v) = some t) ∧
        Grown dirs (missingTables s.ram d v) s s' := by
  obtain ⟨hf, hf1⟩ := dirFlags_spec flags
  have hv3 := validPath_pathOf v
  have hv2 := hv3.tail
  have hv1 := hv2.tail
  have hm1 := miss_le_one s.ram d [pml4Index v]
  have hm2 := miss_le_one s.ram d [pdptIndex v, pml4Index v]
  have hdir := H.forest.dir hd
  have hwin := H.forest.window
  have haddr : address d = kvirtualAddress + d := by
    have h1 := H.forest.entryFrame_dir hd
    rw [directMapSize_eq] at hwin
    rw [address_eq (by omega) (by rw [h1, directMapSize_eq]; omega), h1]
  rw [getPage, haddr, missingTables]
  refine Prog.Safe.bind ((nextTable_safe H hd hv1 rfl hf hf1).weaken fun e he =>
    (Grown.mk H (TableStep.refl s) (fun _ _ _ => rfl) rfl : Grown dirs 0 s s).noRoom H he
      (by omega) (by omega)) ?_
  rintro _ s1 - ⟨⟨t1, rfl, ht1⟩, hold1, hg1⟩
  have hmiss2 : miss s1.ram d [pdptIndex v, pml4Index v] =
      miss s.ram d [pdptIndex v, pml4Index v] := by
    rw [miss, hold1 _ hv2 (by simp), miss]
  have hmiss3 : miss s1.ram d (pathOf v) = miss s.ram d (pathOf v) := by
    rw [miss, hold1 _ hv3 (by simp [pathOf]), miss]
  refine Prog.Safe.bind ((nextTable_safe hg1.tables hd hv2 ht1 hf hf1).weaken fun e he =>
    hg1.noRoom H he (by omega) (by omega)) ?_
  rintro _ s2 - ⟨⟨t2, rfl, ht2⟩, hold2, hg2⟩
  have hg12 := hg1.trans H hg2 (by omega)
  rw [hmiss2] at hg12
  have hmiss3' : miss s2.ram d (pathOf v) = miss s.ram d (pathOf v) := by
    rw [← hmiss3, miss, hold2 _ hv3 (by simp [pathOf]), miss]
  refine Prog.Safe.bind ((nextTable_safe hg2.tables hd hv3 ht2 hf hf1).weaken fun e he =>
    hg12.noRoom H he (by omega) (by rw [← hmiss3']; exact Nat.le_refl _)) ?_
  rintro _ s3 - ⟨⟨t3, rfl, ht3⟩, -, hg3⟩
  have hg := hg12.trans H hg3 (by omega)
  change Grown dirs (_ + _ + miss s2.ram d (pathOf v)) s s3 at hg
  rw [hmiss3'] at hg
  exact Prog.Safe.pure ⟨⟨t3, rfl, ht3⟩, hg⟩

/-! ### map and unmap -/

/-- The walks of all directories after the leaf entry for `v` in `d` became `e`. -/
def SetLeaf (dirs : List Nat) (d v : Nat) (leaf : Option Nat) (s s' : Machine) : Prop :=
  ∀ d' ∈ dirs, ∀ v', walk s'.ram d' v' =
    if v' % 2 ^ 48 / 4096 = v % 2 ^ 48 / 4096 ∧ (d' = d ∨ pml4Index v = 511) then leaf
    else walk s.ram d' v'

/-- The leaf entry: the frame and the three permission bits. -/
theorem leafEntry_eq (paddr flags : Nat) :
    leafEntry paddr flags = paddr % 2 ^ 64 / 4096 * 4096 + flags % 8 := by
  have hmask := and_page_mask paddr (show 12 ≤ 64 by decide)
  have ha : paddr % 2 ^ 64 / 4096 * 4096 % 4096 = 0 := by omega
  have hbit : ∀ k, flags &&& 2 ^ k ≠ 0 ↔ flags / 2 ^ k % 2 = 1 := fun k => by
    rw [Nat.and_two_pow, Nat.toNat_testBit]
    have : 0 < 2 ^ k := Nat.two_pow_pos k
    constructor
    · intro hne
      have : flags / 2 ^ k % 2 ≠ 0 := fun h0 => hne (by rw [h0, Nat.zero_mul])
      omega
    · intro h1
      rw [h1]
      omega
  have h0 : flags &&& 0x01 ≠ 0 ↔ flags % 2 = 1 := by
    simpa only [Nat.pow_zero, Nat.div_one] using hbit 0
  have h1 : flags &&& 0x02 ≠ 0 ↔ flags / 2 % 2 = 1 := hbit 1
  have h2 : flags &&& 0x04 ≠ 0 ↔ flags / 4 % 2 = 1 := hbit 2
  simp only [leafEntry, hmask, h0, h1, h2]
  generalize paddr % 2 ^ 64 / 4096 * 4096 = frame at ha
  split <;> split <;> split <;>
    first
      | omega
      | rw [or_flags ha (by decide)]; omega
      | simp only [Nat.or_assoc, Nat.reduceOr]; rw [or_flags ha (by decide)]; omega

theorem leafEntry_lt (paddr flags : Nat) : leafEntry paddr flags < 2 ^ 64 := by
  rw [leafEntry_eq]; omega

theorem present_leafEntry (paddr flags : Nat) :
    present (leafEntry paddr flags) = true ↔ flags % 2 = 1 := by
  rw [leafEntry_eq, present_iff]; omega

theorem entryFrame_leafEntry {paddr : Nat} (flags : Nat) (h : paddr % 4096 = 0)
    (hlt : paddr < 2 ^ 52) :
    entryFrame (leafEntry paddr flags) = paddr ∧ leafEntry paddr flags % 8 = flags % 8 := by
  rw [leafEntry_eq, entryFrame_eq]; omega

/-- The entry `map` leaves for the walk. -/
def mappedLeaf (paddr flags : Nat) : Option Nat :=
  if flags % 2 = 1 then some (leafEntry paddr flags) else none

theorem map_safe (H : Tables dirs s) (hd : d ∈ dirs) (v paddr flags : Nat) :
    Prog.Safe C (NoRoom s.placement (missingTables s.ram d v)) (Paging.map d v paddr flags) s
      fun r s' => r = 0 ∧ Tables dirs s' ∧ TableStep s s' ∧
        SetLeaf dirs d v (mappedLeaf paddr flags) s s' ∧
        s'.placement = afterTables s.placement (missingTables s.ram d v) := by
  rw [Paging.map]
  refine Prog.Safe.bind (getPage_safe H hd v flags) ?_
  rintro _ s1 - ⟨⟨t, rfl, ht⟩, hg⟩
  have hF := hg.tables.forest
  have hwin := hF.window
  have hT := hF.table d hd _ (validPath_pathOf v) t ht
  have hi := pteIndex_lt v
  have hlt := leafEntry_lt paddr flags
  rw [if_neg (by rw [kvirtualAddress_eq]; omega), slot_eq (by omega) hi]
  refine Prog.Safe.bind_run (run_storeDirect (by omega) s1) ?_
  refine Prog.Safe.pure ⟨rfl, ⟨hF.leaf hd ht hlt, hg.tables.base, hg.tables.cr3⟩, ?_, ?_,
    hg.placement⟩
  · refine hg.step.trans ⟨rfl, fun a ha => ?_, Nat.le_refl _, List.suffix_rfl, .inl rfl,
      fun _ hr => .inl hr⟩
    simp only at ha ⊢
    exact store_of_not_mem (by omega)
  · intro d' hd' v'
    have := hF.walk_leaf hd ht hlt hd' v'
    simp only [present_leafEntry] at this
    rw [← hg.walk d' hd' v']
    exact this

/-- `unmap` clears the permission bits of the leaf entry, and flushes, when there is one. -/
theorem unmapFlush_run (H : Tables dirs s) (hd : d ∈ dirs) (v : Nat) :
    ∃ s', (Paging.unmapFlush d v).run s = (.ok ((walk s.ram d v).map fun _ => 0), s') ∧
      s'.placement = s.placement ∧ s'.reserved = s.reserved ∧ Tables dirs s' ∧ TableStep s s' ∧
      SetLeaf dirs d v none s s' := by
  have hwin := H.forest.window
  have hgb := directMapSize_eq
  have hv3 := validPath_pathOf v
  have hv2 := hv3.tail
  have hv1 := hv2.tail
  -- one level of the descent: the entry, and where it leads when it is present
  have hlevel : ∀ (p : List Nat) (t i : Nat), ValidPath (i :: p) → tableAt s.ram d p = some t →
      (loadDirect (slot (kvirtualAddress + t) i)).run s = (.ok (tableEntry s.ram t i), s) ∧
      (present (tableEntry s.ram t i) = false → tableAt s.ram d (i :: p) = none) ∧
      (present (tableEntry s.ram t i) = true → ∃ t', tableAt s.ram d (i :: p) = some t' ∧
        address (tableEntry s.ram t i) = kvirtualAddress + t') := by
    intro p t i hp ht
    have hi := hp.2 i (by simp)
    have hT := H.forest.table d hd p hp.tail t ht
    have hchild : tableAt s.ram d (i :: p) = childTable s.ram t i := by
      rw [tableAt_cons, ht, Option.bind_some]
    refine ⟨?_, fun h => by rw [hchild, childTable_of_absent h], fun h => ?_⟩
    · rw [slot_eq (by omega) hi]
      exact run_loadDirect (by omega) s
    · have hsome : tableAt s.ram d (i :: p) = some (entryFrame (tableEntry s.ram t i)) := by
        rw [hchild, childTable, if_pos h]
      have hT' := H.forest.table d hd _ hp _ hsome
      exact ⟨_, hsome, address_eq (H.forest.small d hd p hp.tail
        (by have := hp.1; rw [List.length_cons] at this; omega) t ht i hi h) (by omega)⟩
  -- when a table is missing there is no walk to end
  have habsent : tableAt s.ram d (pathOf v) = none → SetLeaf dirs d v none s s := by
    intro hnone d' hd' v'
    split
    · next h =>
      obtain ⟨h1, -⟩ := same_page_iff.mpr h.1
      rw [walk_eq, H.forest.entryFrame_dir hd', h1]
      have : tableAt s.ram d' (pathOf v) = none := by
        rcases h.2 with rfl | h511
        · exact hnone
        · rw [H.forest.shared hd' hd (by rw [getLast?_pathOf, h511]), hnone]
      rw [this, Option.bind_none]
    · rfl
  have hwalk := walk_eq s.ram d v
  rw [H.forest.entryFrame_dir hd] at hwalk
  have hstop : tableAt s.ram d (pathOf v) = none →
      ∃ s', (pure none : Kernel (Option Nat)).run s =
        (.ok ((walk s.ram d v).map fun _ => 0), s') ∧ s'.placement = s.placement ∧
        s'.reserved = s.reserved ∧ Tables dirs s' ∧ TableStep s s' ∧ SetLeaf dirs d v none s s' :=
    fun hnone => ⟨s, by rw [hwalk, hnone]; rfl, rfl, rfl, H, TableStep.refl s, habsent hnone⟩
  have haddr : address d = kvirtualAddress + d := by
    have h1 := H.forest.entryFrame_dir hd
    have h2 := H.forest.dir hd
    rw [address_eq (by omega) (by omega), h1]
  obtain ⟨hrun1, hno1, hyes1⟩ := hlevel [] d (pml4Index v) hv1 rfl
  rw [Paging.unmapFlush, haddr, Prog.run_bind_ok hrun1]
  rcases hp1 : present (tableEntry s.ram d (pml4Index v))
  · rw [if_pos (by rfl)]
    refine hstop ?_
    rw [pathOf, tableAt_cons, tableAt_cons, hno1 hp1]
    rfl
  rw [if_neg (by simp)]
  obtain ⟨t1, ht1, ha1⟩ := hyes1 hp1
  obtain ⟨hrun2, hno2, hyes2⟩ := hlevel _ t1 (pdptIndex v) hv2 ht1
  rw [ha1, Prog.run_bind_ok hrun2]
  rcases hp2 : present (tableEntry s.ram t1 (pdptIndex v))
  · rw [if_pos (by rfl)]
    refine hstop ?_
    rw [pathOf, tableAt_cons, hno2 hp2]
    rfl
  rw [if_neg (by simp)]
  obtain ⟨t2, ht2, ha2⟩ := hyes2 hp2
  obtain ⟨hrun3, hno3, hyes3⟩ := hlevel _ t2 (pdeIndex v) hv3 ht2
  rw [ha2, Prog.run_bind_ok hrun3]
  rcases hp3 : present (tableEntry s.ram t2 (pdeIndex v))
  · rw [if_pos (by rfl)]
    exact hstop (hno3 hp3)
  rw [if_neg (by simp)]
  obtain ⟨t3, ht3, ha3⟩ := hyes3 hp3
  have hT3 := H.forest.table d hd _ hv3 t3 ht3
  have hi := pteIndex_lt v
  rw [ha3, slot_eq (by omega) hi, Prog.run_bind_ok (run_loadDirect (by omega) s)]
  rw [show load s.ram 8 (t3 + 8 * pteIndex v) = tableEntry s.ram t3 (pteIndex v) from rfl]
  have hlt : tableEntry s.ram t3 (pteIndex v) < 2 ^ 64 := load_lt
  have hleaf : tableAt s.ram d (pathOf v) = some t3 := ht3
  rcases hp4 : present (tableEntry s.ram t3 (pteIndex v))
  · rw [if_pos (by rfl)]
    refine ⟨s, by rw [hwalk, hleaf, Option.bind_some, hp4]; rfl, rfl, rfl, H, TableStep.refl s,
      fun d' hd' v' => ?_⟩
    split
    · next h =>
      obtain ⟨h1, h2⟩ := same_page_iff.mpr h.1
      rw [walk_eq, H.forest.entryFrame_dir hd', h1, h2]
      have : tableAt s.ram d' (pathOf v) = some t3 := by
        rcases h.2 with rfl | h511
        · exact ht3
        · rw [H.forest.shared hd' hd (by rw [getLast?_pathOf, h511])]; exact ht3
      rw [this, Option.bind_some, hp4]
      rfl
    · rfl
  rw [if_neg (by simp), Prog.run_bind_ok (run_storeDirect (by omega) s), and_page_mask _ (by decide)]
  have habs : present (tableEntry s.ram t3 (pteIndex v) % 2 ^ 64 / 4096 * 4096) = false := by
    rw [← Bool.not_eq_true, present_iff]; omega
  rw [hwalk, hleaf, Option.bind_some, if_pos hp4]
  refine ⟨_, rfl, rfl, rfl, ⟨H.forest.leaf hd ht3 (by omega), H.base, H.cr3⟩,
    ⟨rfl, fun a ha => ?_, Nat.le_refl _, List.suffix_rfl, .inl rfl, fun _ hr => .inl hr⟩,
    fun d' hd' v' => ?_⟩
  · exact store_of_not_mem (by simp only at ha; omega)
  · have := H.forest.walk_leaf hd ht3
      (e := tableEntry s.ram t3 (pteIndex v) % 2 ^ 64 / 4096 * 4096) (by omega) hd' v'
    rw [habs] at this
    exact this

/-- The flush aside, `unmapFlush` is `unmap`. -/
theorem unmap_eq (d v : Nat) :
    Paging.unmap d v = Paging.unmapFlush d v >>= fun _ => pure () := by
  simp only [Paging.unmap, Paging.unmapFlush, bind_assoc, Prog.ite_bind, pure_bind,
    bind_pure_unit]

theorem unmap_run (H : Tables dirs s) (hd : d ∈ dirs) (v : Nat) :
    ∃ s', (Paging.unmap d v).run s = (.ok (), s') ∧ s'.placement = s.placement ∧
      s'.reserved = s.reserved ∧ Tables dirs s' ∧ TableStep s s' ∧ SetLeaf dirs d v none s s' := by
  obtain ⟨s', hrun, h⟩ := unmapFlush_run H hd v
  exact ⟨s', by rw [unmap_eq, Prog.run_bind_ok hrun]; rfl, h⟩

/-! ### create_page_directory -/

/-- A new directory has the shared tables of the current one and maps nothing else. -/
theorem createPageDirectory_safe (H : Tables dirs s) :
    Prog.Safe C (NoRoom s.placement 1) createPageDirectory s fun d s' =>
      d ≠ 0 ∧ d ∉ dirs ∧ Tables (d :: dirs) s' ∧ TableStep s s' ∧
      (∀ d' ∈ dirs, ∀ v, walk s'.ram d' v = walk s.ram d' v) ∧
      (∀ v, walk s'.ram d v = if pml4Index v = 511 then walk s.ram s.cr3 v else none) ∧
      s'.placement = afterTables s.placement 1 := by
  have hwin := H.forest.window
  have hgb := directMapSize_eq
  have hcr3 := H.forest.dir H.cr3
  have hidx : pml4Index kvirtualAddress = 511 := by decide
  obtain ⟨t₀, h1, h2, h3, h4, hrun⟩ :=
    run_placementKallocPaddr 4096 (Nat.le_refl _) H.base H.bound
  rw [createPageDirectory, sizeofTable]
  simp only [hidx]
  refine Prog.Safe.bind_run hrun ?_
  by_cases hfit : t₀ + 4096 ≤ directMapSize
  swap
  · refine Prog.Safe.bind (Q := fun _ _ => False) ?_ fun _ _ _ h => h.elim
    rw [zeroDirect, window_eq_none (by omega)]
    exact Prog.Safe.throw ⟨trivial, by rw [afterTables, if_neg (by decide), h1]; omega⟩
  obtain ⟨s1, hs1⟩ : ∃ s1 : Machine, s1 = { s with
      ram := fill s.ram t₀ 4096 0
      placement := kvirtualAddress + t₀ + 4096
      reserved := ⟨kvirtualAddress + t₀, 4096⟩ :: s.reserved } := ⟨_, rfl⟩
  have hzero : (zeroDirect (kvirtualAddress + t₀) 4096).run { s with
      placement := kvirtualAddress + t₀ + 4096
      reserved := ⟨kvirtualAddress + t₀, 4096⟩ :: s.reserved } = (.ok (), s1) := by
    rw [hs1]; exact run_zeroDirect hfit _
  rw [Prog.Safe.bind_run_iff hzero, Prog.Safe.bind_run_iff (run_getCurrentPage s1)]
  have hc : s1.cr3 = s.cr3 := by rw [hs1]
  have haddr : address s1.cr3 = kvirtualAddress + s.cr3 := by
    have h5 := H.forest.entryFrame_dir H.cr3
    rw [hc, address_eq (by omega) (by omega), h5]
  have hent : load s1.ram 8 (s.cr3 + 8 * 511) = tableEntry s.ram s.cr3 511 := by
    rw [hs1]; exact load_fill_disjoint (by omega)
  rw [haddr, slot_eq (by omega) (by decide)]
  have hload := run_loadDirect (p := s.cr3 + 8 * 511) (by omega) s1
  rw [Prog.Safe.bind_run_iff hload, hent, H.forest.present _ H.cr3, if_neg (by simp),
    slot_eq hfit (by decide)]
  have hstore := run_storeDirect (p := t₀ + 8 * 511) (e := tableEntry s.ram s.cr3 511)
    (by omega) s1
  rw [Prog.Safe.bind_run_iff hstore]
  refine Prog.Safe.pure ?_
  have hram : store s1.ram 8 (t₀ + 8 * 511) (tableEntry s.ram s.cr3 511) =
      Forest.newDir s.ram t₀ (tableEntry s.ram s.cr3 511) := by rw [hs1, Forest.newDir]
  have hpl : s1.placement = kvirtualAddress + t₀ + 4096 := by rw [hs1]
  have htop : s1.placement - kvirtualAddress = t₀ + 4096 := by omega
  have hbase := H.base
  simp only [hram]
  refine ⟨by omega, fun hm => ?_, ⟨?_, by simp only; omega, ?_⟩,
    ⟨?_, fun a ha => ?_, ?_, ?_, ?_, ?_⟩, fun d' hd' v => ?_, fun v => ?_, ?_⟩
  · have := H.forest.dir hm
    omega
  · simp only [htop]
    exact H.forest.newDir_forest H.cr3 h2 h3 hfit
  · simp only [hc]
    exact List.mem_cons_of_mem _ H.cr3
  · rw [hs1]
  · simp only [htop] at ha
    exact Forest.newDir_of_not_mem (by omega)
  · simp only; omega
  · rw [hs1]
    exact List.suffix_cons ..
  · rw [hs1]
    exact .inr ⟨_, List.mem_cons_self, rfl⟩
  · rw [hs1]
    rintro r hr
    rcases List.mem_cons.mp hr with rfl | hr
    · exact .inr ⟨by simp only; omega, Nat.le_refl _⟩
    · exact .inl hr
  · exact H.forest.walk_congr (fun a ha => Forest.newDir_of_not_mem (by omega)) hd' v
  · exact H.forest.walk_newDir H.cr3 h2 h3 hfit v
  · simp only [hpl, afterTables, h1]
    rfl

theorem createUserPageDirectory_run (s : Machine) :
    createUserPageDirectory.run s = createPageDirectory.run s := by
  rcases h : createPageDirectory.run s with ⟨a | d, s'⟩
  · rw [createUserPageDirectory, Prog.run_bind_error h]
  · rw [createUserPageDirectory, Prog.run_bind_ok h]
    split
    · next hd => rw [hd, Prog.run_pure]
    · rw [Prog.run_pure]

end
end Coronel
