import Coronel.Kernel.Boot
import Coronel.Verify.Access

/-!
# The kernel's direct map

From the tables of the image to the window of one gigabyte. The page tables are a sequence of
entries that the boot code fills from the front, so each stage of it is given by two numbers: how
many page tables are linked, and how many pages are filled in. `map_kernel_memory` writes through
the first four page tables, which none of its stores meets.
-/

namespace Coronel

open Theory Theory.Bytes

namespace Boot

/-- The tables of the image lie in memory at `pml4`, page aligned and below 8 MB. -/
structure Loaded (ram : Mem) (pml4 : Nat) : Prop where
  aligned : pml4 % 4096 = 0
  below : pml4 + 515 * 4096 ≤ mb 8
  entry : ∀ i < 515 * 512, load ram 8 (pml4 + 8 * i) = imageEntry pml4 i

/-- Entry `i` when `n` page tables are linked and `m` pages are filled in. -/
def stageEntry (pml4 n m i : Nat) : Nat :=
  if i = 511 then pml4 + 4096 + 0x3
  else if i = 512 + 510 then pml4 + 2 * 4096 + 0x3
  else if 1024 ≤ i ∧ i < 1024 + n then pml4 + 3 * 4096 + 4096 * (i - 1024) + 0x3
  else if 1536 ≤ i ∧ i < 1536 + m then 4096 * (i - 1536) + 0x7
  else 0

/-- The tables with `n` page tables linked and `m` pages filled in. -/
structure Stage (n m : Nat) (ram : Mem) (pml4 : Nat) : Prop where
  aligned : pml4 % 4096 = 0
  below : pml4 + 515 * 4096 ≤ mb 8
  entry : ∀ i < 515 * 512, load ram 8 (pml4 + 8 * i) = stageEntry pml4 n m i

/-- The entries that the translations of the first 8 MB of the window use. -/
def Skeleton (i : Nat) : Prop :=
  i = 511 ∨ i = 512 + 510 ∨ (1024 ≤ i ∧ i < 1024 + 4) ∨ (1536 ≤ i ∧ i < 1536 + 2048)

/-- The first 8 MB of the window are mapped, whatever stands in the other entries. -/
structure Low (ram : Mem) (pml4 : Nat) : Prop where
  aligned : pml4 % 4096 = 0
  below : pml4 + 515 * 4096 ≤ mb 8
  entry : ∀ i, Skeleton i → load ram 8 (pml4 + 8 * i) = stageEntry pml4 4 2048 i

section
variable {ram ram' : Mem} {pml4 n m i j k x v a e : Nat} {s : Machine}

/-! ### Walks through the tables -/

/-- The four entries on the way to `KVIRTUAL_ADDRESS + x`. -/
theorem access_window (ha : pml4 % 4096 = 0) (hb : pml4 + 515 * 4096 ≤ mb 8)
    (hx : x < directMapSize) (h1 : load ram 8 (pml4 + 8 * 511) = pml4 + 4096 + 0x3)
    (h2 : load ram 8 (pml4 + 8 * (512 + 510)) = pml4 + 2 * 4096 + 0x3)
    (h3 : load ram 8 (pml4 + 8 * (1024 + x / 2 ^ 21)) =
      pml4 + 3 * 4096 + 4096 * (x / 2 ^ 21) + 0x3)
    (h4 : load ram 8 (pml4 + 8 * (1536 + x / 4096)) = 4096 * (x / 4096) + 0x7) :
    access 0x02 ram pml4 (kvirtualAddress + x) = some (4096 * (x / 4096) + 0x7) := by
  have hkv := kvirtualAddress_eq
  simp only [mb] at hb
  rw [directMapSize_eq] at hx
  have i1 : pml4Index (kvirtualAddress + x) = 511 := by rw [pml4Index_eq]; omega
  have i2 : pdptIndex (kvirtualAddress + x) = 510 := by rw [pdptIndex_eq]; omega
  have i3 : pdeIndex (kvirtualAddress + x) = x / 2 ^ 21 := by rw [pdeIndex_eq]; omega
  have i4 : pteIndex (kvirtualAddress + x) = x / 4096 % 512 := by rw [pteIndex_eq]; omega
  -- one step down: a linked entry is present and writable, and leads to its table
  have hstep : ∀ {t i t'}, tableEntry ram t i = t' + 0x3 → t' % 4096 = 0 → t' < 2 ^ 52 →
      childWith 0x02 ram t i = some t' := by
    intro t i t' he ht hlt
    obtain ⟨h5, h6, -⟩ := entry_with_flags (f := 0x3) ht hlt (by decide)
    rw [childWith_eq_some, childTable_eq_some, he, h5]
    exact ⟨⟨h6.mpr rfl, rfl⟩, by rw [permits_add ht (by decide) (by decide)]; decide⟩
  have hdir : entryFrame pml4 = pml4 := entryFrame_of_aligned ha (by omega)
  have t1 : childWith 0x02 ram pml4 511 = some (pml4 + 4096) := hstep h1 (by omega) (by omega)
  have t2 : childWith 0x02 ram (pml4 + 4096) 510 = some (pml4 + 2 * 4096) := by
    refine hstep ?_ (by omega) (by omega)
    rw [tableEntry, show pml4 + 4096 + 8 * 510 = pml4 + 8 * (512 + 510) by omega, h2]
  have t3 : childWith 0x02 ram (pml4 + 2 * 4096) (x / 2 ^ 21) =
      some (pml4 + 3 * 4096 + 4096 * (x / 2 ^ 21)) := by
    refine hstep ?_ (by omega) (by omega)
    rw [tableEntry, show pml4 + 2 * 4096 + 8 * (x / 2 ^ 21) = pml4 + 8 * (1024 + x / 2 ^ 21) by
      omega, h3]
  have t4 : tableEntry ram (pml4 + 3 * 4096 + 4096 * (x / 2 ^ 21)) (x / 4096 % 512) =
      4096 * (x / 4096) + 0x7 := by
    rw [tableEntry, ← h4]
    exact congrArg (load ram 8) (by omega)
  have hp : present (4096 * (x / 4096) + 0x7) = true := by rw [present_iff]; omega
  have hw : permits 0x02 (4096 * (x / 4096) + 0x7) = true := by
    rw [permits_add (by omega) (by decide) (by decide)]
    decide
  rw [access, hdir, i1, i2, i3, i4, t1]
  simp only [Option.bind_eq_bind, Option.bind_some, t2, t3, t4]
  rw [if_pos (by rw [hp, hw]; rfl)]

theorem walk_of_access (hd : entryFrame pml4 = pml4) (h : access 0x02 ram pml4 v = some e) :
    walk ram pml4 v = some e := ((access_eq_some hd).mp h).1

theorem Low.access (H : Low ram pml4) (hx : x < mb 8) :
    access 0x02 ram pml4 (kvirtualAddress + x) = some (4096 * (x / 4096) + 0x7) := by
  simp only [mb] at hx
  refine access_window H.aligned H.below (by rw [directMapSize_eq]; omega) ?_ ?_ ?_ ?_
  · rw [H.entry 511 (.inl rfl), stageEntry, if_pos rfl]
  · rw [H.entry _ (.inr (.inl rfl)), stageEntry, if_neg (by decide), if_pos rfl]
  · rw [H.entry _ (.inr (.inr (.inl (by omega)))), stageEntry, if_neg (by omega),
      if_neg (by omega), if_pos (by omega), Nat.add_sub_cancel_left]
  · rw [H.entry _ (.inr (.inr (.inr (by omega)))), stageEntry, if_neg (by omega),
      if_neg (by omega), if_neg (by omega), if_pos (by omega), Nat.add_sub_cancel_left]

theorem Low.translate (H : Low ram pml4) (hx : x < mb 8) :
    translate ram pml4 (kvirtualAddress + x) = some x := by
  have hd : entryFrame pml4 = pml4 := by
    have := H.below
    simp only [mb] at this
    exact entryFrame_of_aligned H.aligned (by omega)
  have hkv := kvirtualAddress_eq
  simp only [mb] at hx
  rw [Coronel.translate, walk_of_access hd (H.access hx), Option.map_some, entryFrame_eq,
    Option.some.injEq]
  omega

/-! ### Memory through the first 8 MB -/

theorem add64_window (hx : x < mb 8) : add64 (kvirtualAddress + x) 1 = kvirtualAddress + (x + 1) := by
  have hkv := kvirtualAddress_eq
  simp only [mb] at hx
  rw [add64_eq (by omega), Nat.add_assoc]

theorem load8_low (H : Low s.ram s.cr3) (hx : x < mb 8) :
    (load8 (kvirtualAddress + x)).run s = (.ok (s.ram x), s) := by
  rw [load8, Prog.run_bind_ok (Prog.run_get s)]
  simp only [H.translate hx]
  rfl

theorem loadN_low (H : Low s.ram s.cr3) (hx : x + n ≤ mb 8) :
    (loadN n (kvirtualAddress + x)).run s = (.ok (load s.ram n x), s) := by
  induction n generalizing x with
  | zero => rfl
  | succ n ih =>
    rw [loadN, Prog.run_bind_ok (load8_low H (by omega)), add64_window (by omega),
      Prog.run_bind_ok (ih (by omega)), Prog.run_pure, load]

/-- A byte outside the skeleton can change. -/
theorem Low.update {y : UInt8} (H : Low ram pml4)
    (hx : ∀ i, Skeleton i → x < pml4 + 8 * i ∨ pml4 + 8 * i + 8 ≤ x) :
    Low (Function.update ram x y) pml4 :=
  ⟨H.aligned, H.below, fun i hi => by rw [load_update_disjoint (hx i hi), H.entry i hi]⟩

theorem storeN_low (H : Low s.ram s.cr3) (hx : x + n ≤ mb 8)
    (hfree : ∀ i, Skeleton i → x + n ≤ s.cr3 + 8 * i ∨ s.cr3 + 8 * i + 8 ≤ x) (y : Nat) :
    (storeN n (kvirtualAddress + x) y).run s = (.ok (), { s with ram := store s.ram n x y }) := by
  induction n generalizing x y s with
  | zero => rfl
  | succ n ih =>
    have hrun : (store8 (kvirtualAddress + x) (UInt8.ofNat y)).run s =
        (.ok (), { s with ram := Function.update s.ram x (UInt8.ofNat y) }) := by
      rw [store8, Prog.run_bind_ok (Prog.run_get s)]
      simp only [H.translate (show x < mb 8 by omega)]
      rfl
    have hL : Low (Function.update s.ram x (UInt8.ofNat y)) s.cr3 :=
      H.update fun i hi => by have := hfree i hi; omega
    rw [storeN, Prog.run_bind_ok hrun, add64_window (by omega)]
    exact ih (s := { s with ram := Function.update s.ram x (UInt8.ofNat y) }) hL (by omega)
      (fun i hi => by have := hfree i hi; simp only; omega) (y / 256)

/-! ### Entries -/

theorem slot_table (hb : pml4 + 515 * 4096 ≤ mb 8) (hk : k < 515) (hi : i < 512) :
    Paging.slot (kvirtualAddress + (pml4 + 4096 * k)) i =
      kvirtualAddress + (pml4 + 8 * (512 * k + i)) := by
  have hgb := directMapSize_eq
  simp only [mb] at hb
  rw [slot_eq (by omega) hi]
  omega

theorem loadEntry_low (H : Low s.ram s.cr3) (hk : k < 515) (hi : i < 512) :
    (loadEntry (kvirtualAddress + (s.cr3 + 4096 * k)) i).run s =
      (.ok (load s.ram 8 (s.cr3 + 8 * (512 * k + i))), s) := by
  have hb := H.below
  rw [loadEntry, slot_table hb hk hi]
  exact loadN_low H (by omega)

theorem storeEntry_low (H : Low s.ram s.cr3) (hk : k < 515) (hi : i < 512)
    (hfree : ¬Skeleton (512 * k + i)) (e : Nat) :
    (storeEntry (kvirtualAddress + (s.cr3 + 4096 * k)) i e).run s =
      (.ok (), { s with ram := store s.ram 8 (s.cr3 + 8 * (512 * k + i)) e }) := by
  have hb := H.below
  rw [storeEntry, slot_table hb hk hi]
  refine storeN_low H (by omega) (fun j hj => ?_) e
  have : j ≠ 512 * k + i := fun h => hfree (h ▸ hj)
  omega

/-- The table behind a linked entry, in the window. -/
theorem address_table (ha : pml4 % 4096 = 0) (hb : pml4 + 515 * 4096 ≤ mb 8) (hk : k < 515) :
    Paging.address (pml4 + 4096 * k + 0x3) = kvirtualAddress + (pml4 + 4096 * k) := by
  have hgb := directMapSize_eq
  simp only [mb] at hb
  obtain ⟨h1, -, h2⟩ := entry_with_flags (a := pml4 + 4096 * k) (f := 0x3) (by omega) (by omega)
    (by decide)
  rw [Paging.address_eq h2 (by omega), h1]

theorem load_store_entry (he : e < 2 ^ 64) : load (store ram 8 (pml4 + 8 * i) e) 8 (pml4 + 8 * j) =
    if j = i then e else load ram 8 (pml4 + 8 * j) := by
  split
  · next h => rw [h, load_store_of_lt (by omega)]
  · exact load_store_disjoint (by omega)

/-! ### Stages -/

theorem stageEntry_lt (hb : pml4 + 515 * 4096 ≤ mb 8) (hn : n ≤ 512) (hm : m ≤ 512 * 512) :
    stageEntry pml4 n m i < 2 ^ 32 := by
  simp only [mb] at hb
  unfold stageEntry
  split
  · omega
  split
  · omega
  split
  · omega
  split <;> omega

theorem stageEntry_pml4 : stageEntry pml4 n m 511 = pml4 + 4096 + 0x3 := rfl

theorem stageEntry_pdpt : stageEntry pml4 n m (512 + 510) = pml4 + 2 * 4096 + 0x3 := rfl

theorem stageEntry_table (h : k < n) :
    stageEntry pml4 n m (1024 + k) = pml4 + 3 * 4096 + 4096 * k + 0x3 := by
  rw [stageEntry, if_neg (by omega), if_neg (by omega), if_pos (by omega), Nat.add_sub_cancel_left]

theorem stageEntry_page (hn : n ≤ 512) (h : k < m) :
    stageEntry pml4 n m (1536 + k) = 4096 * k + 0x7 := by
  rw [stageEntry, if_neg (by omega), if_neg (by omega), if_neg (by omega), if_pos (by omega),
    Nat.add_sub_cancel_left]

theorem Stage.low (H : Stage n m ram pml4) (hn : 4 ≤ n) (hn' : n ≤ 512) (hm : 2048 ≤ m) :
    Low ram pml4 := by
  refine ⟨H.aligned, H.below, fun i hi => ?_⟩
  rw [H.entry i (by unfold Skeleton at hi; omega)]
  rcases hi with rfl | rfl | hi | hi
  · rfl
  · rfl
  · obtain ⟨k, rfl⟩ := Nat.exists_eq_add_of_le hi.1
    rw [stageEntry_table (by omega), stageEntry_table (by omega)]
  · obtain ⟨k, rfl⟩ := Nat.exists_eq_add_of_le hi.1
    rw [stageEntry_page hn' (by omega), stageEntry_page (by decide) (by omega)]

/-- The next page table is linked. -/
theorem Stage.link (H : Stage n m ram pml4) (hn : n < 512) :
    Stage (n + 1) m (store ram 8 (pml4 + 8 * (1024 + n))
      (pml4 + 3 * 4096 + 4096 * n + 0x3)) pml4 := by
  refine ⟨H.aligned, H.below, fun i hi => ?_⟩
  have hb := H.below
  simp only [mb] at hb
  rw [load_store_entry (by omega), H.entry i hi]
  split
  · next h => rw [h, stageEntry_table (by omega)]
  · next h =>
    unfold stageEntry
    refine if_congr Iff.rfl rfl (if_congr Iff.rfl rfl (if_congr (by omega) rfl rfl))

/-- The next page is filled in. -/
theorem Stage.page (H : Stage n m ram pml4) (hn : n ≤ 512) (hm : m < 512 * 512) :
    Stage n (m + 1) (store ram 8 (pml4 + 8 * (1536 + m)) (4096 * m + 0x7)) pml4 := by
  refine ⟨H.aligned, H.below, fun i hi => ?_⟩
  rw [load_store_entry (by omega), H.entry i hi]
  split
  · next h => rw [h, stageEntry_page hn (by omega)]
  · next h =>
    unfold stageEntry
    refine if_congr Iff.rfl rfl (if_congr Iff.rfl rfl (if_congr Iff.rfl rfl
      (if_congr (by omega) rfl rfl)))

/-! ### map_kernel_memory -/

/-- Memory outside the tables is as before. -/
def Outside (pml4 : Nat) (ram ram' : Mem) : Prop :=
  ∀ a, a < pml4 ∨ pml4 + 515 * 4096 ≤ a → ram' a = ram a

theorem Outside.store (hi : i < 515 * 512) :
    Outside pml4 ram (store ram 8 (pml4 + 8 * i) e) :=
  fun _ ha => store_of_not_mem (by omega)

theorem Outside.trans {ram'' : Mem} (h : Outside pml4 ram ram') (h' : Outside pml4 ram' ram'') :
    Outside pml4 ram ram'' := fun a ha => (h' a ha).trans (h a ha)

/-- The inner loop fills the rest of a page table: the running address is the entry before the next
one. -/
theorem fillPages_run (H : Stage n m s.ram s.cr3) (hk : 4 ≤ k) (hk' : k < 512) (hn : 4 ≤ n)
    (hn' : n ≤ 512) (hm : m = 512 * k + j) (hj : j + i = 512) (hv : v + 4096 = 4096 * m + 0x7) :
    ∃ ram', (fillPages (kvirtualAddress + (s.cr3 + 4096 * (3 + k))) i j v).run s =
        (.ok (v + 4096 * i), { s with ram := ram' }) ∧
      Stage n (m + i) ram' s.cr3 ∧ Outside s.cr3 s.ram ram' := by
  induction i generalizing s m j v with
  | zero => exact ⟨s.ram, rfl, H, fun _ _ => rfl⟩
  | succ i ih =>
    have hindex : 512 * (3 + k) + j = 1536 + m := by omega
    have hnext : add64 v 4096 = 4096 * m + 0x7 := by rw [add64_eq (by omega)]; omega
    have hs := storeEntry_low (H.low hn hn' (by omega)) (k := 3 + k) (i := j) (by omega) (by omega)
      (by rw [hindex]; unfold Skeleton; omega) (4096 * m + 0x7)
    rw [hindex] at hs
    have H1 := H.page hn' (by omega)
    obtain ⟨s1, hs1⟩ : ∃ s1 : Machine, s1 = { s with
      ram := store s.ram 8 (s.cr3 + 8 * (1536 + m)) (4096 * m + 0x7) } := ⟨_, rfl⟩
    rw [← hs1] at hs
    have hc : s1.cr3 = s.cr3 := by rw [hs1]
    have H1' : Stage n (m + 1) s1.ram s1.cr3 := by rw [hs1]; exact H1
    have hl := loadEntry_low (H1'.low hn hn' (by omega)) (k := 3 + k) (i := j) (by omega) (by omega)
    rw [hindex, hc] at hl
    have hval : load s1.ram 8 (s.cr3 + 8 * (1536 + m)) = 4096 * m + 0x7 := by
      rw [hs1]
      exact load_store_of_lt (by omega)
    obtain ⟨ram', hrun, H2, hout⟩ := ih (s := s1) (m := m + 1) (j := j + 1) (v := 4096 * m + 0x7)
      H1' (by omega) (by omega) (by omega)
    rw [hc] at hrun H2 hout
    refine ⟨ram', ?_, by rwa [show m + (i + 1) = m + 1 + i by omega], ?_⟩
    · have hsum : v + 4096 * (i + 1) = 4096 * m + 0x7 + 4096 * i := by rw [← hv]; ring
      rw [fillPages, hnext, Prog.run_bind_ok hs, Prog.run_bind_ok hl, hval, hrun, hs1, hsum]
    · refine Outside.trans ?_ hout
      rw [hs1]
      exact Outside.store (by omega)

/-- The outer loop links and fills the rest of the page tables. -/
theorem linkTables_run (H : Stage k (512 * k) s.ram s.cr3) (hk : 4 ≤ k) (hi : k + i = 512)
    (hv : v + 4096 = 4096 * (512 * k) + 0x7) :
    ∃ ram', (linkTables (kvirtualAddress + (s.cr3 + 4096 * 2)) i k v).run s =
        (.ok (), { s with ram := ram' }) ∧
      Stage 512 (512 * 512) ram' s.cr3 ∧ Outside s.cr3 s.ram ram' := by
  induction i generalizing s k v with
  | zero =>
    obtain rfl : k = 512 := by omega
    exact ⟨s.ram, rfl, H, fun _ _ => rfl⟩
  | succ i ih =>
    have hb := H.below
    simp only [mb] at hb
    have hlow := H.low hk (by omega) (by omega)
    -- the entry before, and the table it leads to
    have hprev := loadEntry_low hlow (k := 2) (i := k - 1) (by decide) (by omega)
    rw [H.entry _ (by omega), stageEntry, if_neg (by omega), if_neg (by omega), if_pos (by omega)]
      at hprev
    have hnext : add64 (s.cr3 + 3 * 4096 + 4096 * (512 * 2 + (k - 1) - 1024) + 3) 4096 =
        s.cr3 + 3 * 4096 + 4096 * k + 3 := by rw [add64_eq (by omega)]; omega
    have hs := storeEntry_low hlow (k := 2) (i := k) (by decide) (by omega)
      (by unfold Skeleton; omega) (s.cr3 + 3 * 4096 + 4096 * k + 3)
    have H1 := H.link (by omega)
    obtain ⟨s1, hs1⟩ : ∃ s1 : Machine, s1 = { s with
      ram := store s.ram 8 (s.cr3 + 8 * (1024 + k)) (s.cr3 + 3 * 4096 + 4096 * k + 3) } := ⟨_, rfl⟩
    rw [show 512 * 2 + k = 1024 + k by omega, ← hs1] at hs
    have hc : s1.cr3 = s.cr3 := by rw [hs1]
    have H1' : Stage (k + 1) (512 * k) s1.ram s1.cr3 := by rw [hs1]; exact H1
    have hl := loadEntry_low (H1'.low (by omega) (by omega) (by omega)) (k := 2) (i := k) (by decide)
      (by omega)
    have hval : load s1.ram 8 (s.cr3 + 8 * (1024 + k)) = s.cr3 + 4096 * (3 + k) + 3 := by
      rw [hs1, load_store_of_lt (by omega)]
      omega
    rw [hc, show 512 * 2 + k = 1024 + k by omega, hval] at hl
    obtain ⟨ram2, hfill, H2, hout2⟩ := fillPages_run (s := s1) (i := 512) (j := 0) (v := v) H1' hk
      (by omega) (by omega) (by omega) rfl rfl hv
    rw [hc] at hfill H2 hout2
    obtain ⟨ram3, hrun, H3, hout3⟩ := ih (s := { s1 with ram := ram2 }) (k := k + 1)
      (v := v + 4096 * 512) (by rwa [hc, show 512 * (k + 1) = 512 * k + 512 by omega]) (by omega)
      (by omega) (by omega)
    simp only [hc] at hrun H3 hout3
    refine ⟨ram3, ?_, H3, ?_⟩
    · rw [linkTables, Prog.run_bind_ok hprev, hnext, Prog.run_bind_ok hs, Prog.run_bind_ok hl,
        address_table H.aligned H.below (by omega), Prog.run_bind_ok hfill, hrun, hs1]
    · refine Outside.trans ?_ (hout2.trans hout3)
      rw [hs1]
      exact Outside.store (by omega)

/-- `map_kernel_memory`, on the tables as `_start64` leaves them. -/
theorem mapKernelMemory_run (H : Stage 4 2048 s.ram s.cr3) : ∃ ram',
    mapKernelMemory.run s = (.ok (), { s with ram := ram' }) ∧
      Stage 512 (512 * 512) ram' s.cr3 ∧ Outside s.cr3 s.ram ram' := by
  have ha := H.aligned
  have hb := H.below
  have hlow := H.low (Nat.le_refl _) (by decide) (Nat.le_refl _)
  -- an entry of the tables, through CR3
  have hentry : ∀ {k i e}, k < 515 → i < 512 → stageEntry s.cr3 4 2048 (512 * k + i) = e →
      (loadEntry (kvirtualAddress + (s.cr3 + 4096 * k)) i).run s = (.ok e, s) := by
    intro k i e hk hi he
    rw [loadEntry_low hlow hk hi, H.entry _ (by omega), he]
  have hdir : Paging.address s.cr3 = kvirtualAddress + (s.cr3 + 4096 * 0) := by
    have hgb := directMapSize_eq
    simp only [mb] at hb
    have hf : entryFrame s.cr3 = s.cr3 := entryFrame_of_aligned ha (by omega)
    rw [Paging.address_eq (by omega) (by omega), hf]
    rfl
  have h1 := hentry (k := 0) (i := 511) (e := s.cr3 + 4096 * 1 + 0x3) (by decide) (by decide)
    (stageEntry_pml4.trans (by omega))
  have h2 := hentry (k := 1) (i := 510) (e := s.cr3 + 4096 * 2 + 0x3) (by decide) (by decide)
    (stageEntry_pdpt.trans (by omega))
  have h3 := hentry (k := 2) (i := 3) (e := s.cr3 + 4096 * 6 + 0x3) (by decide) (by decide)
    ((stageEntry_table (k := 3) (by decide)).trans (by omega))
  have h4 := hentry (k := 6) (i := 511) (e := 4096 * 2047 + 0x7) (by decide) (by decide)
    (stageEntry_page (k := 2047) (by decide) (by decide))
  obtain ⟨ram', hrun, hst, hout⟩ := linkTables_run (i := 508) (v := 4096 * 2047 + 0x7) H
    (Nat.le_refl _) rfl rfl
  refine ⟨ram', ?_, hst, hout⟩
  unfold mapKernelMemory
  dsimp only
  rw [Prog.run_bind_ok (run_getCurrentPage s), hdir, Prog.run_bind_ok h1,
    address_table (k := 1) ha hb (by decide), Prog.run_bind_ok h2,
    address_table (k := 2) ha hb (by decide), Prog.run_bind_ok h3,
    address_table (k := 6) ha hb (by decide), Prog.run_bind_ok h4]
  exact hrun

/-! ### _start32 and _start64 -/

/-- Entry `i` of the image with `m` pages filled in. -/
def filledEntry (pml4 m i : Nat) : Nat :=
  if 1536 ≤ i ∧ i < 1536 + m then 4096 * (i - 1536) + 0x7 else imageEntry pml4 i

/-- The 32-bit store of `_start32` sets the whole entry, since the image has zeros there. -/
theorem load_store32 (h0 : load ram 8 a = 0) (he : e < 2 ^ 32) :
    load (store ram 4 a e) 8 a = e := by
  have hsplit : load ram 4 a + 256 ^ 4 * load ram 4 (a + 4) = 0 := by
    rw [← load_add]
    exact h0
  have hhigh : load (store ram 4 a e) 4 (a + 4) = 0 := by
    rw [load_store_disjoint (by omega)]
    omega
  rw [show 8 = 4 + 4 from rfl, load_add, load_store_of_lt (by omega), hhigh]
  omega

theorem fillEntries_load (h : ∀ i < 515 * 512, load ram 8 (pml4 + 8 * i) = filledEntry pml4 m i)
    (hm : m + n ≤ 2048) (hi : i < 515 * 512) :
    load (fillEntries ram n (pml4 + 8 * (1536 + m)) (4096 * m + 0x7)) 8 (pml4 + 8 * i) =
      filledEntry pml4 (m + n) i := by
  induction n generalizing ram m with
  | zero => exact h i hi
  | succ n ih =>
    have hzero : load ram 8 (pml4 + 8 * (1536 + m)) = 0 := by
      rw [h _ (by omega), filledEntry, if_neg (by omega), imageEntry, if_neg (by omega),
        if_neg (by omega), if_neg (by omega)]
    have hstep : ∀ j < 515 * 512,
        load (store ram 4 (pml4 + 8 * (1536 + m)) (4096 * m + 0x7)) 8 (pml4 + 8 * j) =
          filledEntry pml4 (m + 1) j := by
      intro j hj
      by_cases hjm : j = 1536 + m
      · rw [hjm, load_store32 hzero (by omega), filledEntry, if_pos (by omega),
          Nat.add_sub_cancel_left]
      · rw [load_store_disjoint (by omega), h j hj, filledEntry, filledEntry]
        exact if_congr (by omega) rfl rfl
    have := ih hstep (by omega)
    rw [fillEntries, show pml4 + 8 * (1536 + m) + 8 = pml4 + 8 * (1536 + (m + 1)) by omega,
      show 4096 * m + 0x7 + 4096 = 4096 * (m + 1) + 0x7 by omega, this]
    exact congrArg (filledEntry pml4 · i) (by omega)

/-- The assembly hands over four page tables that are linked and filled in. -/
theorem Loaded.stage (H : Loaded ram pml4) :
    Stage 4 2048 (start64 (start32 ram pml4) pml4) pml4 := by
  refine ⟨H.aligned, H.below, fun i hi => ?_⟩
  have hfill := fillEntries_load (n := 2048) (m := 0)
    (fun j hj => (H.entry j hj).trans (if_neg (by omega)).symm) (by decide) hi
  have h2 : load (start64 (start32 ram pml4) pml4) 8 (pml4 + 8 * i) = if i = 0 then 0 else
      load (store (start32 ram pml4) 8 (pml4 + 8 * 512) 0) 8 (pml4 + 8 * i) :=
    load_store_entry (i := 0) (by decide)
  have h1 : load (store (start32 ram pml4) 8 (pml4 + 8 * 512) 0) 8 (pml4 + 8 * i) =
      if i = 512 then 0 else load (start32 ram pml4) 8 (pml4 + 8 * i) := load_store_entry (by decide)
  have h0 : load (start32 ram pml4) 8 (pml4 + 8 * i) = filledEntry pml4 (0 + 2048) i := hfill
  rw [h2, h1, h0]
  unfold filledEntry stageEntry imageEntry
  split_ifs <;> omega

/-! ### The window -/

theorem entryFrame_pml4 (ha : pml4 % 4096 = 0) (hb : pml4 + 515 * 4096 ≤ mb 8) :
    entryFrame pml4 = pml4 := by
  simp only [mb] at hb
  exact entryFrame_of_aligned ha (by omega)

/-- What is filled in is mapped. -/
theorem Stage.access (H : Stage n m ram pml4) (hn : n ≤ 512) (hx : x < 4096 * m)
    (hm : m ≤ 512 * n) :
    access 0x02 ram pml4 (kvirtualAddress + x) = some (4096 * (x / 4096) + 0x7) := by
  refine access_window H.aligned H.below (by rw [directMapSize_eq]; omega) ?_ ?_ ?_ ?_
  · rw [H.entry _ (by decide), stageEntry_pml4]
  · rw [H.entry _ (by decide), stageEntry_pdpt]
  · rw [H.entry _ (by omega), stageEntry_table (by omega)]
  · rw [H.entry _ (by omega), stageEntry_page hn (by omega)]

/-- The walks in full: a page of the window is mapped when its page table is linked, and nothing
else is. -/
theorem Stage.walk_eq (H : Stage n (512 * n) ram pml4) (hn : n ≤ 512) (v : Nat) :
    walk ram pml4 v = if pml4Index v = 511 ∧ pdptIndex v = 510 ∧ pdeIndex v < n then
      some (4096 * (512 * pdeIndex v + pteIndex v) + 0x7) else none := by
  have hdir := entryFrame_pml4 H.aligned H.below
  have hkv := kvirtualAddress_eq
  have hpte := pteIndex_lt v
  split
  · next h =>
    obtain ⟨h1, h2, h3⟩ := h
    have hx : 4096 * (512 * pdeIndex v + pteIndex v) < 4096 * (512 * n) := by omega
    have hwalk := walk_of_access hdir (H.access hn hx (Nat.le_refl _))
    rw [Nat.mul_div_cancel_left _ (by decide)] at hwalk
    rw [← hwalk]
    refine walk_congr_page ?_
    rw [pml4Index_eq] at h1
    rw [pdptIndex_eq] at h2
    rw [pdeIndex_eq, pteIndex_eq]
    omega
  · next h =>
    -- the first entry that is absent
    have hent : ∀ {k i}, k < 3 → i < 512 →
        tableEntry ram (pml4 + 4096 * k) i = stageEntry pml4 n (512 * n) (512 * k + i) := by
      intro k i hk hi
      rw [← H.entry _ (by omega), tableEntry]
      exact congrArg (load ram 8) (by omega)
    have hpml4 : pml4Index v < 512 := by rw [pml4Index_eq]; omega
    have hpdpt : pdptIndex v < 512 := by rw [pdptIndex_eq]; omega
    have hpde : pdeIndex v < 512 := by rw [pdeIndex_eq]; omega
    have habs : ∀ {k i}, k < 3 → i < 512 → stageEntry pml4 n (512 * n) (512 * k + i) = 0 →
        childTable ram (pml4 + 4096 * k) i = none := fun hk hi h0 =>
      childTable_of_absent (by rw [hent hk hi, h0]; rfl)
    have hchild : ∀ {k i t}, k < 3 → i < 512 → t % 4096 = 0 → t < 2 ^ 52 →
        stageEntry pml4 n (512 * n) (512 * k + i) = t + 0x3 →
        childTable ram (pml4 + 4096 * k) i = some t := by
      intro k i t hk hi ht hlt he
      obtain ⟨h5, h6, -⟩ := entry_with_flags (f := 0x3) ht hlt (by decide)
      rw [childTable_eq_some, hent hk hi, he, h5]
      exact ⟨h6.mpr rfl, rfl⟩
    have ha := H.aligned
    have hb := H.below
    simp only [mb] at hb
    rw [walk, hdir]
    by_cases h1 : pml4Index v = 511
    · have c1 := hchild (k := 0) (i := 511) (t := pml4 + 4096 * 1) (by decide) (by decide)
        (by omega) (by omega) (stageEntry_pml4.trans (by omega))
      rw [Nat.mul_zero, Nat.add_zero] at c1
      rw [h1, c1]
      simp only [Option.bind_eq_bind, Option.bind_some]
      by_cases h2 : pdptIndex v = 510
      · have c2 := hchild (k := 1) (i := 510) (t := pml4 + 4096 * 2) (by decide) (by decide)
          (by omega) (by omega) (stageEntry_pdpt.trans (by omega))
        rw [h2, c2, Option.bind_some]
        have c3 := habs (k := 2) (i := pdeIndex v) (by decide) hpde (by
          rw [stageEntry, if_neg (by omega), if_neg (by omega), if_neg (by omega),
            if_neg (by omega)])
        rw [c3, Option.bind_none]
      · have c2 := habs (k := 1) (i := pdptIndex v) (by decide) hpdpt (by
          rw [stageEntry, if_neg (by omega), if_neg (by omega), if_neg (by omega),
            if_neg (by omega)])
        rw [c2, Option.bind_none]
    · have c1 := habs (k := 0) (i := pml4Index v) (by decide) hpml4 (by
        rw [stageEntry, if_neg (by omega), if_neg (by omega), if_neg (by omega),
          if_neg (by omega)])
      rw [Nat.mul_zero, Nat.add_zero] at c1
      rw [c1]
      rfl

/-- The machine at `kmain`, with the tables as the assembly leaves them. -/
def started (s : Machine) : Machine := { s with ram := start64 (start32 s.ram s.cr3) s.cr3 }

/-- **Direct map.** Wherever the tables are loaded below 8 MB, `map_kernel_memory` ends with the
whole gigabyte of the window mapped onto physical memory, present and writable at all levels. Every
translation there was is as before, and so is memory outside the tables. -/
theorem mapKernelMemory_direct (h : Loaded s.ram s.cr3) : ∃ ram',
    mapKernelMemory.run (started s) = (.ok (), { s with ram := ram' }) ∧
    (∀ x < gb 1, translate ram' s.cr3 (kvirtualAddress + x) = some x ∧
      access 0x02 ram' s.cr3 (kvirtualAddress + x) ≠ none) ∧
    (∀ x < mb 8, walk (started s).ram s.cr3 (kvirtualAddress + x) ≠ none) ∧
    (∀ v, walk (started s).ram s.cr3 v ≠ none →
      walk ram' s.cr3 v = walk (started s).ram s.cr3 v) ∧
    Outside s.cr3 (started s).ram ram' := by
  have hst : Stage 4 (512 * 4) (started s).ram s.cr3 := h.stage
  obtain ⟨ram', hrun, hst', hout⟩ := mapKernelMemory_run (s := started s) hst
  have hst2 : Stage 512 (512 * 512) ram' s.cr3 := hst'
  have hdir := entryFrame_pml4 h.aligned h.below
  refine ⟨ram', hrun, fun x hx => ?_, fun x hx => ?_, fun v hv => ?_, hout⟩
  · have hx' : x < 4096 * (512 * 512) := hx
    have hacc := hst2.access (Nat.le_refl _) hx' (Nat.le_refl _)
    refine ⟨?_, by rw [hacc]; exact Option.some_ne_none _⟩
    have hkv := kvirtualAddress_eq
    rw [translate, walk_of_access hdir hacc, Option.map_some, entryFrame_eq, Option.some.injEq]
    omega
  · have hx' : x < 4096 * (512 * 4) := hx
    rw [walk_of_access hdir (hst.access (by decide) hx' (Nat.le_refl _))]
    exact Option.some_ne_none _
  · have hwalk : walk (started s).ram s.cr3 v = _ := hst.walk_eq (by decide) v
    rw [hwalk] at hv ⊢
    rw [Stage.walk_eq hst2 (Nat.le_refl _)]
    split at hv
    · next hpage =>
      rw [if_pos hpage, if_pos ⟨hpage.1, hpage.2.1, by omega⟩]
    · exact absurd rfl hv

/-- A machine with the tables of the image loaded at 2 MB. -/
def imageMachine : Machine :=
  { bootMachine (mb 5) with ram := ofWords fun w => imageEntry (mb 2) (w - mb 2 / 8) }

theorem loaded_imageMachine : Loaded imageMachine.ram imageMachine.cr3 := by
  refine ⟨(by decide : mb 2 % 4096 = 0), (by decide : mb 2 + 515 * 4096 ≤ mb 8), fun i hi => ?_⟩
  have hw : mb 2 + 8 * i = 8 * (mb 2 / 8 + i) := by simp only [mb]; omega
  change load imageMachine.ram 8 (mb 2 + 8 * i) = imageEntry (mb 2) i
  simp only [imageMachine]
  rw [hw, load_ofWords] <;> simp only [Nat.add_sub_cancel_left]
  unfold imageEntry
  simp only [mb]
  split
  · omega
  split
  · omega
  split <;> omega

theorem mapKernelMemory_direct_image : ∃ ram',
    mapKernelMemory.run (started imageMachine) = (.ok (), { imageMachine with ram := ram' }) ∧
      translate ram' (mb 2) (kvirtualAddress + 0x3ffff123) = some 0x3ffff123 := by
  obtain ⟨ram', hrun, hmap, -⟩ := mapKernelMemory_direct loaded_imageMachine
  exact ⟨ram', hrun, (hmap 0x3ffff123 (by decide)).1⟩

/-- The machine that `map_kernel_memory` leaves is a booted one. -/
theorem booted_of_loaded (h : Loaded s.ram s.cr3)
    (himage : kvirtualAddress + s.cr3 + 515 * 4096 ≤ s.placement)
    (hwindow : s.placement ≤ kvirtualAddress + directMapSize) :
    ∃ s', mapKernelMemory.run (started s) = (.ok (), s') ∧ Booted s' := by
  obtain ⟨ram', hrun, hst, -⟩ := mapKernelMemory_run (s := started s) h.stage
  refine ⟨_, hrun, h.aligned, fun i hi => ?_, himage, hwindow⟩
  rw [hst.entry i hi, stageEntry, bootEntry]
  refine if_congr Iff.rfl rfl (if_congr Iff.rfl rfl ?_)
  refine if_congr (by omega) (by simp [started]) (if_congr (by omega) rfl rfl)

end
end Boot
end Coronel
