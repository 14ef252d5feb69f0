import Coronel.Kernel.Paging

/-!
# Page tables in physical memory

`tableAt ram d p` follows the entries `p` (last index first) from the directory `d`. A `Forest`
is a set of directories whose tables all lie below `top` and of which no two share a table, except
that they all share what hangs below entry 511. A write to a leaf entry then changes one page of
one directory (of all of them below entry 511), and linking a zeroed table changes no walk.
-/

namespace Coronel

open Theory Theory.Bytes

/-! ### Indices and entries -/

theorem pteIndex_eq (v : Nat) : pteIndex v = v / 4096 % 512 := by
  rw [pteIndex, Nat.shiftRight_eq_div_pow, show (0x1ff : Nat) = 2 ^ 9 - 1 from rfl,
    Nat.and_two_pow_sub_one_eq_mod]

theorem pdeIndex_eq (v : Nat) : pdeIndex v = v / 2 ^ 21 % 512 := by
  rw [pdeIndex, Nat.shiftRight_eq_div_pow, show (0x1ff : Nat) = 2 ^ 9 - 1 from rfl,
    Nat.and_two_pow_sub_one_eq_mod]

theorem pdptIndex_eq (v : Nat) : pdptIndex v = v / 2 ^ 30 % 512 := by
  rw [pdptIndex, Nat.shiftRight_eq_div_pow, show (0x1ff : Nat) = 2 ^ 9 - 1 from rfl,
    Nat.and_two_pow_sub_one_eq_mod]

theorem pml4Index_eq (v : Nat) : pml4Index v = v / 2 ^ 39 % 512 := by
  rw [pml4Index, Nat.shiftRight_eq_div_pow, show (0x1ff : Nat) = 2 ^ 9 - 1 from rfl,
    Nat.and_two_pow_sub_one_eq_mod]

theorem present_iff {e : Nat} : present e = true ↔ e % 2 = 1 := by
  rw [present, beq_iff_eq, Nat.and_one_is_mod]

theorem entryFrame_eq (e : Nat) : entryFrame e = e % 2 ^ 52 / 4096 * 4096 :=
  and_page_mask e (by decide)

theorem entryFrame_mod (e : Nat) : entryFrame e % 4096 = 0 := by
  rw [entryFrame_eq]; omega

theorem entryFrame_of_aligned {e : Nat} (h : e % 4096 = 0) (hlt : e < 2 ^ 52) :
    entryFrame e = e := by
  rw [entryFrame_eq, Nat.mod_eq_of_lt hlt]; omega

/-- `ADDRESS` is the window address of the frame, for entries without high flags. -/
theorem Paging.address_eq {e : Nat} (h : e < 2 ^ 52) (hw : entryFrame e < directMapSize) :
    Paging.address e = kvirtualAddress + entryFrame e := by
  rw [entryFrame_eq] at *
  simp only [directMapSize, gb] at hw
  rw [Paging.address, and_page_mask e (by decide), add64, kvirtualAddress]
  omega

/-- Flags go below an aligned address. -/
theorem or_flags {a f : Nat} (ha : a % 4096 = 0) (hf : f < 4096) : a ||| f = a + f := by
  have h : a = (a / 4096) <<< 12 := by rw [Nat.shiftLeft_eq]; omega
  rw [h, ← Nat.shiftLeft_add_eq_or_of_lt (i := 12) (by omega)]

/-- The entry of a linked table, or of a mapped frame. -/
theorem entry_with_flags {a f : Nat} (ha : a % 4096 = 0) (hlt : a < 2 ^ 52) (hf : f < 4096) :
    entryFrame (a + f) = a ∧ (present (a + f) = true ↔ f % 2 = 1) ∧ a + f < 2 ^ 52 := by
  rw [entryFrame_eq, present_iff]
  omega

/-! ### Tables by path -/

/-- The table reached from `d` through the entries `p`, last index first. -/
def tableAt (ram : Mem) (d : Nat) : List Nat → Option Nat
  | [] => some d
  | i :: p => (tableAt ram d p).bind fun t => childTable ram t i

theorem tableAt_cons (ram : Mem) (d i : Nat) (p : List Nat) : tableAt ram d (i :: p) =
    (tableAt ram d p).bind fun t => childTable ram t i := rfl

/-- The indices of the three tables above the leaf of `v`. -/
def pathOf (v : Nat) : List Nat := [pdeIndex v, pdptIndex v, pml4Index v]

/-- At most three indices into tables of 512 entries. -/
def ValidPath (p : List Nat) : Prop := p.length ≤ 3 ∧ ∀ i ∈ p, i < 512

theorem validPath_pathOf (v : Nat) : ValidPath (pathOf v) := by
  refine ⟨Nat.le_refl 3, fun i hi => ?_⟩
  simp only [pathOf, pdeIndex_eq, pdptIndex_eq, pml4Index_eq, List.mem_cons,
    List.not_mem_nil, or_false] at hi
  omega

theorem ValidPath.tail {i : Nat} {p : List Nat} (h : ValidPath (i :: p)) : ValidPath p :=
  ⟨by have := h.1; rw [List.length_cons] at this; omega, fun j hj => h.2 j (by simp [hj])⟩

theorem getLast?_pathOf (v : Nat) : (pathOf v).getLast? = some (pml4Index v) := rfl

theorem pteIndex_lt (v : Nat) : pteIndex v < 512 := by rw [pteIndex_eq]; omega

/-- Two addresses with the same indices lie on the same page, modulo `2 ^ 48`. -/
theorem same_page_iff {v v' : Nat} : pathOf v = pathOf v' ∧ pteIndex v = pteIndex v' ↔
    v % 2 ^ 48 / 4096 = v' % 2 ^ 48 / 4096 := by
  simp only [pathOf, List.cons.injEq, and_true, pteIndex_eq, pdeIndex_eq, pdptIndex_eq,
    pml4Index_eq]
  omega

theorem childTable_eq_some {ram : Mem} {t i t' : Nat} : childTable ram t i = some t' ↔
    present (tableEntry ram t i) = true ∧ entryFrame (tableEntry ram t i) = t' := by
  unfold childTable
  split <;> simp [*]

theorem childTable_congr {ram ram' : Mem} {t i : Nat}
    (h : tableEntry ram' t i = tableEntry ram t i) : childTable ram' t i = childTable ram t i := by
  rw [childTable, h, childTable]

theorem childTable_of_absent {ram : Mem} {t i : Nat} (h : present (tableEntry ram t i) = false) :
    childTable ram t i = none := by
  rw [childTable, h]; rfl

/-- The processor's walk is three steps down and a look at the leaf. -/
theorem walk_eq (ram : Mem) (d v : Nat) : walk ram d v =
    (tableAt ram (entryFrame d) (pathOf v)).bind fun t =>
      if present (tableEntry ram t (pteIndex v)) then some (tableEntry ram t (pteIndex v))
      else none := by
  simp only [walk, tableAt, pathOf, Option.bind_some, Option.bind_eq_bind, Option.bind_assoc]

theorem walk_some_iff {ram : Mem} {d v e : Nat} (hd : entryFrame d = d) :
    walk ram d v = some e ↔ ∃ t, tableAt ram d (pathOf v) = some t ∧
      tableEntry ram t (pteIndex v) = e ∧ present e = true := by
  rw [walk_eq, hd, Option.bind_eq_some_iff]
  refine exists_congr fun t => and_congr_right fun _ => ?_
  split
  · next hp => simp only [Option.some.injEq]; exact ⟨fun h => ⟨h, h ▸ hp⟩, fun h => h.1⟩
  · next hp => simp only [reduceCtorEq, false_iff]; rintro ⟨rfl, h⟩; exact hp h

/-- A walk depends on its address modulo `2 ^ 48` and to the page only. -/
theorem walk_congr_page {ram : Mem} {d v v' : Nat} (h : v % 2 ^ 48 / 4096 = v' % 2 ^ 48 / 4096) :
    walk ram d v = walk ram d v' := by
  obtain ⟨h1, h2⟩ := same_page_iff.mpr h
  rw [walk_eq, walk_eq, h1, h2]

/-! ### Forests -/

/-- The tables of the directories `dirs` lie below `top`, in the kernel's window, and form trees
that share exactly what is below entry 511. -/
structure Forest (ram : Mem) (dirs : List Nat) (top : Nat) : Prop where
  window : top ≤ directMapSize
  table : ∀ d ∈ dirs, ∀ p, ValidPath p → ∀ t, tableAt ram d p = some t →
    t % 4096 = 0 ∧ t + 4096 ≤ top
  small : ∀ d ∈ dirs, ∀ p, ValidPath p → p.length ≤ 2 → ∀ t, tableAt ram d p = some t →
    ∀ i < 512, present (tableEntry ram t i) = true → tableEntry ram t i < 2 ^ 52
  inj : ∀ d ∈ dirs, ∀ d' ∈ dirs, ∀ p p', ValidPath p → ValidPath p' → ∀ t,
    tableAt ram d p = some t → tableAt ram d' p' = some t →
    p = p' ∧ (d = d' ∨ p.getLast? = some 511)
  kernel : ∀ d ∈ dirs, ∀ d' ∈ dirs, tableEntry ram d 511 = tableEntry ram d' 511
  present : ∀ d ∈ dirs, present (tableEntry ram d 511) = true

theorem validPath_nil : ValidPath [] := ⟨by decide, by simp⟩

theorem validPath_cons {i : Nat} {p : List Nat} (hi : i < 512) (hp : ValidPath p)
    (hl : p.length ≤ 2) : ValidPath (i :: p) :=
  ⟨by rw [List.length_cons]; omega, by simpa [hi] using hp.2⟩

namespace Forest

variable {ram ram' : Mem} {dirs : List Nat} {top : Nat} {d d' t t' i : Nat} {p p' : List Nat}

theorem dir (H : Forest ram dirs top) (hd : d ∈ dirs) : d % 4096 = 0 ∧ d + 4096 ≤ top :=
  H.table d hd [] validPath_nil d rfl

theorem entryFrame_dir (H : Forest ram dirs top) (hd : d ∈ dirs) : entryFrame d = d := by
  have h1 := H.dir hd
  have h2 : top ≤ 1024 * 1024 * 1024 := by have := H.window; simp only [directMapSize] at this; omega
  exact entryFrame_of_aligned h1.1 (by omega)

/-- Below entry 511 every directory has the same tables. -/
theorem shared (H : Forest ram dirs top) (hd : d ∈ dirs) (hd' : d' ∈ dirs)
    (hp : p.getLast? = some 511) : tableAt ram d p = tableAt ram d' p := by
  induction p with
  | nil => cases hp
  | cons i p ih =>
    cases p with
    | nil =>
      obtain rfl : i = 511 := by simpa using hp
      simp only [tableAt, Option.bind_some]
      rw [childTable, childTable, H.kernel d hd d' hd']
    | cons j p =>
      rw [tableAt_cons ram d i, tableAt_cons ram d' i, ih (by simpa using hp)]

/-- Entries of different tables do not overlap. -/
theorem entry_disjoint {t t' i j : Nat} (ht : t % 4096 = 0) (ht' : t' % 4096 = 0) (hi : i < 512)
    (hj : j < 512) (hne : t ≠ t' ∨ i ≠ j) :
    t + 8 * i + 8 ≤ t' + 8 * j ∨ t' + 8 * j + 8 ≤ t + 8 * i := by
  omega

/-- A memory that differs at one entry. -/
theorem tableEntry_store {e j : Nat} (ht : t % 4096 = 0) (ht' : t' % 4096 = 0) (hi : i < 512)
    (hj : j < 512) (he : e < 2 ^ 64) : tableEntry (store ram 8 (t + 8 * i) e) t' j =
      if t' = t ∧ j = i then e else tableEntry ram t' j := by
  split
  · next h => rw [h.1, h.2, tableEntry, load_store_of_lt (by omega)]
  · next h => exact load_store_disjoint (entry_disjoint ht' ht hj hi (by omega))

/-- Memory above the tables does not matter. -/
theorem congr (H : Forest ram dirs top) (h : ∀ a < top, ram' a = ram a) :
    (∀ d ∈ dirs, ∀ p, ValidPath p → tableAt ram' d p = tableAt ram d p) ∧
      Forest ram' dirs top := by
  have hent : ∀ d ∈ dirs, ∀ p, ValidPath p → ∀ t, tableAt ram d p = some t → ∀ i < 512,
      tableEntry ram' t i = tableEntry ram t i := fun d hd p hp t ht i hi =>
    load_congr fun k hk => h _ (by have := (H.table d hd p hp t ht).2; omega)
  have key : ∀ d ∈ dirs, ∀ p, ValidPath p → tableAt ram' d p = tableAt ram d p := by
    intro d hd p hp
    induction p with
    | nil => rfl
    | cons i p ih =>
      rw [tableAt, tableAt, ih hp.tail]
      rcases ht : tableAt ram d p with _ | t
      · rfl
      · exact childTable_congr (hent d hd p hp.tail t ht i (hp.2 i (by simp)))
  refine ⟨key, H.window, ?_, ?_, ?_, ?_, ?_⟩
  · intro d hd p hp t ht
    exact H.table d hd p hp t (key d hd p hp ▸ ht)
  · intro d hd p hp hl t ht i hi hpr
    rw [key d hd p hp] at ht
    rw [hent d hd p hp t ht i hi] at hpr ⊢
    exact H.small d hd p hp hl t ht i hi hpr
  · intro d hd d' hd' p p' hp hp' t ht ht'
    exact H.inj d hd d' hd' p p' hp hp' t (key d hd p hp ▸ ht) (key d' hd' p' hp' ▸ ht')
  · intro d hd d' hd'
    rw [hent d hd [] validPath_nil d rfl _ (by decide),
      hent d' hd' [] validPath_nil d' rfl _ (by decide)]
    exact H.kernel d hd d' hd'
  · intro d hd
    rw [hent d hd [] validPath_nil d rfl _ (by decide)]
    exact H.present d hd

theorem walk_congr (H : Forest ram dirs top) (h : ∀ a < top, ram' a = ram a) (hd : d ∈ dirs)
    (v : Nat) : walk ram' d v = walk ram d v := by
  rw [walk_eq, walk_eq, H.entryFrame_dir hd, (H.congr h).1 d hd _ (validPath_pathOf v)]
  rcases ht : tableAt ram d (pathOf v) with _ | t
  · rfl
  · have hent : tableEntry ram' t (pteIndex v) = tableEntry ram t (pteIndex v) :=
      load_congr fun k hk => h _ (by
        have := (H.table d hd _ (validPath_pathOf v) t ht).2
        have := pteIndex_lt v
        omega)
    simp only [Option.bind_some, hent]

/-- Below entry 511 every directory has the same walks. -/
theorem walk_shared (H : Forest ram dirs top) (hd : d ∈ dirs) (hd' : d' ∈ dirs) {v : Nat}
    (hv : pml4Index v = 511) : walk ram d v = walk ram d' v := by
  rw [walk_eq, walk_eq, H.entryFrame_dir hd, H.entryFrame_dir hd',
    H.shared hd hd' (by rw [getLast?_pathOf, hv])]

theorem mono {top' : Nat} (H : Forest ram dirs top) (h : top ≤ top') (hw : top' ≤ directMapSize) :
    Forest ram dirs top' :=
  ⟨hw, fun d hd p hp t ht => by have := H.table d hd p hp t ht; omega, H.small, H.inj, H.kernel,
    H.present⟩

/-! ### Writing a leaf entry -/

section leaf
variable {e v : Nat}

/-- A leaf entry belongs to no intermediate table. -/
theorem tableAt_leaf (H : Forest ram dirs top) (hd : d ∈ dirs)
    (ht : tableAt ram d (pathOf v) = some t) (he : e < 2 ^ 64) (hd' : d' ∈ dirs)
    (hp : ValidPath p) :
    tableAt (store ram 8 (t + 8 * pteIndex v) e) d' p = tableAt ram d' p := by
  have hv := validPath_pathOf v
  induction p with
  | nil => rfl
  | cons j p ih =>
    rw [tableAt_cons _ d' j, tableAt_cons _ d' j, ih hp.tail]
    rcases ht' : tableAt ram d' p with _ | t'
    · rw [Option.bind_none, Option.bind_none]
    refine childTable_congr ?_
    have hne : t' ≠ t := by
      rintro rfl
      have h1 := (H.inj d hd d' hd' _ _ hv hp.tail t' ht ht').1
      have h2 := hp.1
      rw [← h1] at h2
      simp [pathOf] at h2
    rw [tableEntry_store (H.table d hd _ hv t ht).1 (H.table d' hd' p hp.tail t' ht').1
      (pteIndex_lt v) (hp.2 j (by simp)) he, if_neg fun h => hne h.1]

/-- The walks after the leaf entry of `v` in `d` is set to `e`. -/
theorem walk_leaf (H : Forest ram dirs top) (hd : d ∈ dirs)
    (ht : tableAt ram d (pathOf v) = some t) (he : e < 2 ^ 64) (hd' : d' ∈ dirs) (v' : Nat) :
    walk (store ram 8 (t + 8 * pteIndex v) e) d' v' =
      if v' % 2 ^ 48 / 4096 = v % 2 ^ 48 / 4096 ∧ (d' = d ∨ pml4Index v = 511) then
        (if Coronel.present e then some e else none)
      else walk ram d' v' := by
  have hv := validPath_pathOf v
  have hv' := validPath_pathOf v'
  rw [walk_eq, walk_eq, H.entryFrame_dir hd', H.tableAt_leaf hd ht he hd' hv']
  split
  · next h =>
    obtain ⟨h1, h2⟩ := same_page_iff.mpr h.1
    have ht' : tableAt ram d' (pathOf v') = some t := by
      rw [h1]
      rcases h.2 with rfl | h511
      · exact ht
      · rw [H.shared hd' hd (by rw [getLast?_pathOf, h511])]; exact ht
    rw [ht', h2, Option.bind_some, tableEntry, load_store_of_lt (by omega)]
  · next h =>
    rcases ht' : tableAt ram d' (pathOf v') with _ | t'
    · rw [Option.bind_none, Option.bind_none]
    have hne : ¬(t' = t ∧ pteIndex v' = pteIndex v) := by
      rintro ⟨rfl, hi⟩
      obtain ⟨h1, h2⟩ := H.inj d' hd' d hd _ _ hv' hv t' ht' ht
      refine h ⟨same_page_iff.mp ⟨h1, hi⟩, ?_⟩
      rwa [h1, getLast?_pathOf, Option.some.injEq] at h2
    simp only [Option.bind_some]
    rw [tableEntry_store (H.table d hd _ hv t ht).1 (H.table d' hd' _ hv' t' ht').1
      (pteIndex_lt v) (pteIndex_lt v') he, if_neg hne]

theorem leaf (H : Forest ram dirs top) (hd : d ∈ dirs)
    (ht : tableAt ram d (pathOf v) = some t) (he : e < 2 ^ 64) :
    Forest (store ram 8 (t + 8 * pteIndex v) e) dirs top := by
  have hv := validPath_pathOf v
  have key := fun d' (hd' : d' ∈ dirs) p (hp : ValidPath p) => H.tableAt_leaf hd ht he hd' hp
  -- an entry of a table on a shorter path is not the leaf entry
  have hent : ∀ d' ∈ dirs, ∀ p, ValidPath p → p.length ≤ 2 → ∀ t', tableAt ram d' p = some t' →
      ∀ j < 512, tableEntry (store ram 8 (t + 8 * pteIndex v) e) t' j = tableEntry ram t' j := by
    intro d' hd' p hp hl t' ht' j hj
    have hne : t' ≠ t := by
      rintro rfl
      rw [← (H.inj d hd d' hd' _ _ hv hp t' ht ht').1] at hl
      simp [pathOf] at hl
    rw [tableEntry_store (H.table d hd _ hv t ht).1 (H.table d' hd' p hp t' ht').1
      (pteIndex_lt v) hj he, if_neg fun h => hne h.1]
  refine ⟨H.window, ?_, ?_, ?_, ?_, ?_⟩
  · intro d' hd' p hp t' ht'
    exact H.table d' hd' p hp t' (key d' hd' p hp ▸ ht')
  · intro d' hd' p hp hl t' ht' j hj hpr
    rw [key d' hd' p hp] at ht'
    rw [hent d' hd' p hp hl t' ht' j hj] at hpr ⊢
    exact H.small d' hd' p hp hl t' ht' j hj hpr
  · intro d1 hd1 d2 hd2 p1 p2 hp1 hp2 t' h1 h2
    exact H.inj d1 hd1 d2 hd2 p1 p2 hp1 hp2 t' (key d1 hd1 p1 hp1 ▸ h1) (key d2 hd2 p2 hp2 ▸ h2)
  · intro d1 hd1 d2 hd2
    rw [hent d1 hd1 [] validPath_nil (by decide) d1 rfl _ (by decide),
      hent d2 hd2 [] validPath_nil (by decide) d2 rfl _ (by decide)]
    exact H.kernel d1 hd1 d2 hd2
  · intro d1 hd1
    rw [hent d1 hd1 [] validPath_nil (by decide) d1 rfl _ (by decide)]
    exact H.present d1 hd1

end leaf

/-! ### Linking a new table -/

section link
variable {t₀ f : Nat}

/-- The memory after the zeroed table `t₀` is linked at entry `i` of `t`. -/
def link (ram : Mem) (t i t₀ f : Nat) : Mem :=
  store (fill ram t₀ 4096 0) 8 (t + 8 * i) (t₀ + f)

theorem tableEntry_link (ram : Mem) {j : Nat} (ht : t % 4096 = 0) (ht' : t' % 4096 = 0) (h₀ : t₀ % 4096 = 0)
    (hi : i < 512) (hj : j < 512) (hlt : t₀ + f < 2 ^ 64) :
    tableEntry (link ram t i t₀ f) t' j =
      if t' = t ∧ j = i then t₀ + f else if t' = t₀ then 0 else tableEntry ram t' j := by
  rw [link, tableEntry_store ht ht' hi hj hlt]
  refine if_congr Iff.rfl rfl ?_
  split
  · next h => rw [h, tableEntry, load_fill_zero (by omega) (by omega)]
  · next h => exact load_fill_disjoint (by omega)

/-- After the link, the new table is found at one path and all others are as before. -/
theorem tableAt_link (H : Forest ram dirs top) (hd : d ∈ dirs) (hp : ValidPath (i :: p))
    (ht : tableAt ram d p = some t) (habs : Coronel.present (tableEntry ram t i) = false)
    (h₀ : t₀ % 4096 = 0) (htop : top ≤ t₀) (hwin : t₀ + 4096 ≤ directMapSize)
    (hf : f < 4096) (hf1 : f % 2 = 1) (hd' : d' ∈ dirs) (hp' : ValidPath p') :
    tableAt (link ram t i t₀ f) d' p' =
      if p' = i :: p ∧ (d' = d ∨ p.getLast? = some 511) then some t₀ else tableAt ram d' p' := by
  have hgb : directMapSize = 1024 * 1024 * 1024 := by decide
  have hT := H.table d hd p hp.tail t ht
  have hi := hp.2 i (by simp)
  have hsh : d' = d ∨ p.getLast? = some 511 → tableAt ram d' p = some t := by
    rintro (rfl | h)
    · exact ht
    · rw [H.shared hd' hd h]; exact ht
  induction p' with
  | nil => rw [if_neg (by simp)]; rfl
  | cons j q ih =>
    rw [tableAt, ih hp'.tail]
    have hj := hp'.2 j (by simp)
    by_cases hq : q = i :: p ∧ (d' = d ∨ p.getLast? = some 511)
    · -- below the new table there is nothing, before and after
      obtain ⟨rfl, hs⟩ := hq
      rw [if_pos ⟨rfl, hs⟩, if_neg (by simp), tableAt, tableAt, hsh hs]
      simp only [Option.bind_some, childTable_of_absent habs, Option.bind_none]
      apply childTable_of_absent
      rw [tableEntry_link _ hT.1 h₀ h₀ hi hj (by omega), if_neg (by omega), if_pos rfl]
      rfl
    · rw [if_neg hq]
      rcases ht' : tableAt ram d' q with _ | t'
      · rw [Option.bind_none, if_neg]
        · rw [tableAt, ht']; rfl
        · rintro ⟨h1, hs⟩
          obtain ⟨rfl, rfl⟩ := List.cons.inj h1
          rw [hsh hs] at ht'
          cases ht'
      have hT' := H.table d' hd' q hp'.tail t' ht'
      have he := tableEntry_link ram (f := f) hT.1 hT'.1 h₀ hi hj (by omega)
      rw [if_neg (show ¬t' = t₀ by omega)] at he
      rw [Option.bind_some, tableAt, ht', Option.bind_some]
      by_cases hhit : t' = t ∧ j = i
      · rw [if_pos hhit] at he
        obtain ⟨rfl, rfl⟩ := hhit
        obtain ⟨rfl, hs⟩ := H.inj d' hd' d hd _ _ hp'.tail hp.tail t' ht' ht
        obtain ⟨h1, h2, -⟩ := entry_with_flags h₀ (by omega) hf
        rw [if_pos ⟨rfl, hs⟩, childTable, he, h1, if_pos (h2.mpr hf1)]
      · rw [if_neg hhit] at he
        rw [childTable_congr he, if_neg]
        rintro ⟨h1, hs⟩
        obtain ⟨rfl, rfl⟩ := List.cons.inj h1
        rw [hsh hs] at ht'
        cases ht'
        exact hhit ⟨rfl, rfl⟩

theorem walk_link (H : Forest ram dirs top) (hd : d ∈ dirs) (hp : ValidPath (i :: p))
    (ht : tableAt ram d p = some t) (habs : Coronel.present (tableEntry ram t i) = false)
    (h₀ : t₀ % 4096 = 0) (htop : top ≤ t₀) (hwin : t₀ + 4096 ≤ directMapSize)
    (hf : f < 4096) (hf1 : f % 2 = 1) (hd' : d' ∈ dirs) (v' : Nat) :
    walk (link ram t i t₀ f) d' v' = walk ram d' v' := by
  have hgb : directMapSize = 1024 * 1024 * 1024 := by decide
  have hv := validPath_pathOf v'
  have hT := H.table d hd p hp.tail t ht
  have hi := hp.2 i (by simp)
  have hj := pteIndex_lt v'
  rw [walk_eq, walk_eq, H.entryFrame_dir hd',
    H.tableAt_link hd hp ht habs h₀ htop hwin hf hf1 hd' hv]
  split
  · next h =>
    have hnone : tableAt ram d' (i :: p) = none := by
      have : tableAt ram d' p = some t := by
        rcases h.2 with rfl | hs
        · exact ht
        · rw [H.shared hd' hd hs]; exact ht
      rw [tableAt, this, Option.bind_some, childTable_of_absent habs]
    have he : tableEntry (link ram t i t₀ f) t₀ (pteIndex v') = 0 := by
      rw [tableEntry_link _ hT.1 h₀ h₀ hi hj (by omega), if_neg (by omega), if_pos rfl]
    rw [h.1, hnone, Option.bind_some, Option.bind_none, he]
    rfl
  · rcases ht' : tableAt ram d' (pathOf v') with _ | t'
    · rw [Option.bind_none, Option.bind_none]
    have hT' := H.table d' hd' _ hv t' ht'
    have hne : t' ≠ t := by
      rintro rfl
      have h1 := (H.inj d' hd' d hd _ _ hv hp.tail t' ht' ht).1
      have h2 := hp.1
      rw [← h1] at h2
      simp [pathOf] at h2
    have he : tableEntry (link ram t i t₀ f) t' (pteIndex v') =
        tableEntry ram t' (pteIndex v') := by
      rw [tableEntry_link _ hT.1 hT'.1 h₀ hi hj (by omega), if_neg fun h => hne h.1,
        if_neg (by omega)]
    rw [Option.bind_some, Option.bind_some, he]

theorem link_forest (H : Forest ram dirs top) (hd : d ∈ dirs) (hp : ValidPath (i :: p))
    (ht : tableAt ram d p = some t) (habs : Coronel.present (tableEntry ram t i) = false)
    (h₀ : t₀ % 4096 = 0) (htop : top ≤ t₀) (hwin : t₀ + 4096 ≤ directMapSize)
    (hf : f < 4096) (hf1 : f % 2 = 1) : Forest (link ram t i t₀ f) dirs (t₀ + 4096) := by
  have hgb : directMapSize = 1024 * 1024 * 1024 := by decide
  have hT := H.table d hd p hp.tail t ht
  have hi := hp.2 i (by simp)
  have key := fun d' (hd' : d' ∈ dirs) p' (hp' : ValidPath p') =>
    H.tableAt_link hd hp ht habs h₀ htop hwin hf hf1 hd' hp'
  have hroot : ∀ d' ∈ dirs, tableEntry (link ram t i t₀ f) d' 511 = tableEntry ram d' 511 := by
    intro d' hd'
    have h1 := H.dir hd'
    rw [tableEntry_link _ hT.1 h1.1 h₀ hi (by decide) (by omega), if_neg, if_neg (by omega)]
    -- entry 511 of a directory is present, so it is not the one being linked
    rintro ⟨rfl, rfl⟩
    rw [H.present d' hd'] at habs
    cases habs
  refine ⟨hwin, ?_, ?_, ?_, ?_, ?_⟩
  · intro d' hd' p' hp' t' ht'
    rw [key d' hd' p' hp'] at ht'
    split at ht'
    · cases ht'; exact ⟨h₀, Nat.le_refl _⟩
    · have := H.table d' hd' p' hp' t' ht'; omega
  · intro d' hd' p' hp' hl t' ht' j hj hpr
    rw [key d' hd' p' hp'] at ht'
    split at ht'
    · cases ht'
      rw [tableEntry_link _ hT.1 h₀ h₀ hi hj (by omega), if_neg (by omega), if_pos rfl]
      decide
    · have h1 := H.table d' hd' p' hp' t' ht'
      have he := tableEntry_link ram (f := f) hT.1 h1.1 h₀ hi hj (by omega)
      rw [if_neg (show ¬t' = t₀ by omega)] at he
      rw [he] at hpr ⊢
      split
      · omega
      · next hne =>
        rw [if_neg hne] at hpr
        exact H.small d' hd' p' hp' hl t' ht' j hj hpr
  · intro d1 hd1 d2 hd2 p1 p2 hp1 hp2 t' h1 h2
    rw [key d1 hd1 p1 hp1] at h1
    rw [key d2 hd2 p2 hp2] at h2
    split at h1 <;> split at h2
    · next hc1 hc2 =>
      refine ⟨hc1.1.trans hc2.1.symm, ?_⟩
      rcases hc1.2 with rfl | hs
      · rcases hc2.2 with rfl | hs
        · exact .inl rfl
        · exact .inr (by rw [hc1.1, List.getLast?_cons, hs]; rfl)
      · exact .inr (by rw [hc1.1, List.getLast?_cons, hs]; rfl)
    · cases h1
      have := H.table d2 hd2 p2 hp2 _ h2
      omega
    · cases h2
      have := H.table d1 hd1 p1 hp1 _ h1
      omega
    · exact H.inj d1 hd1 d2 hd2 p1 p2 hp1 hp2 t' h1 h2
  · intro d1 hd1 d2 hd2
    rw [hroot d1 hd1, hroot d2 hd2]
    exact H.kernel d1 hd1 d2 hd2
  · intro d1 hd1
    rw [hroot d1 hd1]
    exact H.present d1 hd1

end link

/-! ### A new directory -/

section newDir
variable {t₀ : Nat}

/-- The memory after a directory with nothing but entry 511, set to `e`, is made at `t₀`. -/
def newDir (ram : Mem) (t₀ e : Nat) : Mem := store (fill ram t₀ 4096 0) 8 (t₀ + 8 * 511) e

theorem newDir_of_not_mem {e a : Nat} (h : a < t₀ ∨ t₀ + 4096 ≤ a) :
    newDir ram t₀ e a = ram a := by
  rw [newDir, store_of_not_mem (by omega), fill_of_not_mem h]

theorem tableEntry_newDir (ram : Mem) {e j : Nat} (h₀ : t₀ % 4096 = 0) (hj : j < 512) (he : e < 2 ^ 64) :
    tableEntry (newDir ram t₀ e) t₀ j = if j = 511 then e else 0 := by
  rw [newDir, tableEntry_store h₀ h₀ (by decide) hj he]
  refine if_congr (by simp) rfl ?_
  rw [tableEntry, load_fill_zero (by omega) (by omega)]

theorem congr_newDir {e : Nat} (H : Forest ram dirs top) (htop : top ≤ t₀) :
    (∀ d ∈ dirs, ∀ p, ValidPath p → tableAt (newDir ram t₀ e) d p = tableAt ram d p) ∧
      Forest (newDir ram t₀ e) dirs top :=
  H.congr fun a ha => newDir_of_not_mem (by omega)

/-- The new directory has the shared tables and no other. -/
theorem tableAt_newDir (H : Forest ram dirs top) (hd : d ∈ dirs) (h₀ : t₀ % 4096 = 0)
    (htop : top ≤ t₀) (hp : ValidPath p) :
    tableAt (newDir ram t₀ (tableEntry ram d 511)) t₀ p =
      if p = [] then some t₀ else if p.getLast? = some 511 then tableAt ram d p else none := by
  have hlt : tableEntry ram d 511 < 2 ^ 64 := load_lt
  induction p with
  | nil => rfl
  | cons i p ih =>
    have hi := hp.2 i (by simp)
    rw [tableAt_cons, if_neg (by simp)]
    cases p with
    | nil =>
      have h1 := tableEntry_newDir ram h₀ hi hlt
      simp only [tableAt, Option.bind_some, List.getLast?_singleton, Option.some.injEq, childTable]
      split at h1
      · next h => rw [h1, if_pos h, h]
      · next h => rw [h1, if_neg h]; rfl
    | cons j p =>
      rw [ih hp.tail, if_neg (by simp), List.getLast?_cons_cons]
      split
      · rw [tableAt_cons ram d i]
        rcases ht : tableAt ram d (j :: p) with _ | t
        · rw [Option.bind_none, Option.bind_none]
        · have h1 := (H.table d hd _ hp.tail t ht).2
          rw [Option.bind_some, Option.bind_some]
          exact childTable_congr (load_congr fun k hk => newDir_of_not_mem (by omega))
      · rfl

theorem walk_newDir (H : Forest ram dirs top) (hd : d ∈ dirs) (h₀ : t₀ % 4096 = 0)
    (htop : top ≤ t₀) (hwin : t₀ + 4096 ≤ directMapSize) (v : Nat) :
    walk (newDir ram t₀ (tableEntry ram d 511)) t₀ v =
      if pml4Index v = 511 then walk ram d v else none := by
  have hgb : directMapSize = 1024 * 1024 * 1024 := by decide
  have hv := validPath_pathOf v
  rw [walk_eq, entryFrame_of_aligned h₀ (by omega), H.tableAt_newDir hd h₀ htop hv,
    if_neg (by simp [pathOf]), getLast?_pathOf, walk_eq, H.entryFrame_dir hd]
  simp only [Option.some.injEq]
  split
  · rcases ht : tableAt ram d (pathOf v) with _ | t
    · rw [Option.bind_none, Option.bind_none]
    · have h1 := (H.table d hd _ hv t ht).2
      have h2 := pteIndex_lt v
      have he : tableEntry (newDir ram t₀ (tableEntry ram d 511)) t (pteIndex v) =
          tableEntry ram t (pteIndex v) :=
        load_congr fun k hk => newDir_of_not_mem (by omega)
      rw [Option.bind_some, Option.bind_some, he]
  · rfl

theorem newDir_forest (H : Forest ram dirs top) (hd : d ∈ dirs) (h₀ : t₀ % 4096 = 0)
    (htop : top ≤ t₀) (hwin : t₀ + 4096 ≤ directMapSize) :
    Forest (newDir ram t₀ (tableEntry ram d 511)) (t₀ :: dirs) (t₀ + 4096) := by
  have hlt : tableEntry ram d 511 < 2 ^ 64 := load_lt
  obtain ⟨hold, H'⟩ := H.congr_newDir (e := tableEntry ram d 511) htop
  have hnew := fun p (hp : ValidPath p) => H.tableAt_newDir hd h₀ htop hp
  -- a table of the new directory is the directory, or a table `d` has below entry 511
  have hcase : ∀ p, ValidPath p → ∀ t,
      tableAt (newDir ram t₀ (tableEntry ram d 511)) t₀ p = some t → p = [] ∧ t = t₀ ∨
      p.getLast? = some 511 ∧ tableAt (newDir ram t₀ (tableEntry ram d 511)) d p = some t := by
    intro p hp t ht
    rw [hnew p hp] at ht
    split at ht
    · next h => cases ht; exact .inl ⟨h, rfl⟩
    · split at ht
      · next h => exact .inr ⟨h, by rw [hold d hd p hp, ht]⟩
      · cases ht
  have hent : ∀ d' ∈ t₀ :: dirs,
      tableEntry (newDir ram t₀ (tableEntry ram d 511)) d' 511 = tableEntry ram d 511 := by
    intro d' hd'
    rcases List.mem_cons.mp hd' with rfl | hd'
    · rw [tableEntry_newDir _ h₀ (by decide) hlt, if_pos rfl]
    · rw [← H.kernel d' hd' d hd]
      exact load_congr fun k hk => newDir_of_not_mem (by have := H.dir hd'; omega)
  refine ⟨hwin, ?_, ?_, ?_, ?_, ?_⟩
  · intro d' hd' p hp t ht
    rcases List.mem_cons.mp hd' with rfl | hd'
    · rcases hcase p hp t ht with ⟨-, rfl⟩ | ⟨-, ht⟩
      · exact ⟨h₀, Nat.le_refl _⟩
      · have := H'.table d hd p hp t ht; omega
    · have := H'.table d' hd' p hp t ht; omega
  · intro d' hd' p hp hl t ht i hi hpr
    rcases List.mem_cons.mp hd' with rfl | hd'
    · rcases hcase p hp t ht with ⟨-, rfl⟩ | ⟨-, ht⟩
      · rw [tableEntry_newDir _ h₀ hi hlt] at hpr ⊢
        split at hpr
        · next h =>
          rw [if_pos h]
          exact H.small d hd [] validPath_nil (by decide) d rfl 511 (by decide) hpr
        · cases hpr
      · exact H'.small d hd p hp hl t ht i hi hpr
    · exact H'.small d' hd' p hp hl t ht i hi hpr
  · intro d1 hm1 d2 hm2 p1 p2 hp1 hp2 t h1 h2
    rcases List.mem_cons.mp hm1 with h3 | hd1 <;> rcases List.mem_cons.mp hm2 with h4 | hd2
    · subst h3 h4
      rcases hcase p1 hp1 t h1 with ⟨rfl, ht⟩ | ⟨-, h1⟩ <;>
        rcases hcase p2 hp2 t h2 with ⟨rfl, ht'⟩ | ⟨-, h2⟩
      · exact ⟨rfl, .inl rfl⟩
      · have := H'.table d hd p2 hp2 t h2; omega
      · have := H'.table d hd p1 hp1 t h1; omega
      · exact ⟨(H'.inj d hd d hd p1 p2 hp1 hp2 t h1 h2).1, .inl rfl⟩
    · subst h3
      have h5 := H'.table d2 hd2 p2 hp2 t h2
      rcases hcase p1 hp1 t h1 with ⟨-, ht⟩ | ⟨hl1, h1⟩
      · omega
      · exact ⟨(H'.inj d hd d2 hd2 p1 p2 hp1 hp2 t h1 h2).1, .inr hl1⟩
    · subst h4
      have h5 := H'.table d1 hd1 p1 hp1 t h1
      rcases hcase p2 hp2 t h2 with ⟨-, ht⟩ | ⟨hl2, h2⟩
      · omega
      · have := (H'.inj d1 hd1 d hd p1 p2 hp1 hp2 t h1 h2).1
        exact ⟨this, .inr (this ▸ hl2)⟩
    · exact H'.inj d1 hd1 d2 hd2 p1 p2 hp1 hp2 t h1 h2
  · intro d1 hd1 d2 hd2
    rw [hent d1 hd1, hent d2 hd2]
  · intro d1 hd1
    rw [hent d1 hd1]
    exact H.present d hd

end newDir
end Forest
end Coronel
