import Coronel.Verify.Frames

/-!
# Permissions along the walk

The processor allows an access when the entries of all four levels permit it. `map` sets the bits
of the entries it creates; an entry that is there keeps the bits of the mapping that created it. So
`map` grants an access when the entries it finds on the way grant it.
-/

namespace Coronel

open Theory Theory.Bytes

/-- The entry has the permission bits `mask` of `PERMISSION_FLAGS`. -/
def permits (mask entry : Nat) : Bool := entry &&& mask == mask

/-- The table behind an entry that is present and permits `mask`. -/
def childWith (mask : Nat) (ram : Mem) (t i : Nat) : Option Nat :=
  if permits mask (tableEntry ram t i) then childTable ram t i else none

/-- The processor's walk for an access that needs the bits `mask`: the leaf entry for `vaddr`, when
the entries of all four levels are present and permit the access. -/
def access (mask : Nat) (ram : Mem) (dir vaddr : Nat) : Option Nat := do
  let pdpt ← childWith mask ram (entryFrame dir) (pml4Index vaddr)
  let pde ← childWith mask ram pdpt (pdptIndex vaddr)
  let pt ← childWith mask ram pde (pdeIndex vaddr)
  let entry := tableEntry ram pt (pteIndex vaddr)
  if present entry && permits mask entry then some entry else none

/-- The `USER` bit, which ring 3 needs. -/
def userBit : Nat := 0x04

/-- The entries above the leaf that are present on the way to `v` permit `mask`. -/
def Grants (mask : Nat) (ram : Mem) (d v : Nat) : Prop :=
  ∀ i p, (i :: p) <:+ pathOf v → ∀ t, tableAt ram d p = some t →
    present (tableEntry ram t i) = true → permits mask (tableEntry ram t i) = true

section
variable {mask : Nat} {ram : Mem} {dirs : List Nat} {top d d' t t₀ i f v v' a e : Nat} {p : List Nat}
  {s s' : Machine}

/-! ### Entries -/

/-- The bits below a page are those of the flags. -/
theorem permits_add (ha : a % 4096 = 0) (hf : f < 4096) (hm : mask < 4096) :
    permits mask (a + f) = permits mask f := by
  have h1 : (a + f) % 2 ^ 12 = f := by omega
  have h2 : (a + f) &&& mask < 2 ^ 12 := Nat.lt_of_le_of_lt Nat.and_le_right (by omega)
  rw [permits, ← Nat.mod_eq_of_lt h2, Nat.and_mod_two_pow, h1, Nat.mod_eq_of_lt (b := 2 ^ 12) hm,
    permits]

theorem permits_two_pow_iff (k : Nat) : permits (2 ^ k) e = true ↔ e / 2 ^ k % 2 = 1 := by
  rw [permits, beq_iff_eq, Nat.and_two_pow, Nat.toNat_testBit]
  have h1 : 0 < 2 ^ k := Nat.two_pow_pos k
  rcases Nat.mod_two_eq_zero_or_one (e / 2 ^ k) with h | h <;> rw [h]
  · simp only [Nat.zero_mul]
    omega
  · simp

theorem permits_userBit_iff : permits userBit e = true ↔ e / 4 % 2 = 1 := permits_two_pow_iff 2

theorem permits_dirFlags {flags : Nat} (h : flags / 4 % 2 = 1) :
    permits userBit (Paging.dirFlags flags) = true := by
  have hbit : flags &&& 0x04 ≠ 0 := by
    rw [show 0x04 = 2 ^ 2 from rfl, Nat.and_two_pow, Nat.toNat_testBit]
    omega
  rw [Paging.dirFlags, if_pos hbit]
  decide

theorem childWith_eq_some : childWith mask ram t i = some t₀ ↔
    childTable ram t i = some t₀ ∧ permits mask (tableEntry ram t i) = true := by
  unfold childWith
  split <;> simp [*]

/-! ### The walk for an access -/

theorem suffix_pathOf_iff : (i :: p) <:+ pathOf v ↔ (i = pml4Index v ∧ p = []) ∨
    (i = pdptIndex v ∧ p = [pml4Index v]) ∨ (i = pdeIndex v ∧ p = [pdptIndex v, pml4Index v]) := by
  simp only [pathOf, List.suffix_cons_iff, List.suffix_nil, List.cons.injEq, reduceCtorEq, or_false]
  tauto

/-- An access is allowed when there is a walk, and its entries permit the access. -/
theorem access_eq_some (hd : entryFrame d = d) : access mask ram d v = some e ↔
    walk ram d v = some e ∧ permits mask e = true ∧ Grants mask ram d v := by
  constructor
  · intro h
    simp only [access, hd, Option.bind_eq_bind, Option.bind_eq_some_iff, childWith_eq_some] at h
    obtain ⟨t1, ⟨h1, p1⟩, t2, ⟨h2, p2⟩, t3, ⟨h3, p3⟩, h4⟩ := h
    have hne : (present (tableEntry ram t3 (pteIndex v)) &&
        permits mask (tableEntry ram t3 (pteIndex v))) = true := by
      by_contra hno
      rw [if_neg hno] at h4
      cases h4
    rw [if_pos hne, Option.some.injEq] at h4
    rw [Bool.and_eq_true] at hne
    have ht2 : tableAt ram d [pml4Index v] = some t1 := h1
    have ht3 : tableAt ram d [pdptIndex v, pml4Index v] = some t2 := by
      rw [tableAt_cons, ht2, Option.bind_some, h2]
    refine ⟨?_, h4 ▸ hne.2, fun i p hs t ht _ => ?_⟩
    · rw [walk, hd, h1]
      simp only [Option.bind_eq_bind, Option.bind_some, h2, h3]
      rw [if_pos hne.1, h4]
    · rcases suffix_pathOf_iff.mp hs with ⟨rfl, rfl⟩ | ⟨rfl, rfl⟩ | ⟨rfl, rfl⟩
      · cases ht
        exact p1
      · cases ht2.symm.trans ht
        exact p2
      · cases ht3.symm.trans ht
        exact p3
  · rintro ⟨h, hp, hg⟩
    obtain ⟨t, ht, rfl, hpr⟩ := (walk_some_iff hd).mp h
    simp only [pathOf, tableAt_cons, Option.bind_eq_some_iff] at ht
    obtain ⟨t2, ⟨t1, ⟨t0, ht0, h1⟩, h2⟩, h3⟩ := ht
    cases ht0
    have ht2 : tableAt ram d [pml4Index v] = some t1 := h1
    have ht3 : tableAt ram d [pdptIndex v, pml4Index v] = some t2 := by
      rw [tableAt_cons, ht2, Option.bind_some, h2]
    have hstep : ∀ {i p t t'}, (i :: p) <:+ pathOf v → tableAt ram d p = some t →
        childTable ram t i = some t' → childWith mask ram t i = some t' := fun hs ht hc =>
      childWith_eq_some.mpr ⟨hc, hg _ _ hs _ ht (childTable_eq_some.mp hc).1⟩
    simp only [access, hd, Option.bind_eq_bind,
      hstep (suffix_pathOf_iff.mpr (.inl ⟨rfl, rfl⟩)) rfl h1, Option.bind_some,
      hstep (suffix_pathOf_iff.mpr (.inr (.inl ⟨rfl, rfl⟩))) ht2 h2,
      hstep (suffix_pathOf_iff.mpr (.inr (.inr ⟨rfl, rfl⟩))) ht3 h3]
    rw [if_pos (by rw [hpr, hp]; rfl)]

/-- An access is refused at a leaf that does not permit it. -/
theorem access_eq_none (hd : entryFrame d = d) (h : walk ram d v = some e)
    (hp : permits mask e = false) : access mask ram d v = none := by
  rw [Option.eq_none_iff_forall_ne_some]
  intro e' he'
  obtain ⟨h1, h2, -⟩ := (access_eq_some hd).mp he'
  rw [h, Option.some.injEq] at h1
  rw [← h1, hp] at h2
  cases h2

/-- Nothing is on the way when entry `pml4` is absent. -/
theorem grants_of_missing (h : tableAt ram d [pml4Index v] = none) : Grants mask ram d v := by
  intro i p hs t ht hpr
  rcases suffix_pathOf_iff.mp hs with ⟨rfl, rfl⟩ | ⟨rfl, rfl⟩ | ⟨rfl, rfl⟩
  · cases ht
    rw [tableAt, tableAt, Option.bind_some, childTable, if_pos hpr] at h
    cases h
  · rw [h] at ht
    cases ht
  · rw [tableAt_cons, h] at ht
    cases ht

/-! ### Linking tables and writing leaves -/

/-- A suffix of a valid path is a valid path. -/
theorem ValidPath.suffix {q : List Nat} (h : ValidPath p) (hs : q <:+ p) : ValidPath q :=
  ⟨hs.length_le.trans h.1, fun i hi => h.2 i (hs.subset hi)⟩

theorem suffix_pathOf_length (hs : (i :: p) <:+ pathOf v) : p.length ≤ 2 := by
  have := hs.length_le
  rw [List.length_cons, pathOf] at this
  simp only [List.length_cons, List.length_nil] at this
  omega

theorem Forest.grants_congr {ram' : Mem} (H : Forest ram dirs top)
    (h : ∀ a < top, ram' a = ram a) (hd : d ∈ dirs) :
    Grants mask ram' d v ↔ Grants mask ram d v := by
  refine forall_congr' fun j => forall_congr' fun q => forall_congr' fun hs => ?_
  have hq := (validPath_pathOf v).suffix hs
  rw [(H.congr h).1 d hd q hq.tail]
  refine forall_congr' fun t => forall_congr' fun ht => ?_
  have hT := H.table d hd q hq.tail t ht
  have hj := hq.2 j List.mem_cons_self
  have hent : tableEntry ram' t j = tableEntry ram t j :=
    load_congr fun k hk => h _ (by omega)
  rw [hent]

/-- A leaf entry is on no way to a leaf. -/
theorem Forest.grants_leaf (H : Forest ram dirs top) (hd : d ∈ dirs)
    (ht : tableAt ram d (pathOf v) = some t) (he : e < 2 ^ 64) (hd' : d' ∈ dirs) :
    Grants mask (store ram 8 (t + 8 * pteIndex v) e) d' v' ↔ Grants mask ram d' v' := by
  have hv := validPath_pathOf v
  refine forall_congr' fun i => forall_congr' fun p => forall_congr' fun hs => ?_
  have hp := (validPath_pathOf v').suffix hs
  rw [H.tableAt_leaf hd ht he hd' hp.tail]
  refine forall_congr' fun t' => forall_congr' fun ht' => ?_
  have hne : t' ≠ t := by
    rintro rfl
    have h1 := (H.inj d hd d' hd' _ _ hv hp.tail t' ht ht').1
    have h2 := suffix_pathOf_length hs
    rw [← h1] at h2
    simp [pathOf] at h2
  rw [Forest.tableEntry_store (H.table d hd _ hv t ht).1 (H.table d' hd' p hp.tail t' ht').1
    (pteIndex_lt v) (hp.2 i (by simp)) he, if_neg fun h => hne h.1]

/-- A new table that is linked with the bits of `mask` changes nothing of what is granted: below it
nothing is present. -/
theorem Forest.grants_link (H : Forest ram dirs top) (hd : d ∈ dirs) (hp : ValidPath (i :: p))
    (ht : tableAt ram d p = some t) (habs : Coronel.present (tableEntry ram t i) = false)
    (h₀ : t₀ % 4096 = 0) (htop : top ≤ t₀) (hwin : t₀ + 4096 ≤ directMapSize)
    (hf : f < 4096) (hf1 : f % 2 = 1) (hmask : mask < 4096) (hgrant : permits mask f = true)
    (hd' : d' ∈ dirs) : Grants mask (Forest.link ram t i t₀ f) d' v' ↔ Grants mask ram d' v' := by
  have hgb := directMapSize_eq
  have hT := H.table d hd p hp.tail t ht
  have hi := hp.2 i (by simp)
  have key := fun q (hq : ValidPath q) => H.tableAt_link hd hp ht habs h₀ htop hwin hf hf1 hd' hq
  constructor
  · intro h j q hs t' ht' hpr
    have hq := (validPath_pathOf v').suffix hs
    have hT' := H.table d' hd' q hq.tail t' ht'
    have hent := tableEntry_link ram (f := f) hT.1 hT'.1 h₀ hi (hq.2 j (by simp)) (by omega)
    have hold : ¬(q = i :: p ∧ (d' = d ∨ p.getLast? = some 511)) := by
      rintro ⟨rfl, hs'⟩
      have : tableAt ram d' p = some t := by
        rcases hs' with rfl | hs'
        · exact ht
        · rw [H.shared hd' hd hs', ht]
      rw [tableAt_cons, this, Option.bind_some, childTable_of_absent habs] at ht'
      cases ht'
    have hne : ¬(t' = t ∧ j = i) := by
      rintro ⟨rfl, rfl⟩
      rw [habs] at hpr
      cases hpr
    rw [if_neg hne, if_neg (by omega)] at hent
    have := h j q hs t' (by rw [key q hq.tail, if_neg hold, ht'])
    rw [hent] at this
    exact this hpr
  · intro h j q hs t' ht' hpr
    have hq := (validPath_pathOf v').suffix hs
    rw [key q hq.tail] at ht'
    split at ht'
    · -- the new table is empty
      cases ht'
      rw [tableEntry_link _ hT.1 h₀ h₀ hi (hq.2 j (by simp)) (by omega), if_neg (by omega),
        if_pos rfl] at hpr
      cases hpr
    · have hT' := H.table d' hd' q hq.tail t' ht'
      rw [tableEntry_link _ hT.1 hT'.1 h₀ hi (hq.2 j (by simp)) (by omega)] at hpr ⊢
      by_cases hhit : t' = t ∧ j = i
      · rw [if_pos hhit, permits_add h₀ hf hmask, hgrant]
      · rw [if_neg hhit, if_neg (by omega)] at hpr ⊢
        exact h j q hs t' ht' hpr

/-! ### get_page and map -/

open Paging

/-- What one level of `get_page` does to memory: nothing, or it links a new table. -/
theorem nextTable_ram {r : Option Nat} (H : Tables dirs s) (hd : d ∈ dirs) (hp : ValidPath (i :: p))
    (ht : tableAt s.ram d p = some t) (hf : f < 4096)
    (h : (nextTable (kvirtualAddress + t) i f true).run s = (.ok r, s')) :
    s'.ram = s.ram ∨ present (tableEntry s.ram t i) = false ∧
      ∃ t₀, t₀ % 4096 = 0 ∧ s.placement - kvirtualAddress ≤ t₀ ∧ t₀ + 4096 ≤ directMapSize ∧
        s'.ram = Forest.link s.ram t i t₀ f := by
  have hw := H.forest.window
  have hi := hp.2 i (by simp)
  have hT := H.forest.table d hd p hp.tail t ht
  rw [nextTable, slot_eq (by omega) hi, sizeofTable,
    Prog.run_bind_ok (run_loadDirect (by omega) s)] at h
  rw [show load s.ram 8 (t + 8 * i) = tableEntry s.ram t i from rfl] at h
  rcases hpr : present (tableEntry s.ram t i)
  · obtain ⟨t₀, h1, h2, h3, h4, hrun⟩ :=
      run_placementKallocPaddr 4096 (Nat.le_refl _) H.base H.bound
    rw [hpr, if_pos (by simp), Prog.run_bind_ok hrun] at h
    by_cases hfit : t₀ + 4096 ≤ directMapSize
    · rw [Prog.run_bind_ok (run_zeroDirect hfit _),
        Prog.run_bind_ok (run_storeDirect (by omega) _),
        Prog.run_bind_ok (run_loadDirect (by omega) _), or_flags h2 hf] at h
      cases h
      exact .inr ⟨rfl, t₀, h2, h3, hfit, rfl⟩
    · rw [zeroDirect, window_eq_none (by omega)] at h
      cases h
  · rw [hpr, if_neg (by simp), if_neg (by simp)] at h
    cases h
    exact .inl rfl

theorem nextTable_grants {r : Option Nat} (H : Tables dirs s) (hd : d ∈ dirs)
    (hp : ValidPath (i :: p)) (ht : tableAt s.ram d p = some t) (hf : f < 4096) (hf1 : f % 2 = 1)
    (hmask : mask < 4096) (hgrant : permits mask f = true)
    (h : (nextTable (kvirtualAddress + t) i f true).run s = (.ok r, s')) (hd' : d' ∈ dirs) :
    Grants mask s'.ram d' v' ↔ Grants mask s.ram d' v' := by
  rcases nextTable_ram H hd hp ht hf h with h1 | ⟨habs, t₀, h2, h3, h4, h1⟩
  · rw [h1]
  · rw [h1]
    exact H.forest.grants_link hd hp ht habs h2 h3 h4 hf hf1 hmask hgrant hd'

/-- What each level of `get_page` keeps, `get_page` keeps. -/
theorem getPage_rel {R : Machine → Machine → Prop} {r flags : Nat} (H : Tables dirs s)
    (hd : d ∈ dirs) (htrans : ∀ a b c, R a b → R b c → R a c)
    (hlevel : ∀ a b i p t r, Tables dirs a → ValidPath (i :: p) → tableAt a.ram d p = some t →
      (nextTable (kvirtualAddress + t) i (dirFlags flags) true).run a = (.ok r, b) → R a b)
    (h : (getPage d v flags true).run s = (.ok r, s')) : R s s' := by
  obtain ⟨hf, hf1⟩ := dirFlags_spec flags
  have hv3 := validPath_pathOf v
  have hv2 := hv3.tail
  have hv1 := hv2.tail
  have haddr : address d = kvirtualAddress + d := by
    have h1 := H.forest.entryFrame_dir hd
    have h2 := H.forest.dir hd
    have h3 := H.forest.window
    have := directMapSize_eq
    rw [address_eq (by omega) (by omega), h1]
  rw [getPage, haddr, Prog.run_bind_eq_ok] at h
  obtain ⟨r1, s1, h1, h⟩ := h
  obtain ⟨⟨t1, rfl, ht1⟩, -, hg1⟩ :=
    (nextTable_safe (C := ⊤) H hd hv1 rfl hf hf1).ok h1 trivial
  rw [Prog.run_bind_eq_ok] at h
  obtain ⟨r2, s2, h2, h⟩ := h
  obtain ⟨⟨t2, rfl, ht2⟩, -, hg2⟩ :=
    (nextTable_safe (C := ⊤) hg1.tables hd hv2 ht1 hf hf1).ok h2 trivial
  rw [Prog.run_bind_eq_ok] at h
  obtain ⟨r3, s3, h3, h⟩ := h
  obtain ⟨⟨t3, rfl, ht3⟩, -, -⟩ :=
    (nextTable_safe (C := ⊤) hg2.tables hd hv3 ht2 hf hf1).ok h3 trivial
  cases h
  apply htrans s s2 s' (htrans s s1 s2 ?_ ?_)
  · exact hlevel s2 s' _ _ _ _ hg2.tables hv3 ht2 h3
  · exact hlevel s s1 _ _ _ _ H hv1 rfl h1
  · exact hlevel s1 s2 _ _ _ _ hg1.tables hv2 ht1 h2

/-- `get_page` grants on the way what was granted, when its own tables grant it. -/
theorem getPage_grants {r flags : Nat} (H : Tables dirs s) (hd : d ∈ dirs) (hmask : mask < 4096)
    (hgrant : permits mask (dirFlags flags) = true)
    (h : (getPage d v flags true).run s = (.ok r, s')) (hd' : d' ∈ dirs) :
    Grants mask s'.ram d' v' ↔ Grants mask s.ram d' v' := by
  obtain ⟨hf, hf1⟩ := dirFlags_spec flags
  refine getPage_rel (R := fun a b => Grants mask b.ram d' v' ↔ Grants mask a.ram d' v') H hd
    (fun a b c h1 h2 => h2.trans h1) (fun a b i p t r Ha hp ht hrun => ?_) h
  exact nextTable_grants Ha hd hp ht hf hf1 hmask hgrant hrun hd'

theorem map_grants {flags : Nat} {r : Int} {paddr : Nat} (H : Tables dirs s) (hd : d ∈ dirs)
    (hmask : mask < 4096) (hgrant : permits mask (dirFlags flags) = true)
    (h : (Paging.map d v paddr flags).run s = (.ok r, s')) (hd' : d' ∈ dirs) :
    Grants mask s'.ram d' v' ↔ Grants mask s.ram d' v' := by
  rw [Paging.map, Prog.run_bind_eq_ok] at h
  obtain ⟨page, s1, h1, h⟩ := h
  obtain ⟨⟨t, rfl, ht⟩, hg⟩ := (getPage_safe (C := ⊤) H hd v flags).ok h1 trivial
  have hF := hg.tables.forest
  have hwin := hF.window
  have hT := hF.table d hd _ (validPath_pathOf v) t ht
  rw [if_neg (by rw [kvirtualAddress_eq]; omega), slot_eq (by omega) (pteIndex_lt v),
    Prog.run_bind_ok (run_storeDirect (by have := pteIndex_lt v; omega) s1)] at h
  cases h
  rw [← getPage_grants H hd hmask hgrant h1 hd']
  exact hF.grants_leaf hd ht (leafEntry_lt paddr flags) hd'

/-! ### A mapping for the kernel -/

/-- `get_page` keeps the entries that are present on any way. -/
theorem nextTable_keeps {r : Option Nat} {q : List Nat} {t' j : Nat} (H : Tables dirs s)
    (hd : d ∈ dirs) (hp : ValidPath (i :: p)) (ht : tableAt s.ram d p = some t) (hf : f < 4096)
    (h : (nextTable (kvirtualAddress + t) i f true).run s = (.ok r, s')) (hq : ValidPath (j :: q))
    (ht' : tableAt s.ram d q = some t') (hpr : present (tableEntry s.ram t' j) = true) :
    tableEntry s'.ram t' j = tableEntry s.ram t' j := by
  rcases nextTable_ram H hd hp ht hf h with h1 | ⟨habs, t₀, h2, h3, h4, h1⟩
  · rw [h1]
  · have hT := H.forest.table d hd p hp.tail t ht
    have hT' := H.forest.table d hd q hq.tail t' ht'
    have hgb := directMapSize_eq
    have hne : ¬(t' = t ∧ j = i) := by
      rintro ⟨rfl, rfl⟩
      rw [habs] at hpr
      cases hpr
    rw [h1, Forest.tableEntry_link _ hT.1 hT'.1 h2 (hp.2 i (by simp)) (hq.2 j (by simp)) (by omega),
      if_neg hne, if_neg (by omega)]

/-- The first mapping below an entry of `pml4` decides for its 512 GB: a mapping for the kernel
grants ring 3 nothing there. -/
theorem map_denies {flags : Nat} {r : Int} {paddr : Nat} (H : Tables dirs s) (hd : d ∈ dirs)
    (hflags : flags / 4 % 2 = 0) (hmiss : tableAt s.ram d [pml4Index v] = none)
    (h : (Paging.map d v paddr flags).run s = (.ok r, s')) (hv : pml4Index v' = pml4Index v) :
    ¬Grants userBit s'.ram d v' := by
  obtain ⟨hf, hf1⟩ := dirFlags_spec flags
  have hv3 := validPath_pathOf v
  have hv2 := hv3.tail
  have hv1 := hv2.tail
  have hgb := directMapSize_eq
  have hdir := H.forest.dir hd
  have hwin := H.forest.window
  have haddr : address d = kvirtualAddress + d := by
    have h1 := H.forest.entryFrame_dir hd
    rw [address_eq (by omega) (by omega), h1]
  have hdeny : permits userBit (dirFlags flags) = false := by
    have hbit : ¬flags &&& 0x04 ≠ 0 := by
      rw [show 0x04 = 2 ^ 2 from rfl, Nat.and_two_pow, Nat.toNat_testBit]
      omega
    rw [dirFlags, if_neg hbit]
    decide
  rw [Paging.map, Prog.run_bind_eq_ok] at h
  obtain ⟨page, s4, h4, h⟩ := h
  rw [getPage, haddr, Prog.run_bind_eq_ok] at h4
  obtain ⟨r1, s1, h1, h4⟩ := h4
  obtain ⟨⟨t1, rfl, ht1⟩, -, hg1⟩ :=
    (nextTable_safe (C := ⊤) H hd hv1 rfl hf hf1).ok h1 trivial
  rw [Prog.run_bind_eq_ok] at h4
  obtain ⟨r2, s2, h2, h4⟩ := h4
  obtain ⟨⟨t2, rfl, ht2⟩, -, hg2⟩ :=
    (nextTable_safe (C := ⊤) hg1.tables hd hv2 ht1 hf hf1).ok h2 trivial
  rw [Prog.run_bind_eq_ok] at h4
  obtain ⟨r3, s3, h3, h4⟩ := h4
  obtain ⟨⟨t3, rfl, ht3⟩, -, hg3⟩ :=
    (nextTable_safe (C := ⊤) hg2.tables hd hv3 ht2 hf hf1).ok h3 trivial
  cases h4
  -- the first level created the entry of `pml4`
  have hfirst : ∃ t₀, t₀ % 4096 = 0 ∧
      tableEntry s1.ram d (pml4Index v) = t₀ + dirFlags flags := by
    rcases nextTable_ram H hd hv1 rfl hf h1 with hsame | ⟨habs, t₀, h5, h6, h7, h8⟩
    · rw [hsame, hmiss] at ht1
      cases ht1
    · refine ⟨t₀, h5, ?_⟩
      rw [h8, Forest.tableEntry_link _ hdir.1 hdir.1 h5 (hv1.2 _ (by simp)) (hv1.2 _ (by simp)) (by omega),
        if_pos ⟨rfl, rfl⟩]
  obtain ⟨t₀, h5, he⟩ := hfirst
  have hpr : present (t₀ + dirFlags flags) = true := by
    rw [present_iff]
    omega
  have he2 := nextTable_keeps hg1.tables hd hv2 ht1 hf h2 hv1 rfl (he ▸ hpr)
  have he3 := nextTable_keeps hg2.tables hd hv3 ht2 hf h3 hv1 rfl (he2 ▸ he ▸ hpr)
  have hT3 := hg3.tables.forest.table d hd _ hv3 t3 ht3
  have hw3 := hg3.tables.forest.window
  have hi := pteIndex_lt v
  rw [if_neg (by rw [kvirtualAddress_eq]; omega), slot_eq (by omega) hi,
    Prog.run_bind_ok (run_storeDirect (by omega) s4)] at h
  cases h
  rw [hg3.tables.forest.grants_leaf hd ht3 (leafEntry_lt paddr flags) hd]
  intro hgrants
  have := hgrants (pml4Index v') [] (suffix_pathOf_iff.mpr (.inl ⟨rfl, rfl⟩)) d rfl
  rw [hv, he3, he2, he, permits_add h5 hf (by decide), hdeny] at this
  cases this hpr

/-! ### Ring 3 -/

namespace Paging

/-- What the flags of a mapping say about ring 3: with `PRESENT` and `USER` it can access the page,
without `USER` it cannot. -/
def UserContract (ram : Mem) (d v flags : Nat) : Prop :=
  (flags % 2 = 1 → flags / 4 % 2 = 1 → access userBit ram d v ≠ none) ∧
  (flags / 4 % 2 = 0 → access userBit ram d v = none)

/-- **User access.** In every directory of every reachable state, a mapping keeps what its flags say
about ring 3 exactly when a user mapping finds the user bit in all entries that are present on its
way. -/
theorem Run.userContract_iff {boot : Machine} (hb : Booted boot) (h : Run boot dirs s)
    (hd : d ∈ dirs) {paddr flags : Nat} {r : Int}
    (hrun : (Paging.map d v paddr flags).run s = (.ok r, s')) :
    UserContract s'.ram d v flags ↔
      (flags % 2 = 1 → flags / 4 % 2 = 1 → Grants userBit s.ram d v) := by
  obtain ⟨H, -⟩ := h.tables hb
  obtain ⟨-, H', hset⟩ := map_spec H hd hrun
  have hdir := H'.forest.entryFrame_dir hd
  have hwalk : walk s'.ram d v = mappedLeaf paddr flags := by
    rw [hset d hd v, if_pos ⟨rfl, .inl rfl⟩]
  have hleaf : permits userBit (leafEntry paddr flags) = true ↔ flags / 4 % 2 = 1 := by
    rw [permits_userBit_iff, leafEntry_eq]
    omega
  have hno : flags / 4 % 2 = 0 → access userBit s'.ram d v = none := by
    intro huser
    rw [Option.eq_none_iff_forall_ne_some]
    intro e he
    obtain ⟨h1, h2, -⟩ := (access_eq_some hdir).mp he
    rw [hwalk, mappedLeaf] at h1
    split at h1
    · cases h1
      rw [hleaf] at h2
      omega
    · cases h1
  refine ⟨fun hc hp hu => ?_, fun hc => ⟨fun hp hu => ?_, hno⟩⟩
  · obtain ⟨e, he⟩ := Option.ne_none_iff_exists'.mp (hc.1 hp hu)
    exact (map_grants H hd (by decide) (permits_dirFlags hu) hrun hd).mp
      ((access_eq_some hdir).mp he).2.2
  · have hg := (map_grants H hd (by decide) (permits_dirFlags hu) hrun hd).mpr (hc hp hu)
    rw [mappedLeaf, if_pos hp] at hwalk
    rw [(access_eq_some hdir).mpr ⟨hwalk, hleaf.mpr hu, hg⟩]
    exact Option.some_ne_none _

/-- The boot directory has nothing below entry 0. -/
theorem tableAt_bootMachine : tableAt (bootMachine (mb 5)).ram (mb 2) [0] = none := by
  have hb : Booted (bootMachine (mb 5)) := booted_bootMachine (by decide) (by decide)
  have he := hb.tableEntry (k := 0) (i := 0) (by decide) (by decide)
  rw [tableAt, tableAt, Option.bind_some]
  refine childTable_of_absent ?_
  change present (tableEntry (bootMachine (mb 5)).ram (mb 2 + 4096 * 0) 0) = false
  rw [show mb 2 = (bootMachine (mb 5)).cr3 from rfl, he]
  decide

/-- Five megabytes of the window are enough for a mapping. -/
theorem exists_map_run (H : Tables dirs s) (hd : d ∈ dirs)
    (hpl : s.placement ≤ kvirtualAddress + mb 6) (v paddr flags : Nat) :
    ∃ s', (Paging.map d v paddr flags).run s = (.ok 0, s') ∧ s'.placement ≤ s.placement + 16384 := by
  have hm := missingTables_le s.ram d v
  have hlt := H.placement_lt
  have h1 := @afterTables_le s.placement _ (by omega) hm
  obtain ⟨r, s', hrun, rfl, -, -, -, hpl'⟩ := (map_safe (C := ⊤) H hd v paddr flags).exists_ok
    trivial fun e he => by
      have h2 := he.2
      have h3 : kvirtualAddress + mb 6 + 16384 ≤ kvirtualAddress + directMapSize := by decide
      omega
  exact ⟨s', hrun, by omega⟩

theorem Run.userContract_iff_boot :
    ∃ s', (Paging.map (mb 2) 0x8000000 0x900000 0x07).run (bootMachine (mb 5)) = (.ok 0, s') ∧
      access userBit s'.ram (mb 2) 0x8000000 ≠ none := by
  have hb : Booted (bootMachine (mb 5)) := booted_bootMachine (by decide) (by decide)
  have hd : mb 2 ∈ [(bootMachine (mb 5)).cr3] := List.mem_singleton.mpr rfl
  obtain ⟨s', hrun, -⟩ := exists_map_run hb.tables hd (by decide) 0x8000000 0x900000 0x07
  exact ⟨s', hrun, ((Run.userContract_iff hb .boot hd hrun).mpr fun _ _ =>
    grants_of_missing tableAt_bootMachine).1 rfl rfl⟩

/-- A page of the kernel at 0x8000000, then a user page behind it. -/
theorem Run.not_userContract_behind : ¬∀ boot dirs s d v paddr flags r s', Booted boot →
    Run boot dirs s → d ∈ dirs → (Paging.map d v paddr flags).run s = (.ok r, s') →
    UserContract s'.ram d v flags := by
  intro hall
  have hb : Booted (bootMachine (mb 5)) := booted_bootMachine (by decide) (by decide)
  have hd : mb 2 ∈ [(bootMachine (mb 5)).cr3] := List.mem_singleton.mpr rfl
  obtain ⟨s1, h1, hpl⟩ := exists_map_run hb.tables hd (by decide) 0x8000000 0x900000 0x03
  have hR1 : Run (bootMachine (mb 5)) _ s1 := Run.map .boot hd h1
  obtain ⟨H1, -⟩ := hR1.tables hb
  obtain ⟨s2, h2, -⟩ := exists_map_run H1 hd
    (hpl.trans (show kvirtualAddress + mb 5 + 16384 ≤ kvirtualAddress + mb 6 by
      rw [Nat.add_assoc]
      exact Nat.add_le_add_left (by decide) _)) 0x8001000 0x901000 0x07
  obtain ⟨e, he⟩ := Option.ne_none_iff_exists'.mp
    ((hall _ _ _ _ _ _ _ _ _ hb hR1 hd h2).1 rfl rfl)
  have H2 := (map_spec H1 hd h2).2.1
  have hg := ((access_eq_some (H2.forest.entryFrame_dir hd)).mp he).2.2
  rw [map_grants H1 hd (by decide) (permits_dirFlags rfl) h2 hd] at hg
  exact map_denies (v := 0x8000000) hb.tables hd (by decide) tableAt_bootMachine h1 rfl hg

end Paging
end
end Coronel
