import Coronel.Kernel.Boot
import Coronel.Verify.Paging

/-!
# Directories in a run

The states reached from boot by creating directories, switching between them, mapping and
unmapping. Each such state has its tables in a `Forest`, so what one operation does to the walks of
every directory is known, and below entry 511 all directories agree at all times.
-/

namespace Coronel

open Theory Theory.Bytes

/-! ### The boot directory -/

namespace Booted

variable {s : Machine}

theorem tableEntry (H : Booted s) {k i : Nat} (hk : k < 515) (hi : i < 512) :
    tableEntry s.ram (s.cr3 + 4096 * k) i = bootEntry s.cr3 (512 * k + i) := by
  rw [← H.entry (512 * k + i) (by omega), Coronel.tableEntry]
  congr 1
  omega

theorem cr3_lt (H : Booted s) : s.cr3 + 515 * 4096 ≤ directMapSize := by
  have h1 := H.image
  have h2 := H.window
  omega

/-- The present entries above the page tables. -/
theorem childTable_eq (H : Booted s) {k i t : Nat} (hk : k < 3) (hi : i < 512)
    (h : childTable s.ram (s.cr3 + 4096 * k) i = some t) :
    k = 0 ∧ i = 511 ∧ t = s.cr3 + 4096 * 1 ∨ k = 1 ∧ i = 510 ∧ t = s.cr3 + 4096 * 2 ∨
      k = 2 ∧ t = s.cr3 + 4096 * (3 + i) := by
  have ha := H.aligned
  have hc := H.cr3_lt
  rw [directMapSize_eq] at hc
  rw [childTable_eq_some, H.tableEntry (by omega) hi, present_iff, entryFrame_eq, bootEntry] at h
  split at h
  · omega
  split at h
  · omega
  split at h
  · omega
  split at h
  · omega
  · omega

/-- The tables of the boot directory, by path. -/
theorem tableAt_cases (H : Booted s) {p : List Nat} (hp : ValidPath p) {t : Nat}
    (ht : tableAt s.ram s.cr3 p = some t) :
    p = [] ∧ t = s.cr3 ∨ p = [511] ∧ t = s.cr3 + 4096 * 1 ∨
      p = [510, 511] ∧ t = s.cr3 + 4096 * 2 ∨
      ∃ k < 512, p = [k, 510, 511] ∧ t = s.cr3 + 4096 * (3 + k) := by
  induction p generalizing t with
  | nil => cases ht; exact .inl ⟨rfl, rfl⟩
  | cons i p ih =>
    have hi := hp.2 i (by simp)
    rw [tableAt_cons, Option.bind_eq_some_iff] at ht
    obtain ⟨t', h1, h2⟩ := ht
    obtain ⟨rfl, rfl⟩ | ⟨rfl, rfl⟩ | ⟨rfl, rfl⟩ | ⟨k, hk, rfl, rfl⟩ := ih hp.tail h1
    · rcases H.childTable_eq (k := 0) (by decide) hi h2 with h | h | h
      · obtain ⟨-, rfl, rfl⟩ := h
        exact .inr (.inl ⟨rfl, rfl⟩)
      · omega
      · omega
    · rcases H.childTable_eq (k := 1) (by decide) hi h2 with h | h | h
      · omega
      · obtain ⟨-, rfl, rfl⟩ := h
        exact .inr (.inr (.inl ⟨rfl, rfl⟩))
      · omega
    · rcases H.childTable_eq (k := 2) (by decide) hi h2 with h | h | h
      · omega
      · omega
      · exact .inr (.inr (.inr ⟨i, hi, rfl, h.2⟩))
    · exact absurd hp.1 (by simp)

/-- The boot tables form a forest of one directory. -/
theorem tables (H : Booted s) : Tables [s.cr3] s := by
  have ha := H.aligned
  have hc := H.cr3_lt
  have him := H.image
  have hw := H.window
  have hgb := directMapSize_eq
  have hkv := kvirtualAddress_eq
  -- the place of a table determines its path
  have hinj : ∀ p p', ValidPath p → ValidPath p' → ∀ t, tableAt s.ram s.cr3 p = some t →
      tableAt s.ram s.cr3 p' = some t → p = p' := by
    intro p p' hp hp' t h h'
    rcases H.tableAt_cases hp h with h | h | h | ⟨k, hk, h⟩ <;>
      rcases H.tableAt_cases hp' h' with h' | h' | h' | ⟨k', hk', h'⟩ <;>
        obtain ⟨rfl, h1⟩ := h <;> obtain ⟨rfl, h2⟩ := h' <;> first | rfl | omega | skip
    rw [show k = k' by omega]
  have hpres : present (Coronel.tableEntry s.ram s.cr3 511) = true := by
    have := H.tableEntry (k := 0) (i := 511) (by decide) (by decide)
    rw [Nat.mul_zero, Nat.add_zero] at this
    rw [this, present_iff, bootEntry, if_pos rfl]
    omega
  refine ⟨⟨by omega, ?_, ?_, ?_, ?_, ?_⟩, by omega, by simp⟩
  · intro d hd p hp t ht
    rw [List.mem_singleton.mp hd] at ht
    rcases H.tableAt_cases hp ht with ⟨-, rfl⟩ | ⟨-, rfl⟩ | ⟨-, rfl⟩ | ⟨k, hk, -, rfl⟩ <;> omega
  · intro d hd p hp hl t ht i hi hpr
    rw [List.mem_singleton.mp hd] at ht
    have hbig : ∀ k < 3, Coronel.tableEntry s.ram (s.cr3 + 4096 * k) i < 2 ^ 52 := by
      intro k hk
      rw [H.tableEntry (by omega) hi, bootEntry]
      split
      · omega
      split
      · omega
      split
      · omega
      split <;> omega
    rcases H.tableAt_cases hp ht with ⟨-, rfl⟩ | ⟨-, rfl⟩ | ⟨-, rfl⟩ | ⟨k, hk, rfl, -⟩
    · exact hbig 0 (by decide)
    · exact hbig 1 (by decide)
    · exact hbig 2 (by decide)
    · simp at hl
  · intro d hd d' hd' p p' hp hp' t h h'
    rw [List.mem_singleton.mp hd] at h ⊢
    rw [List.mem_singleton.mp hd'] at h' ⊢
    exact ⟨hinj p p' hp hp' t h h', .inl rfl⟩
  · intro d hd d' hd'
    rw [List.mem_singleton.mp hd, List.mem_singleton.mp hd']
  · intro d hd
    rwa [List.mem_singleton.mp hd]

/-- The boot directory maps the kernel's window onto physical memory. -/
theorem walk_window (H : Booted s) {p : Nat} (hp : p < directMapSize) :
    walk s.ram s.cr3 (kvirtualAddress + p) = some (p / 4096 * 4096 + 0x7) := by
  have ha := H.aligned
  have hc := H.cr3_lt
  have hd := H.tables.forest.entryFrame_dir (List.mem_singleton.mpr rfl)
  have hkv := kvirtualAddress_eq
  rw [directMapSize_eq] at hp hc
  have h1 : pml4Index (kvirtualAddress + p) = 511 := by rw [pml4Index_eq]; omega
  have h2 : pdptIndex (kvirtualAddress + p) = 510 := by rw [pdptIndex_eq]; omega
  have h3 : pdeIndex (kvirtualAddress + p) = p / 2 ^ 21 := by rw [pdeIndex_eq]; omega
  have h4 : pteIndex (kvirtualAddress + p) = p / 4096 % 512 := by rw [pteIndex_eq]; omega
  -- one step down: a present entry leads to its frame
  have hstep : ∀ k i t, k < 515 → i < 512 → bootEntry s.cr3 (512 * k + i) = t + 3 →
      t % 4096 = 0 → t < 2 ^ 52 → childTable s.ram (s.cr3 + 4096 * k) i = some t := by
    intro k i t hk hi he ht hlt
    rw [childTable_eq_some, H.tableEntry hk hi, he, present_iff, entryFrame_eq]
    omega
  have hleaf : Coronel.tableEntry s.ram (s.cr3 + 4096 * (3 + p / 2 ^ 21)) (p / 4096 % 512) =
      p / 4096 * 4096 + 0x7 := by
    rw [H.tableEntry (by omega) (by omega), bootEntry, if_neg (by omega), if_neg (by omega),
      if_neg (by omega), if_pos (by omega)]
    omega
  have ht1 := hstep 0 511 (s.cr3 + 4096 * 1) (by decide) (by decide)
    (by rw [bootEntry, if_pos (by decide)]) (by omega) (by omega)
  have ht2 := hstep 1 510 (s.cr3 + 4096 * 2) (by decide) (by decide)
    (by rw [bootEntry, if_neg (by decide), if_pos (by decide)]) (by omega) (by omega)
  have ht3 := hstep 2 (p / 2 ^ 21) (s.cr3 + 4096 * (3 + p / 2 ^ 21)) (by decide) (by omega)
    (by rw [bootEntry, if_neg (by omega), if_neg (by omega), if_pos (by omega)]; omega)
    (by omega) (by omega)
  rw [Nat.mul_zero, Nat.add_zero] at ht1
  rw [walk, hd, h1, h2, h3, h4, ht1]
  simp only [Option.bind_eq_bind, Option.bind_some, ht2, ht3, hleaf]
  rw [if_pos (present_iff.mpr (by omega))]

end Booted

/-! ### Runs -/

namespace Paging

/-- The states reached from `boot`, with the directories made so far. -/
inductive Run (boot : Machine) : List Nat → Machine → Prop
  | boot : Run boot [boot.cr3] boot
  | create {dirs s s' d} : Run boot dirs s → createPageDirectory.run s = (.ok d, s') → d ≠ 0 →
    Run boot (d :: dirs) s'
  | createUser {dirs s s' d} : Run boot dirs s → createUserPageDirectory.run s = (.ok d, s') →
    d ≠ 0 → Run boot (d :: dirs) s'
  | switch {dirs s s' d} : Run boot dirs s → d ∈ dirs →
    (setPageDirectory d).run s = (.ok (), s') → Run boot dirs s'
  | map {dirs s s' d v p flags r} : Run boot dirs s → d ∈ dirs →
    (Paging.map d v p flags).run s = (.ok r, s') → Run boot dirs s'
  | unmap {dirs s s' d v} : Run boot dirs s → d ∈ dirs →
    (Paging.unmap d v).run s = (.ok (), s') → Run boot dirs s'

theorem map_spec {dirs : List Nat} {s s' : Machine} {d v p flags : Nat} {r : Int}
    (H : Tables dirs s) (hd : d ∈ dirs) (h : (Paging.map d v p flags).run s = (.ok r, s')) :
    r = 0 ∧ Tables dirs s' ∧ SetLeaf dirs d v (mappedLeaf p flags) s s' := by
  obtain ⟨h1, h2, -, h3, -⟩ := (map_safe (C := ⊤) H hd v p flags).ok h trivial
  exact ⟨h1, h2, h3⟩

theorem unmap_spec {dirs : List Nat} {s s' : Machine} {d v : Nat} (H : Tables dirs s)
    (hd : d ∈ dirs) (h : (Paging.unmap d v).run s = (.ok (), s')) :
    Tables dirs s' ∧ SetLeaf dirs d v none s s' := by
  obtain ⟨s'', hrun, -, -, h1, -, h2⟩ := unmap_run H hd v
  rw [hrun] at h
  cases h
  exact ⟨h1, h2⟩

theorem Run.tables {boot s : Machine} {dirs : List Nat} (hb : Booted boot)
    (h : Run boot dirs s) : Tables dirs s ∧ boot.cr3 ∈ dirs := by
  have hcreate : ∀ {dirs s s' d}, Tables dirs s → createPageDirectory.run s = (.ok d, s') →
      Tables (d :: dirs) s' := fun H h =>
    ((createPageDirectory_safe (C := ⊤) H).ok h trivial).2.2.1
  induction h with
  | boot => exact ⟨hb.tables, by simp⟩
  | create _ h _ ih => exact ⟨hcreate ih.1 h, List.mem_cons_of_mem _ ih.2⟩
  | createUser _ h _ ih =>
    rw [createUserPageDirectory_run] at h
    exact ⟨hcreate ih.1 h, List.mem_cons_of_mem _ ih.2⟩
  | switch _ hd h ih =>
    cases h
    exact ⟨⟨ih.1.forest, ih.1.base, hd⟩, ih.2⟩
  | map _ hd h ih => exact ⟨(map_spec ih.1 hd h).2.1, ih.2⟩
  | unmap _ hd h ih => exact ⟨(unmap_spec ih.1 hd h).1, ih.2⟩

/-- **`map` and `unmap`.** In every directory of every reachable state, `map` with the present bit
makes the walk of `v` end in the frame `p` with the requested permission bits, `unmap` makes it end
nowhere, and neither changes the walk of an address on another page. -/
theorem Run.map_unmap_walk {boot s : Machine} {dirs : List Nat} (hb : Booted boot)
    (h : Run boot dirs s) {d : Nat} (hd : d ∈ dirs) (v : Nat) :
    (∀ p flags, p % 4096 = 0 → p < 2 ^ 52 →
      (afterTables s.placement (missingTables s.ram d v) ≤ kvirtualAddress + directMapSize →
        ∃ s', (Paging.map d v p flags).run s = (.ok 0, s')) ∧
      ∀ r s', (Paging.map d v p flags).run s = (.ok r, s') →
        (flags % 2 = 1 → (∃ e, walk s'.ram d v = some e ∧ entryFrame e = p ∧ e % 8 = flags % 8) ∧
          translate s'.ram d v = some (p + v % 4096)) ∧
        ∀ v', v' % 2 ^ 48 / 4096 ≠ v % 2 ^ 48 / 4096 → walk s'.ram d v' = walk s.ram d v') ∧
    ∃ s', (Paging.unmap d v).run s = (.ok (), s') ∧ walk s'.ram d v = none ∧
      ∀ v', v' % 2 ^ 48 / 4096 ≠ v % 2 ^ 48 / 4096 → walk s'.ram d v' = walk s.ram d v' := by
  obtain ⟨H, -⟩ := h.tables hb
  refine ⟨fun p flags hp hlt => ⟨fun hroom => ?_, fun r s' hrun => ?_⟩, ?_⟩
  · obtain ⟨r, s', hrun, rfl, -⟩ := (map_safe (C := ⊤) H hd v p flags).exists_ok trivial
      fun e he => by have := he.2; omega
    exact ⟨s', hrun⟩
  · obtain ⟨-, -, hset⟩ := map_spec H hd hrun
    refine ⟨fun hf => ?_, fun v' hv' => ?_⟩
    · have hw : walk s'.ram d v = some (leafEntry p flags) := by
        rw [hset d hd v, if_pos ⟨rfl, .inl rfl⟩, mappedLeaf, if_pos hf]
      obtain ⟨h1, h2⟩ := entryFrame_leafEntry flags hp hlt
      refine ⟨⟨_, hw, h1, h2⟩, ?_⟩
      rw [translate, hw, Option.map_some, h1]
    · rw [hset d hd v', if_neg fun hc => hv' hc.1]
  · obtain ⟨s', hrun, -, -, -, -, hset⟩ := unmap_run H hd v
    refine ⟨s', hrun, ?_, fun v' hv' => ?_⟩
    · rw [hset d hd v, if_pos ⟨rfl, .inl rfl⟩]
    · rw [hset d hd v', if_neg fun hc => hv' hc.1]

theorem Run.map_unmap_walk_boot :
    (∃ s', (Paging.map (mb 2) 0x8000000 0x900000 0x07).run (bootMachine (mb 5)) = (.ok 0, s') ∧
      translate s'.ram (mb 2) 0x8000123 = some 0x900123) ∧
    ∃ s', (Paging.unmap (mb 2) kvirtualAddress).run (bootMachine (mb 5)) = (.ok (), s') ∧
      walk s'.ram (mb 2) kvirtualAddress = none := by
  have hb : Booted (bootMachine (mb 5)) := booted_bootMachine (by decide) (by decide)
  have hd : mb 2 ∈ [(bootMachine (mb 5)).cr3] := List.mem_singleton.mpr rfl
  refine ⟨?_, ?_⟩
  · obtain ⟨h1, h2⟩ := (Run.map_unmap_walk hb .boot hd 0x8000000).1 0x900000 0x07 (by decide)
      (by decide)
    have hm := missingTables_le (bootMachine (mb 5)).ram (mb 2) 0x8000000
    obtain ⟨s', hrun⟩ := h1 ((afterTables_mono (by decide) hm).trans (by decide))
    obtain ⟨⟨⟨e, h3, h4, -⟩, -⟩, -⟩ := (h2 0 s' hrun).imp_left fun h => h (by decide)
    refine ⟨s', hrun, ?_⟩
    rw [translate, walk_congr_page (show 0x8000123 % 2 ^ 48 / 4096 = 0x8000000 % 2 ^ 48 / 4096
      by decide), h3, Option.map_some, h4]
  · obtain ⟨s', h1, h2, -⟩ := (Run.map_unmap_walk hb .boot hd kvirtualAddress).2
    exact ⟨s', h1, h2⟩

/-- **Isolation and sharing.** An operation on one directory, at an address outside entry 511,
changes no walk of another directory; below entry 511 all directories, the boot directory among
them, have the same walks. -/
theorem Run.isolation {boot s : Machine} {dirs : List Nat} (hb : Booted boot)
    (h : Run boot dirs s) :
    (∀ d ∈ dirs, ∀ v, pml4Index v ≠ 511 → ∀ s',
      ((∃ p flags r, (Paging.map d v p flags).run s = (.ok r, s')) ∨
        (Paging.unmap d v).run s = (.ok (), s')) →
      ∀ d' ∈ dirs, d' ≠ d → ∀ v', walk s'.ram d' v' = walk s.ram d' v') ∧
    boot.cr3 ∈ dirs ∧
    ∀ d ∈ dirs, ∀ d' ∈ dirs, ∀ v, pml4Index v = 511 → walk s.ram d v = walk s.ram d' v := by
  obtain ⟨H, hboot⟩ := h.tables hb
  refine ⟨fun d hd v hv s' hop d' hd' hne v' => ?_, hboot, fun d hd d' hd' v hv =>
    H.forest.walk_shared hd hd' hv⟩
  have hset : ∃ leaf, SetLeaf dirs d v leaf s s' := by
    rcases hop with ⟨p, flags, r, hrun⟩ | hrun
    · exact ⟨_, (map_spec H hd hrun).2.2⟩
    · exact ⟨_, (unmap_spec H hd hrun).2⟩
  obtain ⟨leaf, hset⟩ := hset
  rw [hset d' hd' v', if_neg fun hc => hc.2.elim hne hv]

theorem Run.isolation_boot : ∃ d s', createPageDirectory.run (bootMachine (mb 5)) = (.ok d, s') ∧
    ∀ v, pml4Index v = 511 → walk s'.ram d v = walk s'.ram (mb 2) v := by
  have hb : Booted (bootMachine (mb 5)) := booted_bootMachine (by decide) (by decide)
  obtain ⟨d, s', hrun, hd, -⟩ := (createPageDirectory_safe (C := ⊤) hb.tables).exists_ok trivial
    fun e he => absurd he.2 (by decide)
  have h := Run.isolation hb (.create .boot hrun hd)
  exact ⟨d, s', hrun, h.2.2 d (by simp) (mb 2) h.2.1⟩

end Paging
end Coronel
