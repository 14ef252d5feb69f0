import Coronel.Kernel.Tlb
import Coronel.Verify.Directories

/-!
# The translation cache and the page tables

`map` and `unmap` flush the page of another address than the one they change, so a translation that
is cached for the changed page stays. `Harmless` says when no such translation is stale afterwards;
a run of harmless calls never holds a stale translation.
-/

namespace Coronel

open Theory Theory.Bytes

/-- No translation cached for the page of `vaddr` disagrees with the tables. -/
def Mmu.Coherent (mmu : Mmu) (vaddr : Nat) : Prop :=
  ∀ t ∈ mmu.tlb, t.page = pageOf vaddr → mmu.leaf vaddr = some t.entry

/-- The flush hits the page of the call, or no translation cached for that page is going to
disagree. `map` flushes the page at the address of the directory, `unmap` flushes page 0. -/
def Paging.Call.Harmless (mmu : Mmu) : Paging.Call → Prop
  | .map vaddr paddr flags => pageOf mmu.machine.cr3 = pageOf vaddr ∨
    ∀ t ∈ mmu.tlb, t.page = pageOf vaddr → mappedLeaf paddr flags = some t.entry
  | .unmap vaddr => (pageOf 0 = pageOf vaddr ∧ (mmu.leaf vaddr).isSome) ∨
    ∀ t ∈ mmu.tlb, t.page ≠ pageOf vaddr

namespace Mmu

/-- The states of the memory unit under accesses, calls on the current directory that meet `ok`, and
directory switches, from a state that some run of `paging` left. -/
inductive RunWhere (ok : Mmu → Paging.Call → Prop) (boot : Machine) (dirs : List Nat) : Mmu → Prop
  | load {s} : Paging.Run boot dirs s → RunWhere ok boot dirs ⟨s, []⟩
  | access {mmu} (vaddr : Nat) : RunWhere ok boot dirs mmu → RunWhere ok boot dirs (mmu.access vaddr)
  | write {mmu} (ram : Mem) : RunWhere ok boot dirs mmu →
    (∀ a < mmu.machine.placement - kvirtualAddress, ram a = mmu.machine.ram a) →
    RunWhere ok boot dirs { mmu with machine := { mmu.machine with ram := ram } }
  | call {mmu mmu' call touched} : RunWhere ok boot dirs mmu → ok mmu call →
    call.Returns touched mmu mmu' → RunWhere ok boot dirs mmu'
  | switch {mmu d s'} : RunWhere ok boot dirs mmu → d ∈ dirs →
    (setPageDirectory d).run mmu.machine = (.ok (), s') → RunWhere ok boot dirs ⟨s', []⟩

/-- All states. -/
abbrev Run := RunWhere fun _ _ => True

/-! ### Accesses and flushes -/

variable {boot : Machine} {dirs : List Nat} {mmu mmu' : Mmu} {v v' a : Nat} {touched : List Nat}

theorem machine_access : (mmu.access v).machine = mmu.machine := by
  unfold access
  split <;> rfl

theorem leaf_access : (mmu.access v).leaf v' = mmu.leaf v' := by
  rw [leaf, machine_access, leaf]

theorem mem_access {t : Translation} : t ∈ (mmu.access v).tlb ↔
    t ∈ mmu.tlb ∨ t.page = pageOf v ∧ mmu.leaf v = some t.entry := by
  unfold access
  split
  · next entry h =>
    rw [List.mem_cons, h, Option.some.injEq, or_comm]
    refine or_congr_right ⟨?_, fun ⟨h1, h2⟩ => ?_⟩
    · rintro rfl
      exact ⟨rfl, rfl⟩
    · rw [← h1, h2]
  · next h => simp [h]

/-- Addresses of one page have one entry. -/
theorem leaf_congr (h : pageOf v = pageOf v') : mmu.leaf v = mmu.leaf v' := walk_congr_page h

/-- An access caches what the tables hold, so it makes no page incoherent, and leaves stale what
was. -/
theorem coherent_access : (mmu.access v).Coherent v' ↔ mmu.Coherent v' := by
  simp only [Coherent, leaf_access, mem_access]
  refine ⟨fun h t ht => h t (.inl ht), fun h t ht hp => ?_⟩
  rcases ht with ht | ⟨h1, h2⟩
  · exact h t ht hp
  · rw [leaf_congr (hp.symm.trans h1), h2]

theorem machine_accesses : (touched.foldl access mmu).machine = mmu.machine := by
  induction touched generalizing mmu with
  | nil => rfl
  | cons v vs ih => rw [List.foldl_cons, ih, machine_access]

theorem coherent_accesses : (touched.foldl access mmu).Coherent v' ↔ mmu.Coherent v' := by
  induction touched generalizing mmu with
  | nil => rfl
  | cons v vs ih => rw [List.foldl_cons, ih, coherent_access]

/-- `invlpg` makes its own page coherent and does not touch another. -/
theorem coherent_invlpg : (mmu.invlpg a).Coherent v ↔ pageOf a = pageOf v ∨ mmu.Coherent v := by
  simp only [Coherent, invlpg, leaf, List.mem_filter, decide_eq_true_iff]
  by_cases h : pageOf a = pageOf v
  · exact ⟨fun _ => .inl h, fun _ t ht hp => absurd (hp.trans h.symm) ht.2⟩
  · refine ⟨fun hc => .inr fun t ht hp => hc t ⟨ht, fun h' => h (h'.symm.trans hp)⟩ hp, ?_⟩
    exact fun hc t ht hp => hc.resolve_left h t ht.1 hp

/-! ### Calls -/

end Mmu

namespace Paging

variable {dirs : List Nat} {s s' : Machine} {flush : Option Nat}

/-- The entry a call leaves. -/
def Call.leaf : Call → Option Nat
  | .map _ paddr flags => mappedLeaf paddr flags
  | .unmap _ => none

/-- The address a call flushes in the state `s`. -/
def Call.flushes (s : Machine) : Call → Option Nat
  | .map _ _ _ => some s.cr3
  | .unmap vaddr => (walk s.ram s.cr3 vaddr).map fun _ => 0

/-- The flush aside, `mapFlush` is `map`. -/
theorem map_of_mapFlush {d v p flags : Nat} {r : Int × Option Nat}
    (h : (mapFlush d v p flags).run s = (.ok r, s')) :
    (Paging.map d v p flags).run s = (.ok r.1, s') ∧ (r.1 = 0 → r.2 = some d) := by
  rw [mapFlush, Prog.run_bind_eq_ok] at h
  obtain ⟨page, s1, h1, h2⟩ := h
  rw [Paging.map, Prog.run_bind_ok h1]
  split at h2
  · next h0 =>
    cases h2
    rw [if_pos h0]
    exact ⟨rfl, fun h => absurd h (by decide)⟩
  · next h0 =>
    rw [Prog.run_bind_eq_ok] at h2
    obtain ⟨_, s2, h2, h3⟩ := h2
    cases h3
    rw [if_neg h0, Prog.run_bind_ok h2]
    exact ⟨rfl, fun _ => rfl⟩

theorem Call.run_spec {call : Call} (H : Tables dirs s)
    (h : call.run.run s = (.ok flush, s')) : Tables dirs s' ∧ s'.cr3 = s.cr3 ∧
      SetLeaf dirs s.cr3 call.vaddr call.leaf s s' ∧ flush = call.flushes s := by
  cases call with
  | map v p flags =>
    rw [run, Prog.run_bind_ok (run_getCurrentPage s), Prog.run_bind_eq_ok] at h
    obtain ⟨r, s1, h1, h2⟩ := h
    cases h2
    obtain ⟨hmap, hflush⟩ := map_of_mapFlush h1
    obtain ⟨h0, H', hstep, hset, -⟩ := (map_safe (C := ⊤) H H.cr3 v p flags).ok hmap trivial
    exact ⟨H', by rw [hstep.eq], hset, hflush h0⟩
  | unmap v =>
    rw [run, Prog.run_bind_ok (run_getCurrentPage s)] at h
    obtain ⟨s1, hrun, -, -, H', hstep, hset⟩ := unmapFlush_run H H.cr3 v
    rw [hrun] at h
    cases h
    exact ⟨H', by rw [hstep.eq], hset, rfl⟩

end Paging

namespace Mmu

variable {boot : Machine} {dirs : List Nat} {mmu mmu' : Mmu} {v : Nat} {touched : List Nat}
  {call : Paging.Call} {ok : Mmu → Paging.Call → Prop}

/-- After a call, a page is coherent if it was flushed, or if what was cached for it before agrees
with the new tables. -/
theorem coherent_returns (H : Tables dirs mmu.machine) (h : call.Returns touched mmu mmu') :
    Tables dirs mmu'.machine ∧
    (∀ v, mmu'.leaf v = if pageOf v = pageOf call.vaddr then call.leaf else mmu.leaf v) ∧
    ∀ v, mmu'.Coherent v ↔ (∃ a ∈ call.flushes mmu.machine, pageOf a = pageOf v) ∨
      ∀ t ∈ mmu.tlb, t.page = pageOf v → mmu'.leaf v = some t.entry := by
  obtain ⟨flush, s', hrun, rfl⟩ := h
  obtain ⟨H', hcr3, hset, rfl⟩ := Paging.Call.run_spec H hrun
  have hleaf : ∀ v, walk s'.ram s'.cr3 v =
      if pageOf v = pageOf call.vaddr then call.leaf else mmu.leaf v := by
    intro v
    rw [hcr3, hset _ H.cr3 v]
    exact if_congr (and_iff_left (.inl rfl)) rfl rfl
  cases hf : call.flushes mmu.machine with
  | none =>
    have hm := @Mmu.machine_accesses { mmu with machine := s' } touched
    simp only [Option.elim_none, id, leaf, hm, coherent_accesses]
    refine ⟨H', hleaf, fun v => ?_⟩
    simp [Coherent, leaf]
  | some a =>
    have hm := @Mmu.machine_accesses { mmu with machine := s' } touched
    simp only [Option.elim_some, leaf, coherent_invlpg, coherent_accesses]
    simp only [invlpg, hm]
    refine ⟨H', hleaf, fun v => ?_⟩
    simp [Coherent, leaf]

/-- **Exactly when a call leaves its page coherent.** -/
theorem coherent_iff_harmless (H : Tables dirs mmu.machine) (h : call.Returns touched mmu mmu') :
    mmu'.Coherent call.vaddr ↔ call.Harmless mmu := by
  obtain ⟨-, hleaf, hco⟩ := coherent_returns H h
  rw [hco, hleaf, if_pos rfl]
  cases call with
  | map v p flags =>
    simp [Paging.Call.flushes, Paging.Call.leaf, Paging.Call.vaddr, Paging.Call.Harmless]
  | unmap v =>
    simp [Paging.Call.flushes, Paging.Call.leaf, Paging.Call.vaddr, Paging.Call.Harmless, leaf,
      Option.isSome_iff_exists, and_comm]

theorem RunWhere.tables (hb : Booted boot) (h : RunWhere ok boot dirs mmu) :
    Tables dirs mmu.machine := by
  induction h with
  | load h => exact (h.tables hb).1
  | access v _ ih => rwa [machine_access]
  | write ram _ h ih => exact ⟨(ih.forest.congr h).2, ih.base, ih.cr3⟩
  | call _ _ h ih => exact (coherent_returns ih h).1
  | switch _ hd h ih =>
    cases h
    exact ⟨ih.forest, ih.base, hd⟩

/-- **The flushes of `map` and `unmap`.** A call leaves its page coherent exactly when it is
harmless. In a run of harmless calls every cached translation agrees with the tables, in every
state. -/
theorem coherent_iff (hb : Booted boot) :
    (∀ mmu, Run boot dirs mmu → ∀ (call : Paging.Call) touched mmu',
      call.Returns touched mmu mmu' → (mmu'.Coherent call.vaddr ↔ call.Harmless mmu)) ∧
    ∀ mmu : Mmu, RunWhere (fun mmu call => call.Harmless mmu) boot dirs mmu → ∀ v, mmu.Coherent v := by
  refine ⟨fun mmu h call touched mmu' hr => coherent_iff_harmless (h.tables hb) hr, ?_⟩
  intro mmu h
  induction h with
  | load _ => exact fun v t ht => absurd ht List.not_mem_nil
  | access a _ ih => exact fun v => coherent_access.mpr (ih v)
  | @write mmu ram hrun h ih =>
    intro v t ht hp
    have H := hrun.tables hb
    rw [← ih v t ht hp]
    exact H.forest.walk_congr h H.cr3 v
  | switch _ _ h _ => exact fun v t ht => absurd ht List.not_mem_nil
  | @call mmu mmu' call touched hrun hok h ih =>
    have H := hrun.tables hb
    obtain ⟨-, hleaf, hco⟩ := coherent_returns H h
    intro v
    by_cases hv : pageOf v = pageOf call.vaddr
    · have := (coherent_iff_harmless H h).mpr hok
      intro t ht hp
      rw [leaf_congr hv]
      exact this t ht (hp.trans hv)
    · rw [hco, hleaf, if_neg hv]
      exact .inr (ih v)

theorem coherent_iff_unmap : ∃ mmu', (Paging.Call.unmap (kvirtualAddress + 4096)).Returns []
    (access ⟨bootMachine (mb 5), []⟩ kvirtualAddress) mmu' ∧ ∀ v, mmu'.Coherent v := by
  have hb : Booted (bootMachine (mb 5)) := booted_bootMachine (by decide) (by decide)
  have hrun : RunWhere (fun mmu call => call.Harmless mmu) (bootMachine (mb 5)) [mb 2]
      (access ⟨bootMachine (mb 5), []⟩ kvirtualAddress) := .access _ (.load .boot)
  have hok : (Paging.Call.unmap (kvirtualAddress + 4096)).Harmless
      (access ⟨bootMachine (mb 5), []⟩ kvirtualAddress) := by
    refine .inr fun t ht => ?_
    rcases mem_access.mp ht with ht | ht
    · exact absurd ht List.not_mem_nil
    · rw [ht.1]
      decide
  obtain ⟨s', h, -⟩ := unmapFlush_run (hrun.tables hb) (hrun.tables hb).cr3 (kvirtualAddress + 4096)
  have hret : (Paging.Call.unmap (kvirtualAddress + 4096)).Returns []
    (access ⟨bootMachine (mb 5), []⟩ kvirtualAddress) _ := ⟨_, s', h, rfl⟩
  exact ⟨_, hret, (coherent_iff hb).2 _ (.call hrun hok hret)⟩

/-- An accessed page stays cached when it is unmapped. -/
theorem not_coherent_unmap : ¬∀ mmu, Run (bootMachine (mb 5)) [mb 2] mmu →
    ∀ (call : Paging.Call) touched mmu', call.Returns touched mmu mmu' →
      mmu'.Coherent call.vaddr := by
  intro hall
  have hb : Booted (bootMachine (mb 5)) := booted_bootMachine (by decide) (by decide)
  have hrun : Run (bootMachine (mb 5)) [mb 2]
      (access ⟨bootMachine (mb 5), []⟩ (kvirtualAddress + mb 3)) := .access _ (.load .boot)
  have H := hrun.tables hb
  obtain ⟨s', h, -⟩ := unmapFlush_run H H.cr3 (kvirtualAddress + mb 3)
  have hret : (Paging.Call.unmap (kvirtualAddress + mb 3)).Returns []
    (access ⟨bootMachine (mb 5), []⟩ (kvirtualAddress + mb 3)) _ := ⟨_, s', h, rfl⟩
  have hharm := (coherent_iff_harmless H hret).mp (hall _ hrun _ _ _ hret)
  rcases hharm with ⟨h0, -⟩ | hnone
  · exact absurd h0 (by decide)
  · have hwalk := hb.walk_window (show mb 3 < directMapSize by decide)
    exact hnone ⟨pageOf (kvirtualAddress + mb 3), mb 3 / 4096 * 4096 + 0x7⟩
      (mem_access.mpr (.inr ⟨rfl, hwalk⟩)) rfl

end Mmu
end Coronel
