import Coronel.Kernel.MemoryManager
import Coronel.Verify.Physical

/-!
# The region that is managed

`initialize_memory` on its two paths. The memory map is a list of entries of varying size, and the
loop over it folds `addEntry`: it keeps the largest part at or above 8 MB of an available entry.
Without a memory map a product and a difference take the place of the list, and each can wrap.
-/

namespace Coronel

open Theory

namespace MmapEntry

/-- Where the part of an entry at or above 8 MB starts. -/
def partStart (e : MmapEntry) : Nat := max (mb 8) e.addr

/-- Its size, which is 0 for an entry below 8 MB. -/
def partSize (e : MmapEntry) : Nat := e.addr + e.len - e.partStart

end MmapEntry

namespace MemoryManager

/-- The counters hold the largest part of the available entries, if one has a part. -/
structure Largest (found : FreeMemory) (es : List MmapEntry) : Prop where
  ge : ∀ e ∈ es, e.type = 1 → e.partSize ≤ found.largestFreeSize
  part : 0 < found.largestFreeSize → ∃ e ∈ es, e.type = 1 ∧
    found.largestFreeStart = e.partStart ∧ found.largestFreeSize = e.partSize

/-- The entries from `v` up to the end of the memory map, as the loop reads them. The size of an
entry does not count the size field. -/
inductive Entries (s : Machine) (stop : Nat) : Nat → List MmapEntry → Prop
  | nil : Entries s stop stop []
  | cons {v e es} : (loadEntry v).run s = (.ok e, s) → 20 ≤ e.size →
    Entries s stop (v + e.size + 4) es → Entries s stop v (e :: es)

section
variable {bootinfo : MultibootInfo} {found : FreeMemory} {e : MmapEntry} {es : List MmapEntry}
  {s s' s1 s2 s3 : Machine} {r : Option FreeMemory} {stop v n start len f : Nat}

/-! ### The memory map -/

/-- An entry below the line, across it or above it: a larger part takes the place of the old one. -/
theorem addEntry_largest (hend : e.addr + e.len < 2 ^ 64) :
    ((addEntry found e).largestFreeStart, (addEntry found e).largestFreeSize) =
      if e.type = 1 ∧ found.largestFreeSize < e.partSize then (e.partStart, e.partSize)
      else (found.largestFreeStart, found.largestFreeSize) := by
  unfold addEntry MmapEntry.partSize MmapEntry.partStart
  rw [add64_eq hend]
  by_cases htype : e.type = 1
  · rw [if_pos htype]
    by_cases hlow : e.addr < mb 8
    · rw [if_pos hlow, Nat.max_eq_left (Nat.le_of_lt hlow)]
      by_cases hover : mb 8 < e.addr + e.len
      · rw [if_pos hover, sub64_eq (Nat.le_of_lt hover) hend]
        simp only [htype, true_and]
        split <;> rfl
      · rw [if_neg hover, if_neg (by omega)]
    · rw [if_neg hlow, Nat.max_eq_right (Nat.le_of_not_lt hlow), Nat.add_sub_cancel_left]
      simp only [htype, true_and]
      split <;> rfl
  · rw [if_neg htype, if_neg fun h => htype h.1]

theorem Largest.add (H : Largest found es) (hend : e.addr + e.len < 2 ^ 64) :
    Largest (addEntry found e) (e :: es) := by
  have hadd := @addEntry_largest found _ hend
  split at hadd
  · next hlarger =>
    obtain ⟨hstart, hsize⟩ := Prod.mk.inj hadd
    refine ⟨fun e' he' ht => ?_, fun _ => ⟨e, List.mem_cons_self, hlarger.1, hstart, hsize⟩⟩
    rw [hsize]
    rcases List.mem_cons.mp he' with rfl | he'
    · exact Nat.le_refl _
    · exact Nat.le_trans (H.ge e' he' ht) (Nat.le_of_lt hlarger.2)
  · next hno =>
    obtain ⟨hstart, hsize⟩ := Prod.mk.inj hadd
    refine ⟨fun e' he' ht => ?_, fun hpos => ?_⟩ <;> rw [hsize] at *
    · rcases List.mem_cons.mp he' with rfl | he'
      · exact Nat.le_of_not_lt fun hlt => hno ⟨ht, hlt⟩
      · exact H.ge e' he' ht
    · obtain ⟨e', he', h⟩ := H.part hpos
      exact ⟨e', List.mem_cons_of_mem _ he', by rwa [hstart]⟩

/-- The fold keeps the largest part of all entries. -/
theorem Largest.foldl (H : Largest found es) {rest : List MmapEntry}
    (hend : ∀ e ∈ rest, e.addr + e.len < 2 ^ 64) :
    Largest (rest.foldl addEntry found) (rest.reverse ++ es) := by
  induction rest generalizing found es with
  | nil => exact H
  | cons e rest ih =>
    rw [List.foldl_cons, List.reverse_cons, List.append_assoc]
    exact ih (H.add (hend e List.mem_cons_self)) fun e' he' => hend e' (List.mem_cons_of_mem _ he')

theorem Largest.congr (H : Largest found es) {es' : List MmapEntry} (h : ∀ e, e ∈ es ↔ e ∈ es') :
    Largest found es' := by
  refine ⟨fun e he => H.ge e ((h e).mpr he), fun hpos => ?_⟩
  obtain ⟨e, he, hpart⟩ := H.part hpos
  exact ⟨e, (h e).mp he, hpart⟩

theorem Entries.le (H : Entries s stop v es) : v ≤ stop := by
  induction H with
  | nil => exact Nat.le_refl _
  | cons _ _ _ ih => omega

end
end MemoryManager
end Coronel
