import Coronel.Verify.Paging
import Coronel.Kernel.Allocators
import Mathlib.Data.List.Nodup

/-!
# Memory seen through a directory

`Space W dirs owned s`: the pages `owned`, of the directories `dirs`, are mapped to distinct frames
that lie at or above `W`, none of them on the free list, while all placement memory lies below `W`.
Then the bytes of a directory's owned pages are a memory of their own, `view owned ram d`: loads and
stores through CR3 are loads and stores on it, a store in one directory does not show in another,
and no store reaches a page table.

`Promise W` is the promise that placement memory stays below `W`. The kernel does not enforce it.
-/

namespace Coronel

open Theory Theory.Bytes

/-- A page of a directory. -/
structure Page where
  dir : Nat
  number : Nat
deriving DecidableEq, Repr

/-- The frame behind a page, 0 when there is none. -/
def frameOf (ram : Mem) (pg : Page) : Nat :=
  ((walk ram pg.dir (4096 * pg.number)).map entryFrame).getD 0

/-- The addresses on the free list of the physical manager. -/
def Machine.freeFrames (s : Machine) : List Nat :=
  match s.gPhysicalManager with
  | some manager => manager.freeList.map (·.address)
  | none => []

/-- The frames behind the owned pages and the free ones. -/
def frames (owned : List Page) (s : Machine) : List Nat :=
  owned.map (frameOf s.ram) ++ s.freeFrames

/-- Placement memory stays below the physical address `W`. -/
def Promise (W : Nat) : LowerSet Machine where
  carrier := { s | ∀ r ∈ s.reserved, r.start + r.size ≤ kvirtualAddress + W }
  lower' := fun _ _ h hs r hr => hs r ((Machine.le_iff.mp h).subset hr)

theorem mem_promise {W : Nat} {s : Machine} :
    s ∈ Promise W ↔ ∀ r ∈ s.reserved, r.start + r.size ≤ kvirtualAddress + W := Iff.rfl

structure Space (W : Nat) (dirs : List Nat) (owned : List Page) (s : Machine) : Prop where
  tables : Tables dirs s
  bound : s.placement ≤ kvirtualAddress + W
  manager : ∃ m, s.gPhysicalManager = some m
  dir : ∀ pg ∈ owned, pg.dir ∈ dirs
  /-- The pages lie below entry 0 of their directory. -/
  low : ∀ pg ∈ owned, pg.number < 2 ^ 27
  mapped : ∀ pg ∈ owned, walk s.ram pg.dir (4096 * pg.number) ≠ none
  nodup : (frames owned s).Nodup
  frame : ∀ f ∈ frames owned s, f % 4096 = 0 ∧ W ≤ f ∧ f < 2 ^ 52

/-- The bytes of the owned pages of `d`. -/
def view (owned : List Page) (ram : Mem) (d : Nat) : Mem := fun v =>
  if ⟨d, v / 4096⟩ ∈ owned then ram (frameOf ram ⟨d, v / 4096⟩ + v % 4096) else 0

/-- The `n` addresses from `a` lie on owned pages of `d`. -/
def Covers (owned : List Page) (d a n : Nat) : Prop := ∀ i < n, ⟨d, (a + i) / 4096⟩ ∈ owned

/-- From `s` to `s'` only bytes of owned pages of the current directory changed, to `m`. -/
structure Wrote (W : Nat) (dirs : List Nat) (owned : List Page) (m : Mem) (s s' : Machine) :
    Prop where
  space : Space W dirs owned s'
  eq : s' = { s with ram := s'.ram }
  shows : view owned s'.ram s.cr3 = m
  other : ∀ d, d ≠ s.cr3 → view owned s'.ram d = view owned s.ram d
  walks : ∀ d ∈ dirs, ∀ v, walk s'.ram d v = walk s.ram d v

section
variable {W : Nat} {dirs : List Nat} {owned : List Page} {s s' s'' : Machine} {d a v n k : Nat}
  {m m' : Mem}

theorem Covers.mono (h : Covers owned d a n) (h1 : a ≤ v) (h2 : v + k ≤ a + n) :
    Covers owned d v k := by
  intro i hi
  have := h (v + i - a) (by omega)
  rwa [show a + (v + i - a) = v + i by omega] at this

theorem Covers.append (h : Covers owned d a n) (h' : Covers owned d (a + n) k) :
    Covers owned d a (n + k) := by
  intro i hi
  by_cases hin : i < n
  · exact h i hin
  · have := h' (i - n) (by omega)
    rwa [show a + n + (i - n) = a + i by omega] at this

theorem Covers.subset {owned' : List Page} (h : Covers owned d a n) (hs : owned ⊆ owned') :
    Covers owned' d a n := fun i hi => hs (h i hi)

theorem view_of_mem {ram : Mem} (h : ⟨d, v / 4096⟩ ∈ owned) :
    view owned ram d v = ram (frameOf ram ⟨d, v / 4096⟩ + v % 4096) := if_pos h

theorem frameOf_congr {ram ram' : Mem} {pg : Page}
    (h : walk ram' pg.dir (4096 * pg.number) = walk ram pg.dir (4096 * pg.number)) :
    frameOf ram' pg = frameOf ram pg := by
  rw [frameOf, h, frameOf]

namespace Space

variable (H : Space W dirs owned s)
include H

theorem cr3_mem : s.cr3 ∈ dirs := H.tables.cr3

theorem W_pos : 0 < W := by
  have h1 := H.tables.forest.dir H.cr3_mem
  have h2 := H.tables.base
  have h3 := H.bound
  omega

theorem owned_frame {pg : Page} (h : pg ∈ owned) :
    frameOf s.ram pg % 4096 = 0 ∧ W ≤ frameOf s.ram pg ∧ frameOf s.ram pg < 2 ^ 52 :=
  H.frame _ (List.mem_append_left _ (List.mem_map_of_mem h))

theorem owned_lt (h : ⟨d, v / 4096⟩ ∈ owned) : v < 2 ^ 39 := by
  have := H.low _ h
  simp only at this
  omega

theorem translate_owned (h : ⟨d, v / 4096⟩ ∈ owned) :
    translate s.ram d v = some (frameOf s.ram ⟨d, v / 4096⟩ + v % 4096) := by
  have hw : walk s.ram d v = walk s.ram d (4096 * (v / 4096)) := walk_congr_page (by omega)
  obtain ⟨e, he⟩ := Option.ne_none_iff_exists'.mp (H.mapped _ h)
  rw [translate, hw, frameOf]
  simp only [he, Option.map_some, Option.getD_some]

/-- Two owned pages with the same frame are one page. -/
theorem frame_inj {pg pg' : Page} (h : pg ∈ owned) (h' : pg' ∈ owned)
    (he : frameOf s.ram pg = frameOf s.ram pg') : pg = pg' :=
  List.inj_on_of_nodup_map (List.Nodup.of_append_left H.nodup) h h' he

/-- The effect of writing one byte of an owned page. -/
theorem update (h : ⟨d, v / 4096⟩ ∈ owned) (x : UInt8) {ram' : Mem}
    (hr : ram' = Function.update s.ram (frameOf s.ram ⟨d, v / 4096⟩ + v % 4096) x) :
    Space W dirs owned { s with ram := ram' } ∧
      (∀ d' ∈ dirs, ∀ v', walk ram' d' v' = walk s.ram d' v') ∧
      view owned ram' d = Function.update (view owned s.ram d) v x ∧
      ∀ d', d' ≠ d → view owned ram' d' = view owned s.ram d' := by
  obtain ⟨h1, h2, -⟩ := H.owned_frame h
  have htop := H.bound
  have hsame : ∀ b < s.placement - kvirtualAddress, ram' b = s.ram b := fun b hb => by
    rw [hr, Function.update_of_ne (by omega)]
  obtain ⟨-, hF⟩ := H.tables.forest.congr hsame
  have hwalk : ∀ d' ∈ dirs, ∀ v', walk ram' d' v' = walk s.ram d' v' := fun d' hd' =>
    H.tables.forest.walk_congr hsame hd'
  have hframe : ∀ pg ∈ owned, frameOf ram' pg = frameOf s.ram pg := fun pg hpg =>
    frameOf_congr (hwalk _ (H.dir pg hpg) _)
  have hmap : frames owned { s with ram := ram' } = frames owned s :=
    congrArg (· ++ s.freeFrames) (List.map_congr_left hframe)
  -- a byte of an owned page is hit when page and offset are those of `v`
  have hbyte : ∀ d' v', ⟨d', v' / 4096⟩ ∈ owned →
      view owned ram' d' v' = if d' = d ∧ v' = v then x else view owned s.ram d' v' := by
    intro d' v' h'
    rw [view_of_mem h', view_of_mem h', hframe _ h']
    obtain ⟨h3, -, -⟩ := H.owned_frame h'
    split
    · next he => rw [he.1, he.2, hr, Function.update_self]
    · next hne =>
      rw [hr, Function.update_of_ne]
      intro he
      have hpg := H.frame_inj h' h (by omega)
      obtain ⟨rfl, h4⟩ := Page.mk.inj hpg
      rw [h4] at he
      exact hne ⟨rfl, by omega⟩
  refine ⟨⟨⟨hF, H.tables.base, H.tables.cr3⟩, H.bound, H.manager, H.dir, H.low, fun pg hpg => ?_,
    ?_, ?_⟩, hwalk, ?_, ?_⟩
  · rw [hwalk _ (H.dir pg hpg)]
    exact H.mapped pg hpg
  · rw [hmap]; exact H.nodup
  · rw [hmap]; exact H.frame
  · funext v'
    rw [Function.update_apply]
    by_cases h' : ⟨d, v' / 4096⟩ ∈ owned
    · rw [hbyte d v' h']
      simp
    · rw [view, if_neg h', if_neg, view, if_neg h']
      rintro rfl
      exact h' h
  · intro d' hne
    funext v'
    by_cases h' : ⟨d', v' / 4096⟩ ∈ owned
    · rw [hbyte d' v' h', if_neg fun hc => hne hc.1]
    · rw [view, if_neg h', view, if_neg h']

end Space

theorem Wrote.refl (H : Space W dirs owned s) : Wrote W dirs owned (view owned s.ram s.cr3) s s :=
  ⟨H, rfl, rfl, fun _ _ => rfl, fun _ _ _ => rfl⟩

theorem Wrote.cr3 (h : Wrote W dirs owned m s s') : s'.cr3 = s.cr3 := by rw [h.eq]

theorem Wrote.trans (h : Wrote W dirs owned m s s') (h' : Wrote W dirs owned m' s' s'') :
    Wrote W dirs owned m' s s'' := by
  have hc := h.cr3
  refine ⟨h'.space, ?_, hc ▸ h'.shows, fun d hd => ?_, fun d hd v => ?_⟩
  · rw [h'.eq, h.eq]
  · rw [h'.other d (by rw [hc]; exact hd), h.other d hd]
  · rw [h'.walks d hd, h.walks d hd]

/-- The view is the memory that was written. -/
theorem Wrote.view_eq (h : Wrote W dirs owned m s s') : view owned s'.ram s'.cr3 = m := by
  rw [h.cr3, h.shows]

/-! ### Runs on the view -/

theorem load8_run (H : Space W dirs owned s) (h : ⟨s.cr3, a / 4096⟩ ∈ owned) :
    (load8 a).run s = (.ok (view owned s.ram s.cr3 a), s) := by
  rw [load8, Prog.run_bind_ok (Prog.run_get s)]
  simp only [H.translate_owned h]
  rw [view_of_mem h]
  rfl

theorem store8_run (H : Space W dirs owned s) (h : ⟨s.cr3, a / 4096⟩ ∈ owned) (x : UInt8) :
    ∃ s', (store8 a x).run s = (.ok (), s') ∧
      Wrote W dirs owned (Function.update (view owned s.ram s.cr3) a x) s s' := by
  obtain ⟨h1, h2, h3, h4⟩ := H.update h x rfl
  rw [store8, Prog.run_bind_ok (Prog.run_get s)]
  simp only [H.translate_owned h]
  exact ⟨_, rfl, h1, rfl, h3, h4, h2⟩

theorem Covers.head (h : Covers owned d a (n + 1)) : ⟨d, a / 4096⟩ ∈ owned := h 0 (by omega)

theorem Covers.tail (h : Covers owned d a (n + 1)) : Covers owned d (a + 1) n :=
  h.mono (by omega) (by omega)

theorem add64_owned (H : Space W dirs owned s) (h : ⟨d, a / 4096⟩ ∈ owned) :
    add64 a 1 = a + 1 :=
  add64_eq (by have := H.owned_lt h; omega)

theorem loadN_run (H : Space W dirs owned s) (h : Covers owned s.cr3 a n) :
    (loadN n a).run s = (.ok (load (view owned s.ram s.cr3) n a), s) := by
  induction n generalizing a with
  | zero => rfl
  | succ n ih =>
    have ih' := ih h.tail
    rw [loadN, Prog.run_bind_ok (load8_run H h.head), add64_owned H h.head,
      Prog.run_bind_ok ih', Prog.run_pure, load]

theorem storeN_run (H : Space W dirs owned s) (h : Covers owned s.cr3 a n) (x : Nat) :
    ∃ s', (storeN n a x).run s = (.ok (), s') ∧
      Wrote W dirs owned (store (view owned s.ram s.cr3) n a x) s s' := by
  induction n generalizing a x s with
  | zero => exact ⟨s, rfl, Wrote.refl H⟩
  | succ n ih =>
    obtain ⟨s1, h1, w1⟩ := store8_run H h.head (UInt8.ofNat x)
    obtain ⟨s2, h2, w2⟩ := ih w1.space (w1.cr3 ▸ h.tail) (x / 256)
    rw [storeN, Prog.run_bind_ok h1, add64_owned H h.head]
    rw [w1.view_eq] at w2
    exact ⟨s2, h2, w1.trans w2⟩

theorem memset_run (H : Space W dirs owned s) (h : Covers owned s.cr3 a n) (x : UInt8) :
    ∃ s', (memset a x n).run s = (.ok (), s') ∧
      Wrote W dirs owned (fill (view owned s.ram s.cr3) a n x) s s' := by
  induction n generalizing a s with
  | zero =>
    rw [fill_zero]
    exact ⟨s, rfl, Wrote.refl H⟩
  | succ n ih =>
    obtain ⟨s1, h1, w1⟩ := store8_run H h.head x
    obtain ⟨s2, h2, w2⟩ := ih w1.space (w1.cr3 ▸ h.tail)
    rw [memset, Prog.run_bind_ok h1, add64_owned H h.head, fill_succ]
    rw [w1.view_eq] at w2
    exact ⟨s2, h2, w1.trans w2⟩

theorem memcpy_run (H : Space W dirs owned s) (h : Covers owned s.cr3 a n)
    (h' : Covers owned s.cr3 k n) (hd : a + n ≤ k ∨ k + n ≤ a) :
    ∃ s', (memcpy a k n).run s = (.ok (), s') ∧
      Wrote W dirs owned (copy (view owned s.ram s.cr3) a k n) s s' := by
  induction n generalizing a k s with
  | zero =>
    rw [copy_zero]
    exact ⟨s, rfl, Wrote.refl H⟩
  | succ n ih =>
    obtain ⟨s1, h1, w1⟩ := store8_run H h.head (view owned s.ram s.cr3 k)
    obtain ⟨s2, h2, w2⟩ := ih w1.space (w1.cr3 ▸ h.tail) (w1.cr3 ▸ h'.tail) (by omega)
    rw [memcpy, Prog.run_bind_ok (load8_run H h'.head), Prog.run_bind_ok h1,
      add64_owned H h.head, add64_owned H h'.head, copy_succ (by omega)]
    rw [w1.view_eq] at w2
    exact ⟨s2, h2, w1.trans w2⟩

end
end Coronel
