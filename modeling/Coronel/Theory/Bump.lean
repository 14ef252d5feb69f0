import Coronel.Theory.Span

/-!
# Bump allocation

`Laid u lo rs hi`: the spans `rs`, newest first, lie one behind the other from `lo` up to `hi`. A
gap between two of them ends at the latest at the next multiple of `u`. So they are disjoint, and no
multiple of `u` between `lo` and `hi` is left out.
-/

namespace Theory

inductive Laid (u lo : Nat) : List Span → Nat → Prop
  | nil : Laid u lo [] lo
  | cons {rs hi r} : Laid u lo rs hi → hi ≤ r.start → (∀ k, hi ≤ u * k → r.start ≤ u * k) →
    Laid u lo (r :: rs) (r.start + r.size)

namespace Laid

variable {u lo mid hi k : Nat} {rs rs' : List Span} {r : Span}

theorem le (h : Laid u lo rs hi) : lo ≤ hi := by
  induction h with
  | nil => exact Nat.le_refl _
  | cons _ hle _ ih => exact (ih.trans hle).trans (Nat.le_add_right _ _)

theorem bounds (h : Laid u lo rs hi) (hr : r ∈ rs) : lo ≤ r.start ∧ r.start + r.size ≤ hi := by
  induction h with
  | nil => cases hr
  | cons h hle _ ih =>
    rcases List.mem_cons.mp hr with rfl | hr
    · exact ⟨h.le.trans hle, Nat.le_refl _⟩
    · obtain ⟨h1, h2⟩ := ih hr
      exact ⟨h1, (h2.trans hle).trans (Nat.le_add_right _ _)⟩

theorem disjoint (h : Laid u lo rs hi) : rs.Pairwise Span.Disjoint := by
  induction h with
  | nil => exact .nil
  | cons h hle _ ih =>
    refine .cons (fun r' hr' a ⟨ha, ha'⟩ => ?_) ih
    have := (h.bounds hr').2
    rw [Span.mem_iff] at ha ha'
    omega

/-- A multiple of `u` lies in one of the spans. -/
theorem hit (h : Laid u lo rs hi) (hlo : lo ≤ u * k) (hhi : u * k < hi) : ∃ r ∈ rs, u * k ∈ r := by
  induction h with
  | nil => omega
  | @cons rs hi r h hle hgap ih =>
    by_cases hk : u * k < hi
    · obtain ⟨r', hr', hmem⟩ := ih hk
      exact ⟨r', List.mem_cons_of_mem _ hr', hmem⟩
    · exact ⟨r, List.mem_cons_self, Span.mem_iff.mpr ⟨hgap k (Nat.le_of_not_lt hk), hhi⟩⟩

theorem trans (h : Laid u lo rs mid) (h' : Laid u mid rs' hi) : Laid u lo (rs' ++ rs) hi := by
  induction h' with
  | nil => exact h
  | cons _ hle hgap ih => exact .cons ih hle hgap

/-- The next span, at the end. -/
theorem here (h : Laid u lo rs hi) (size : Nat) : Laid u lo (⟨hi, size⟩ :: rs) (hi + size) :=
  .cons h (Nat.le_refl _) fun _ hk => hk

/-- The next span, at the next multiple of `u`. -/
theorem up {start : Nat} (h : Laid u lo rs hi) (size : Nat) (hle : hi ≤ start)
    (hgap : ∀ k, hi ≤ u * k → start ≤ u * k) : Laid u lo (⟨start, size⟩ :: rs) (start + size) :=
  .cons h hle hgap

end Laid
end Theory
