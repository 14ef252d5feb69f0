import Mathlib.Algebra.BigOperators.Group.Finset.Piecewise
import Mathlib.Algebra.Order.BigOperators.Group.Finset
import Mathlib.Algebra.GroupWithZero.Nat
import Mathlib.Data.List.Perm.Basic
import Mathlib.Data.List.Count
import Mathlib.Order.Interval.Finset.Nat

/-!
# Families of address ranges

A `Span` is a half-open range of addresses. `cover rs a` counts the spans of the family `rs` that
contain `a`: a family is pairwise disjoint when no count passes 1, and two families partition a set
when their counts add up to its indicator. Splitting, joining and moving spans are equations
between counts, so a partition is one equation that an operation keeps or not.
-/

namespace Theory

/-- The half-open range `[start, start + size)`. -/
structure Span where
  start : Nat
  size : Nat
deriving DecidableEq, Repr

namespace Span

/-- One past the last address. -/
def stop (r : Span) : Nat := r.start + r.size

instance : Membership Nat Span := ⟨fun r a => r.start ≤ a ∧ a < r.start + r.size⟩

theorem mem_iff {r : Span} {a : Nat} : a ∈ r ↔ r.start ≤ a ∧ a < r.start + r.size := Iff.rfl

@[simp] theorem mem_mk {s n a : Nat} : a ∈ (⟨s, n⟩ : Span) ↔ s ≤ a ∧ a < s + n := Iff.rfl

instance {r : Span} {a : Nat} : Decidable (a ∈ r) := inferInstanceAs (Decidable (_ ∧ _))

/-- The two spans have no address in common. -/
def Disjoint (r r' : Span) : Prop := ∀ a, ¬(a ∈ r ∧ a ∈ r')

theorem Disjoint.symm {r r' : Span} (h : Disjoint r r') : Disjoint r' r :=
  fun a ⟨h1, h2⟩ => h a ⟨h2, h1⟩

/-- Two disjoint spans of which the first is not empty do not overlap end to end. -/
theorem Disjoint.le_or_le {r r' : Span} (h : Disjoint r r') (h1 : 0 < r.size) (h2 : 0 < r'.size) :
    r.start + r.size ≤ r'.start ∨ r'.start + r'.size ≤ r.start := by
  by_contra hc
  apply h (max r.start r'.start)
  simp only [mem_iff]
  omega

/-- 1 on the addresses of the span, 0 elsewhere. -/
def ind (r : Span) (a : Nat) : Nat := if a ∈ r then 1 else 0

theorem ind_le_one (r : Span) (a : Nat) : r.ind a ≤ 1 := by unfold ind; split <;> omega

@[simp] theorem ind_eq_one_iff {r : Span} {a : Nat} : r.ind a = 1 ↔ a ∈ r := by simp [ind]

@[simp] theorem ind_eq_zero_iff {r : Span} {a : Nat} : r.ind a = 0 ↔ a ∉ r := by simp [ind]

theorem ind_of_size_zero {r : Span} (h : r.size = 0) (a : Nat) : r.ind a = 0 := by
  rw [ind_eq_zero_iff, mem_iff]; omega

/-- A span is the sum of its two parts. -/
theorem ind_add (s n k a : Nat) : ind ⟨s, n + k⟩ a = ind ⟨s, n⟩ a + ind ⟨s + n, k⟩ a := by
  simp only [ind, mem_mk]
  by_cases h1 : s ≤ a ∧ a < s + n
  · rw [if_pos h1, if_pos (by omega), if_neg (by omega)]
  · by_cases h2 : s + n ≤ a ∧ a < s + n + k
    · rw [if_pos (by omega), if_neg h1, if_pos h2]
    · rw [if_neg (by omega), if_neg h1, if_neg h2]

end Span

/-- How many spans of the family contain `a`. -/
def cover (rs : List Span) (a : Nat) : Nat := (rs.map (·.ind a)).sum

section cover
variable {rs rs' : List Span} {r r' : Span} {a : Nat}

@[simp] theorem cover_nil : cover [] a = 0 := rfl

@[simp] theorem cover_cons : cover (r :: rs) a = r.ind a + cover rs a := rfl

@[simp] theorem cover_append : cover (rs ++ rs') a = cover rs a + cover rs' a := by
  simp [cover]

theorem cover_perm (h : rs.Perm rs') : cover rs a = cover rs' a := (h.map _).sum_nat

theorem ind_le_cover (h : r ∈ rs) : r.ind a ≤ cover rs a := by
  obtain ⟨xs, ys, rfl⟩ := List.append_of_mem h
  rw [cover_append, cover_cons]; omega

theorem cover_pos_iff : 0 < cover rs a ↔ ∃ r ∈ rs, a ∈ r := by
  induction rs with
  | nil => simp
  | cons r rs ih =>
    have := r.ind_le_one a
    rw [cover_cons, List.exists_mem_cons_iff, ← ih, ← Span.ind_eq_one_iff]
    omega

theorem cover_eq_zero_iff : cover rs a = 0 ↔ ∀ r ∈ rs, a ∉ r := by
  have : 0 < cover rs a ↔ _ := cover_pos_iff
  constructor
  · intro h r hr ha
    have : 0 < cover rs a := this.mpr ⟨r, hr, ha⟩
    omega
  · intro h
    by_contra hc
    obtain ⟨r, hr, ha⟩ := this.mp (by omega)
    exact h r hr ha

/-- A family no address of which is counted twice is pairwise disjoint. -/
theorem pairwise_disjoint_of_cover_le_one (h : ∀ a, cover rs a ≤ 1) :
    rs.Pairwise Span.Disjoint := by
  induction rs with
  | nil => exact .nil
  | cons r rs ih =>
    refine .cons (fun r' hr' a ha => ?_) (ih fun a => ?_)
    · have h1 := h a
      have h2 := ind_le_cover (a := a) hr'
      rw [cover_cons, Span.ind_eq_one_iff.mpr ha.1] at h1
      rw [Span.ind_eq_one_iff.mpr ha.2] at h2
      omega
    · have := h a
      rw [cover_cons] at this
      omega

theorem disjoint_of_cover_le_one {xs ys : List Span} (h : ∀ a, cover (xs ++ r :: ys) a ≤ 1)
    (h' : r' ∈ xs ++ ys) : Span.Disjoint r r' := by
  intro a ⟨h1, h2⟩
  have h3 := h a
  have h4 := ind_le_cover (a := a) h'
  rw [Span.ind_eq_one_iff.mpr h2, cover_append] at h4
  rw [cover_append, cover_cons, Span.ind_eq_one_iff.mpr h1] at h3
  omega

/-- Counting addresses gives the sizes back. -/
theorem sum_ind {N : Nat} (h : r.start + r.size ≤ N) :
    ∑ a ∈ Finset.range N, r.ind a = r.size := by
  have hfilter : (Finset.range N).filter (· ∈ r) = Finset.Ico r.start (r.start + r.size) := by
    ext a
    rw [Finset.mem_filter, Finset.mem_range, Finset.mem_Ico, Span.mem_iff]
    omega
  have := Finset.card_filter (· ∈ r) (Finset.range N)
  rw [hfilter, Nat.card_Ico, Nat.add_sub_cancel_left] at this
  exact this.symm

theorem sum_cover {N : Nat} (h : ∀ r ∈ rs, r.start + r.size ≤ N) :
    ∑ a ∈ Finset.range N, cover rs a = (rs.map (·.size)).sum := by
  induction rs with
  | nil => simp
  | cons r rs ih =>
    obtain ⟨h1, h2⟩ := List.forall_mem_cons.mp h
    simp only [cover_cons, Finset.sum_add_distrib, List.map_cons, List.sum_cons, ih h2, sum_ind h1]

/-- Disjoint spans below `N` hold at most `N` addresses. -/
theorem sum_size_le {N : Nat} (h : ∀ r ∈ rs, r.start + r.size ≤ N) (h' : ∀ a, cover rs a ≤ 1) :
    (rs.map (·.size)).sum ≤ N := by
  rw [← sum_cover h]
  simpa using Finset.sum_le_sum fun a (_ : a ∈ Finset.range N) => h' a

/-- Disjoint spans inside `r` that are as large together cover it. -/
theorem cover_eq_ind (h : ∀ a, cover rs a ≤ 1)
    (hin : ∀ r' ∈ rs, r.start ≤ r'.start ∧ r'.start + r'.size ≤ r.start + r.size)
    (hsum : (rs.map (·.size)).sum = r.size) : cover rs a = r.ind a := by
  have hle : ∀ a, cover rs a ≤ r.ind a := fun a => by
    by_cases ha : a ∈ r
    · rw [Span.ind_eq_one_iff.mpr ha]
      exact h a
    · rw [cover_eq_zero_iff.mpr fun r' hr' ha' => ha ?_]
      · exact Nat.zero_le _
      · have := hin r' hr'
        rw [Span.mem_iff] at ha' ⊢
        omega
  have hN : ∀ r' ∈ rs, r'.start + r'.size ≤ r.start + r.size := fun r' hr' => (hin r' hr').2
  have heq : ∑ a ∈ Finset.range (r.start + r.size), cover rs a =
      ∑ a ∈ Finset.range (r.start + r.size), r.ind a := by
    rw [sum_cover hN, sum_ind (Nat.le_refl _), hsum]
  by_cases ha : a ∈ r
  · rw [Span.mem_iff] at ha
    exact (Finset.sum_eq_sum_iff_of_le fun a _ => hle a).mp heq a (Finset.mem_range.mpr ha.2)
  · have := hle a
    rw [Span.ind_eq_zero_iff.mpr ha] at this ⊢
    omega

end cover
end Theory
