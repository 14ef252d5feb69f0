import Mathlib.Logic.Function.Basic

/-!
# Slices of an array

An array is a function on its indices. `write f i text` is the array with `text` from index `i` on,
and `mirror f lo hi` the array with the elements `lo` to `hi` in the opposite order. `mirror_swap` is
the step of a loop that mirrors a slice in place, from its two ends to the middle.
-/

namespace Theory.Slice

variable {α : Type}

/-- The array with `text` from index `i` on. -/
def write (f : Nat → α) (i : Nat) (text : List α) : Nat → α :=
  fun k => if i ≤ k then text[k - i]?.getD (f k) else f k

/-- The array with the elements `j` and `i` exchanged. -/
def swap (f : Nat → α) (j i : Nat) : Nat → α :=
  Function.update (Function.update f j (f i)) i (f j)

/-- The array with the elements from `lo` to `hi` in the opposite order. -/
def mirror (f : Nat → α) (lo hi : Nat) : Nat → α :=
  fun k => if lo ≤ k ∧ k ≤ hi then f (lo + hi - k) else f k

/-- The array holds `text` from index `i` on. -/
def HasText (f : Nat → α) (i : Nat) (text : List α) : Prop :=
  ∀ k, (h : k < text.length) → f (i + k) = text[k]

variable {f : Nat → α} {i k lo hi : Nat} {c : α} {text text' : List α}

theorem swap_of_ne (h1 : k ≠ lo) (h2 : k ≠ hi) : swap f lo hi k = f k := by
  rw [swap, Function.update_of_ne h2, Function.update_of_ne h1]

theorem swap_left (h : lo ≠ hi) : swap f lo hi lo = f hi := by
  rw [swap, Function.update_of_ne h, Function.update_self]

theorem swap_right : swap f lo hi hi = f lo := by
  rw [swap, Function.update_self]

/-- Nothing is left to mirror. -/
theorem mirror_of_le (h : hi ≤ lo) : mirror f lo hi = f := by
  funext k
  unfold mirror
  split
  · congr 1
    omega
  · rfl

/-- The two ends are exchanged, and the slice between them mirrored. -/
theorem mirror_swap (h : lo < hi) : mirror (swap f lo hi) (lo + 1) (hi - 1) = mirror f lo hi := by
  funext k
  unfold mirror
  by_cases hin : lo + 1 ≤ k ∧ k ≤ hi - 1
  · rw [if_pos hin, if_pos (by omega), swap_of_ne (by omega) (by omega)]
    congr 1
    omega
  rw [if_neg hin]
  by_cases hlo : k = lo
  · rw [hlo, swap_left (by omega), if_pos (by omega), Nat.add_sub_cancel_left]
  by_cases hhi : k = hi
  · rw [hhi, swap_right, if_pos (by omega), Nat.add_sub_cancel]
  · rw [swap_of_ne hlo hhi, if_neg (by omega)]

@[simp] theorem write_nil : write f i [] = f := by
  funext k
  simp [write]

theorem write_cons : write f i (c :: text) = write (Function.update f i c) (i + 1) text := by
  funext k
  unfold write
  by_cases hk : k = i
  · rw [hk, if_pos (Nat.le_refl i), if_neg (by omega), Nat.sub_self, Function.update_self]
    rfl
  rw [Function.update_of_ne hk]
  by_cases hlt : i < k
  · rw [if_pos (by omega), if_pos (by omega), show k - i = k - (i + 1) + 1 by omega]
    rfl
  · rw [if_neg (by omega), if_neg (by omega)]

/-- Two texts are written one behind the other. -/
theorem write_append : write f i (text ++ text') = write (write f i text) (i + text.length) text' := by
  induction text generalizing f i with
  | nil => rw [write_nil]; rfl
  | cons c text ih =>
    rw [List.cons_append, write_cons, ih, write_cons, List.length_cons]
    congr 1
    omega

theorem write_of_mem (h : k < text.length) : write f i text (i + k) = text[k] := by
  rw [write, if_pos (by omega), Nat.add_sub_cancel_left, List.getElem?_eq_getElem h]
  rfl

theorem write_of_notMem (h : k < i ∨ i + text.length ≤ k) : write f i text k = f k := by
  unfold write
  split
  · rw [List.getElem?_eq_none (by omega)]
    rfl
  · rfl

theorem hasText_write : HasText (write f i text) i text := fun _ h => write_of_mem h

/-- A text that is written is mirrored by mirroring its slice. -/
theorem mirror_write : mirror (write f i text) i (i + text.length - 1) = write f i text.reverse := by
  cases text with
  | nil => rw [mirror_of_le (by simp)]; rfl
  | cons c text =>
    funext k
    unfold mirror
    rw [List.length_cons]
    by_cases hin : i ≤ k ∧ k ≤ i + (text.length + 1) - 1
    · obtain ⟨j, rfl⟩ := Nat.exists_eq_add_of_le hin.1
      have hj : j < (c :: text).reverse.length := by
        rw [List.length_reverse, List.length_cons]
        omega
      rw [if_pos hin, write_of_mem hj, List.getElem_reverse,
        show i + (i + (text.length + 1) - 1) - (i + j) = i + (text.length - j) by omega,
        write_of_mem (by rw [List.length_cons]; omega)]
      simp only [List.length_cons, Nat.add_sub_cancel]
    · rw [if_neg hin, write_of_notMem (by rw [List.length_cons]; omega),
        write_of_notMem (by rw [List.length_reverse, List.length_cons]; omega)]

/-- What is written behind a slice does not take part in its mirroring. -/
theorem mirror_write_comm (h : hi < i) :
    mirror (write f i text) lo hi = write (mirror f lo hi) i text := by
  funext k
  by_cases hin : lo ≤ k ∧ k ≤ hi
  · rw [mirror, if_pos hin, write_of_notMem (by omega), write_of_notMem (by omega), mirror,
      if_pos hin]
  · rw [mirror, if_neg hin, write, write, mirror, if_neg hin]

end Theory.Slice
