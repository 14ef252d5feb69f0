import Mathlib.Logic.Function.Basic
import Mathlib.Tactic.Ring

/-!
# Words on a stack

A stack that grows down in a memory of 8-byte words. `Holds m sp ws` says that the words `ws` lie
from `sp` up, the last one pushed first; `Room m sp n` that `n` more can be pushed.
-/

namespace Theory

/-- A memory of words at their addresses, `none` where nothing is mapped. -/
abbrev WordMem := Nat → Option Nat

/-- The words `ws` lie from `sp` up. -/
def Holds (m : WordMem) : Nat → List Nat → Prop
  | _, [] => True
  | sp, w :: ws => m sp = some w ∧ Holds m (sp + 8) ws

/-- The `n` words below `sp` are mapped. -/
def Room (m : WordMem) (sp n : Nat) : Prop := ∀ i < n, 8 * i + 8 ≤ sp ∧ m (sp - (8 * i + 8)) ≠ none

/-- The `n` words from `p` up. -/
def readWords (m : WordMem) : Nat → Nat → Option (List Nat)
  | 0, _ => some []
  | n + 1, p => do
    let w ← m p
    let ws ← readWords m n (p + 8)
    return w :: ws

section
variable {m m' : WordMem} {sp w n : Nat} {ws us : List Nat}

theorem Holds.congr (h : Holds m sp ws) (hm : ∀ i < ws.length, m' (sp + 8 * i) = m (sp + 8 * i)) :
    Holds m' sp ws := by
  induction ws generalizing sp with
  | nil => trivial
  | cons w ws ih =>
    refine ⟨(hm 0 (by simp)).trans h.1, ih h.2 fun i hi => ?_⟩
    have := hm (i + 1) (by simpa using hi)
    rwa [show sp + 8 * (i + 1) = sp + 8 + 8 * i by omega] at this

theorem Holds.push (h : Holds m sp ws) (h8 : 8 ≤ sp) :
    Holds (Function.update m (sp - 8) (some w)) (sp - 8) (w :: ws) := by
  refine ⟨Function.update_self .., ?_⟩
  rw [Nat.sub_add_cancel h8]
  exact h.congr fun i _ => Function.update_of_ne (by omega) ..

theorem Holds.append (h : Holds m sp (us ++ ws)) : Holds m (sp + 8 * us.length) ws := by
  induction us generalizing sp with
  | nil => exact h
  | cons u us ih =>
    have := ih h.2
    rwa [show sp + 8 + 8 * us.length = sp + 8 * (u :: us).length by simp; omega] at this

theorem Holds.readWords (h : Holds m sp ws) : readWords m ws.length sp = some ws := by
  induction ws generalizing sp with
  | nil => rfl
  | cons w ws ih =>
    rw [List.length_cons, Theory.readWords, h.1, ih h.2]
    rfl

theorem Room.push (h : Room m sp (n + 1)) :
    Room (Function.update m (sp - 8) (some w)) (sp - 8) n := by
  intro i hi
  obtain ⟨h1, h2⟩ := h (i + 1) (by omega)
  refine ⟨by omega, ?_⟩
  rwa [Function.update_of_ne (by omega), show sp - 8 - (8 * i + 8) = sp - (8 * (i + 1) + 8) by omega]

end
end Theory
