import Mathlib.Data.Fintype.Card
import Mathlib.Data.Set.Finite.Lattice
import Mathlib.Logic.Relation

/-!
# Recursion without a measure

A function that calls itself at every `b` with `r a b` before it returns at `a`, run with fuel. Over
a finite type it returns with enough fuel exactly when no call that it leads to leads back to
itself.
-/

namespace Theory

open Relation

/-- `run n a`: the call at `a` returns when at most `n` calls are open at a time. -/
structure Fueled {α : Type} (r : α → α → Prop) (run : Nat → α → Prop) : Prop where
  zero : ∀ a, ¬run 0 a
  succ : ∀ n a, run (n + 1) a ↔ ∀ b, r a b → run n b

section
variable {α : Type} {r : α → α → Prop} {run : Nat → α → Prop} {a b : α} {n m : Nat}

theorem Fueled.mono (F : Fueled r run) (h : run n a) (hnm : n ≤ m) : run m a := by
  induction n generalizing a m with
  | zero => exact absurd h (F.zero a)
  | succ n ih =>
    obtain ⟨m, rfl⟩ : ∃ k, m = k + 1 := ⟨m - 1, by omega⟩
    rw [F.succ] at h ⊢
    exact fun b hb => ih (h b hb) (by omega)

/-- A call that returns is accessible. -/
theorem Fueled.acc (F : Fueled r run) (h : run n a) : Acc (Function.swap r) a := by
  induction n generalizing a with
  | zero => exact absurd h (F.zero a)
  | succ n ih => exact .intro a fun b hb => ih ((F.succ n a).mp h b hb)

/-- The fuel for finitely many calls is that of the longest. -/
theorem Fueled.of_acc [Finite α] (F : Fueled r run) (h : Acc (Function.swap r) a) :
    ∃ n, run n a := by
  induction h with
  | intro a _ ih =>
    choose! fuel hfuel using ih
    obtain ⟨N, hN⟩ := (Set.finite_range fuel).bddAbove
    exact ⟨N + 1, (F.succ N a).mpr fun b hb =>
      F.mono (hfuel b hb) (hN (Set.mem_range_self b))⟩

/-- Over a finite type a point is accessible unless it leads to a cycle. -/
theorem acc_iff_no_cycle [Finite α] : Acc (Function.swap r) a ↔
    ∀ b, ReflTransGen r a b → ¬TransGen r b b := by
  constructor
  · intro h
    induction h with
    | intro a _ ih =>
      -- a cycle through `a` begins with a call
      have hno : ∀ b, TransGen r a b → ¬TransGen r b b := fun b hb => by
        obtain ⟨c, hc, hcb⟩ := TransGen.head'_iff.mp hb
        exact ih c hc b hcb
      intro b hb hcycle
      rcases reflTransGen_iff_eq_or_transGen.mp hb with rfl | hb
      · exact hno _ hcycle hcycle
      · exact hno b hb hcycle
  · intro h
    have hwf : WellFounded fun x y : { b // ReflTransGen r a b } => TransGen r y.1 x.1 := by
      have : IsTrans { b // ReflTransGen r a b } fun x y => TransGen r y.1 x.1 :=
        ⟨fun _ _ _ h1 h2 => h2.trans h1⟩
      have : Std.Irrefl fun x y : { b // ReflTransGen r a b } => TransGen r y.1 x.1 :=
        ⟨fun x => h x.1 x.2⟩
      exact Finite.wellFounded_of_trans_of_irrefl _
    have hacc : ∀ x : { b // ReflTransGen r a b }, Acc (Function.swap r) x.1 := fun x => by
      induction x using hwf.induction with
      | _ x ih => exact .intro _ fun b hb => ih ⟨b, x.2.tail hb⟩ (.single hb)
    exact hacc ⟨a, .refl⟩

/-- **Fuel.** A call returns with enough fuel if and only if it leads to no cycle. -/
theorem Fueled.exists_iff [Finite α] (F : Fueled r run) : (∃ n, run n a) ↔
    ∀ b, ReflTransGen r a b → ¬TransGen r b b := by
  rw [← acc_iff_no_cycle]
  constructor
  · rintro ⟨n, h⟩
    exact F.acc h
  · exact F.of_acc

end
end Theory
