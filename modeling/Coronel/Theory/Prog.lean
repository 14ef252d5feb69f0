import Mathlib.Order.UpperLower.CompleteLattice

/-!
# Programs over a growing state

A `Prog` is a state transformer that may stop on a trap and that never moves its state down a
preorder: the proof is a field, so every program built from `Prog` operations has it. A promise
about the future of a run (`C : LowerSet σ`, closed under going back to an earlier state) then
holds at every intermediate state as soon as it holds at the last one, and `Prog.Safe.bind` can
hand it to each half of a sequence.

`Prog.Safe C E x s Q`: if the run of `x` from `s` keeps the promise `C`, it either ends in `Q` or
stops on a trap of `E`. `Prog.Keeps R x`: each run of `x` relates its two ends by `R`.
`Prog.Returns x Q`: each result of `x` meets `Q`.
-/

namespace Theory

/-- A state transformer that may trap, and whose state only grows. -/
@[ext] structure Prog (ε σ : Type) [Preorder σ] (α : Type) where
  run : σ → Except ε α × σ
  grows : ∀ s, s ≤ (run s).2

namespace Prog

variable {ε σ α β : Type} [Preorder σ]

/-- Run `x`, then `f` on its result; a trap of `x` skips `f`. -/
protected def bind (x : Prog ε σ α) (f : α → Prog ε σ β) : Prog ε σ β where
  run s := match x.run s with
    | (.ok a, s') => (f a).run s'
    | (.error e, s') => (.error e, s')
  grows s := by
    have hx := x.grows s
    rcases h : x.run s with ⟨a | a, s'⟩ <;> rw [h] at hx
    · exact hx
    · exact hx.trans ((f a).grows s')

instance : Monad (Prog ε σ) where
  pure a := ⟨fun s => (.ok a, s), fun _ => le_rfl⟩
  bind := Prog.bind

/-- Stop on the trap `e`. -/
def throw (e : ε) : Prog ε σ α := ⟨fun s => (.error e, s), fun _ => le_rfl⟩

def get : Prog ε σ σ := ⟨fun s => (.ok s, s), fun _ => le_rfl⟩

def modify (f : σ → σ) (h : ∀ s, s ≤ f s) : Prog ε σ Unit := ⟨fun s => (.ok (), f s), h⟩

/-! ### Runs -/

@[simp] theorem run_pure (a : α) (s : σ) : (pure a : Prog ε σ α).run s = (.ok a, s) := rfl

@[simp] theorem run_throw (e : ε) (s : σ) : (throw e : Prog ε σ α).run s = (.error e, s) := rfl

@[simp] theorem run_get (s : σ) : (get : Prog ε σ σ).run s = (.ok s, s) := rfl

@[simp] theorem run_modify (f : σ → σ) (h : ∀ s, s ≤ f s) (s : σ) :
    (modify f h : Prog ε σ Unit).run s = (.ok (), f s) := rfl

theorem le_of_run {x : Prog ε σ α} {r : Except ε α} {s s' : σ} (h : x.run s = (r, s')) : s ≤ s' := by
  have := x.grows s
  rwa [h] at this

theorem run_bind (x : Prog ε σ α) (f : α → Prog ε σ β) (s : σ) :
    (x >>= f).run s = match x.run s with
      | (.ok a, s') => (f a).run s'
      | (.error e, s') => (.error e, s') := rfl

theorem run_bind_ok {x : Prog ε σ α} {f : α → Prog ε σ β} {s s' : σ} {a : α}
    (h : x.run s = (.ok a, s')) : (x >>= f).run s = (f a).run s' := by
  rw [run_bind, h]

/-- `run_bind_ok`, with what `f` continues as. -/
theorem run_bind_to {x : Prog ε σ α} {f : α → Prog ε σ β} {y : Prog ε σ β} {s s' : σ} {a : α}
    (h : x.run s = (.ok a, s')) (hf : f a = y) : (x >>= f).run s = y.run s' := by
  rw [run_bind_ok h, hf]

theorem run_bind_error {x : Prog ε σ α} {f : α → Prog ε σ β} {s s' : σ} {e : ε}
    (h : x.run s = (.error e, s')) : (x >>= f).run s = (.error e, s') := by
  rw [run_bind, h]

instance : LawfulMonad (Prog ε σ) := by
  refine LawfulMonad.mk' _ (fun x => Prog.ext (funext fun s => ?_)) (fun _ _ => rfl)
    fun x f g => Prog.ext (funext fun s => ?_)
  · change (x >>= fun a => pure (id a)).run s = _
    rcases h : x.run s with ⟨e | a, s'⟩
    · rw [run_bind_error h]
    · rw [run_bind_ok h, run_pure, id]
  · rcases h : x.run s with ⟨e | a, s'⟩
    · rw [run_bind_error h, run_bind_error (run_bind_error h)]
    · rw [run_bind_ok h, run_bind, run_bind_ok h, run_bind]

/-- A choice before `f` is a choice of what `f` follows. -/
theorem ite_bind {c : Prop} [Decidable c] {x y : Prog ε σ α} {f : α → Prog ε σ β} :
    (if c then x else y) >>= f = if c then x >>= f else y >>= f := by
  split <;> rfl

/-- A sequence that completes splits at the state between its halves. -/
theorem run_bind_eq_ok {x : Prog ε σ α} {f : α → Prog ε σ β} {s s'' : σ} {b : β} :
    (x >>= f).run s = (.ok b, s'') ↔
      ∃ a s', x.run s = (.ok a, s') ∧ (f a).run s' = (.ok b, s'') := by
  rw [run_bind]
  rcases h : x.run s with ⟨a | a, s'⟩
  · constructor
    · intro H; cases H
    · rintro ⟨_, _, H, _⟩; cases H
  · constructor
    · exact fun H => ⟨a, s', rfl, H⟩
    · rintro ⟨_, _, H, H'⟩; cases H; exact H'

/-! ### Safety relative to a promise -/

variable {C : LowerSet σ} {E : ε → Prop}

/-- If the run of `x` from `s` keeps the promise `C`, it ends in `Q` or stops on a trap of `E`. -/
def Safe (C : LowerSet σ) (E : ε → Prop) (x : Prog ε σ α) (s : σ) (Q : α → σ → Prop) : Prop :=
  (x.run s).2 ∈ C → match (x.run s).1 with
    | .ok a => Q a (x.run s).2
    | .error e => E e

namespace Safe

variable {x : Prog ε σ α} {f : α → Prog ε σ β} {s s' : σ} {Q R : α → σ → Prop}
  {Q' : β → σ → Prop}

theorem ok (H : Safe C E x s Q) (h : x.run s = (.ok a, s')) (hC : s' ∈ C) : Q a s' := by
  unfold Safe at H
  rw [h] at H
  exact H hC

theorem exists_ok (H : Safe C E x s Q) (hC : (x.run s).2 ∈ C) (hE : ∀ e, ¬E e) :
    ∃ a s', x.run s = (.ok a, s') ∧ Q a s' := by
  have := H hC
  rcases hx : x.run s with ⟨e | a, s'⟩ <;> rw [hx] at this
  · exact absurd this (hE e)
  · exact ⟨a, s', rfl, this⟩

theorem of_run {a : α} (h : x.run s = (.ok a, s')) (H : s' ∈ C → Q a s') : Safe C E x s Q := by
  unfold Safe
  rw [h]
  exact H

theorem pure {a : α} (H : Q a s) : Safe C E (Pure.pure a) s Q := fun _ => H

theorem throw {e : ε} (H : E e) : Safe C E (Prog.throw e) s Q := fun _ => H

theorem get {Q : σ → σ → Prop} (H : Q s s) : Safe C E Prog.get s Q := fun _ => H

theorem modify {g : σ → σ} {hg : ∀ s, s ≤ g s} {Q : Unit → σ → Prop} (H : g s ∈ C → Q () (g s)) :
    Safe C E (Prog.modify g hg) s Q := H

theorem mono (H : Safe C E x s Q) (h : ∀ a s', s' ∈ C → Q a s' → R a s') : Safe C E x s R := by
  intro hC
  have := H hC
  rcases hx : x.run s with ⟨a | a, s'⟩ <;> rw [hx] at this hC
  · exact this
  · exact h _ _ hC this

theorem weaken {E' : ε → Prop} (H : Safe C E x s Q) (h : ∀ e, E e → E' e) :
    Safe C E' x s Q := by
  intro hC
  have := H hC
  rcases hx : x.run s with ⟨a | a, s'⟩ <;> rw [hx] at this
  · exact h _ this
  · exact this

theorem and (H : Safe C E x s Q) (H' : Safe C E x s R) :
    Safe C E x s fun a s' => Q a s' ∧ R a s' := by
  intro hC
  have h := H hC
  have h' := H' hC
  rcases hx : x.run s with ⟨a | a, s'⟩ <;> rw [hx] at h h'
  · exact h
  · exact ⟨h, h'⟩

/-- What is known of a result can use the run it came from. -/
theorem and_run (H : Safe C E x s Q) :
    Safe C E x s fun a s' => Q a s' ∧ x.run s = (.ok a, s') := by
  intro hC
  have h := H hC
  rcases hx : x.run s with ⟨a | a, s'⟩ <;> rw [hx] at h
  · exact h
  · exact ⟨h, rfl⟩

/-- The promise at the end of a sequence holds in its middle, since the state only grows. -/
theorem bind (H : Safe C E x s Q) (h : ∀ a s', s' ∈ C → Q a s' → Safe C E (f a) s' Q') :
    Safe C E (x >>= f) s Q' := by
  unfold Safe at H ⊢
  rw [run_bind]
  rcases hx : x.run s with ⟨a | a, s'⟩ <;> rw [hx] at H
  · exact H
  · intro hC
    have hC' : s' ∈ C := C.lower ((f a).grows s') hC
    exact h a s' hC' (H hC') hC

theorem bind_run {a : α} (h : x.run s = (.ok a, s')) (H : Safe C E (f a) s' Q') :
    Safe C E (x >>= f) s Q' := by
  unfold Safe
  rw [run_bind_ok h]
  exact H

theorem of_run_eq {y : Prog ε σ α} (h : x.run s = y.run s) (H : Safe C E y s Q) :
    Safe C E x s Q := by
  unfold Safe
  rw [h]
  exact H

theorem bind_run_iff {a : α} (h : x.run s = (.ok a, s')) :
    Safe C E (x >>= f) s Q' ↔ Safe C E (f a) s' Q' := by
  unfold Safe
  rw [run_bind_ok h]

theorem get_bind {f : σ → Prog ε σ β} (H : Safe C E (f s) s Q') :
    Safe C E (Prog.get >>= f) s Q' := bind_run rfl H

theorem ite {c : Prop} [Decidable c] {y : Prog ε σ α} (H : c → Safe C E x s Q)
    (H' : ¬c → Safe C E y s Q) : Safe C E (if c then x else y) s Q := by
  split
  · exact H ‹_›
  · exact H' ‹_›

end Safe

/-! ### Relations kept by every run -/

/-- Every run of `x`, trapping or not, relates its first state to its last. -/
def Keeps (R : σ → σ → Prop) (x : Prog ε σ α) : Prop := ∀ s, R s (x.run s).2

namespace Keeps

variable {R : σ → σ → Prop} {x y : Prog ε σ α} {f : α → Prog ε σ β}

theorem of_run {s s' : σ} {r : Except ε α} (hx : Keeps R x) (h : x.run s = (r, s')) : R s s' := by
  have := hx s
  rwa [h] at this

theorem pure (hR : ∀ s, R s s) (a : α) : Keeps R (Pure.pure a : Prog ε σ α) := hR

theorem throw (hR : ∀ s, R s s) (e : ε) : Keeps R (Prog.throw e : Prog ε σ α) := hR

theorem bind (hR : ∀ {s s' s''}, R s s' → R s' s'' → R s s'') (hx : Keeps R x)
    (hf : ∀ a, Keeps R (f a)) : Keeps R (x >>= f) := by
  intro s
  have h := hx s
  rw [run_bind]
  rcases hx' : x.run s with ⟨a | a, s'⟩ <;> rw [hx'] at h
  · exact h
  · exact hR h (hf a s')

theorem ite {c : Prop} [Decidable c] (hx : Keeps R x) (hy : Keeps R y) :
    Keeps R (if c then x else y) := by
  split
  · exact hx
  · exact hy

end Keeps

/-! ### Results -/

/-- What `x` returns, from any state, meets `Q`. -/
def Returns (x : Prog ε σ α) (Q : α → Prop) : Prop := ∀ s a s', x.run s = (.ok a, s') → Q a

namespace Returns

variable {x y : Prog ε σ α} {f : α → Prog ε σ β} {Q R : α → Prop} {Q' : β → Prop}

theorem any (x : Prog ε σ α) : Returns x fun _ => True := fun _ _ _ _ => trivial

theorem pure {a : α} (h : Q a) : Returns (Pure.pure a : Prog ε σ α) Q := by
  rintro s _ s' hrun
  cases hrun
  exact h

theorem bind (hx : Returns x Q) (hf : ∀ a, Q a → Returns (f a) Q') : Returns (x >>= f) Q' := by
  intro s b s' hrun
  obtain ⟨a, s1, h1, h2⟩ := run_bind_eq_ok.mp hrun
  exact hf a (hx s a s1 h1) s1 b s' h2

theorem ite {c : Prop} [Decidable c] (hx : Returns x Q) (hy : Returns y Q) :
    Returns (if c then x else y) Q := by
  split
  · exact hx
  · exact hy

theorem mono (hx : Returns x Q) (h : ∀ a, Q a → R a) : Returns x R :=
  fun s a s' hrun => h a (hx s a s' hrun)

end Returns
end Prog
end Theory
