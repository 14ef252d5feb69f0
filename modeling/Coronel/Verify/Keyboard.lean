import Coronel.Kernel.Keyboard
import Mathlib.Data.List.Induction

/-!
# The shift keys

Two keys share one flag. It is cleared when either key is released, so it is right as long as no key
is released while the other is held.
-/

namespace Coronel

namespace Keyboard

/-- The scancode that an interrupt delivers, if there is one. -/
def scancode (ports : Ports) : Option UInt8 :=
  if ports statusPort &&& dataInBuffer = 0 then none else some (ports dataPort)

/-- The bytes that a sequence of interrupts delivers. -/
def scancodes (interrupts : List Ports) : List UInt8 := interrupts.filterMap scancode

/-- The key with the make code `c` has been pressed and not released: the last byte about it is
`c`, not the break code. -/
def held (c : UInt8) (bytes : List UInt8) : Bool :=
  bytes.foldl (fun down b => if b = c then true else if b = c ||| 0x80 then false else down) false

/-- One of the two shift keys is held. -/
def shiftHeld (bytes : List UInt8) : Bool := held 0x2a bytes || held 0x36 bytes

/-- The byte `b` releases a shift key while the other one is held. -/
def ReleasesOne (bytes : List UInt8) (b : UInt8) : Prop :=
  b = 0xaa ∧ held 0x36 bytes = true ∨ b = 0xb6 ∧ held 0x2a bytes = true

instance (bytes : List UInt8) (b : UInt8) : Decidable (ReleasesOne bytes b) :=
  inferInstanceAs (Decidable (_ ∧ _ ∨ _ ∧ _))

section
variable {behind behindShift : Nat → UInt8} {self : Keyboard} {interrupts : List Ports}
  {ports : Ports} {bytes : List UInt8} {b c : UInt8}

/-! ### One interrupt -/

theorem onKeyup_shift : (self.onKeyup b).shift = if b = 0xaa ∨ b = 0xb6 then false else self.shift := by
  rw [onKeyup]
  split <;> rfl

theorem onKeydown_shift : (onKeydown behind behindShift self b).shift =
    if b = 0x2a ∨ b = 0x36 then true else self.shift := by
  rw [onKeydown]
  split
  · rfl
  · split <;> rfl

/-- A make code of a shift key sets the flag, a break code clears it, and no other byte counts. -/
theorem onKeyboard_shift (h : scancode ports = some b) :
    (onKeyboard behind behindShift self ports).shift =
      if b = 0x2a ∨ b = 0x36 then true else if b = 0xaa ∨ b = 0xb6 then false else self.shift := by
  rw [scancode] at h
  split at h
  · cases h
  next hstatus =>
    obtain rfl := Option.some.inj h
    rw [onKeyboard]
    dsimp only
    rw [if_neg hstatus]
    generalize ports dataPort = b
    by_cases hup : b &&& 0x80 = 0
    · have h1 : ¬(b = 0xaa ∨ b = 0xb6) := by
        rintro (rfl | rfl) <;> exact absurd hup (by decide)
      rw [if_neg (not_not_intro hup), onKeydown_shift, if_neg h1]
    · have h1 : ¬(b = 0x2a ∨ b = 0x36) := by
        rintro (rfl | rfl) <;> exact hup (by decide)
      rw [if_pos hup, onKeyup_shift, if_neg h1]

/-- Without a byte in the buffer the keyboard stays as it is. -/
theorem onKeyboard_of_none (h : scancode ports = none) :
    onKeyboard behind behindShift self ports = self := by
  rw [scancode] at h
  split at h
  · next hstatus => rw [onKeyboard, if_pos hstatus]
  · cases h

/-! ### Held keys -/

theorem held_append : held c (bytes ++ [b]) =
    if b = c then true else if b = c ||| 0x80 then false else held c bytes := by
  rw [held, List.foldl_append]
  rfl

theorem releaseLeft : (0x2a : UInt8) ||| 0x80 = 0xaa := by decide

theorem releaseRight : (0x36 : UInt8) ||| 0x80 = 0xb6 := by decide

/-- The flag follows the two keys over a byte that does not release one of two. -/
theorem shiftHeld_append (h : ¬ReleasesOne bytes b) : shiftHeld (bytes ++ [b]) =
    if b = 0x2a ∨ b = 0x36 then true else if b = 0xaa ∨ b = 0xb6 then false
      else shiftHeld bytes := by
  rw [ReleasesOne] at h
  rw [shiftHeld, held_append, held_append, shiftHeld]
  by_cases h1 : b = 0x2a
  · subst h1
    rfl
  by_cases h2 : b = 0x36
  · subst h2
    simp [releaseLeft]
  by_cases h3 : b = 0xaa
  · subst h3
    have hother : held 0x36 bytes = false := by simpa using h
    simp [releaseLeft, releaseRight, hother]
  by_cases h4 : b = 0xb6
  · subst h4
    have hother : held 0x2a bytes = false := by simpa using h
    simp [releaseLeft, releaseRight, hother]
  simp [releaseLeft, releaseRight, h1, h2, h3, h4]

/-- After the release of one of two the other key is held. -/
theorem shiftHeld_of_releasesOne (h : ReleasesOne bytes b) :
    shiftHeld (bytes ++ [b]) = true ∧ (b = 0xaa ∨ b = 0xb6) := by
  rw [shiftHeld, held_append, held_append]
  rcases h with ⟨rfl, h⟩ | ⟨rfl, h⟩
  · simp [releaseRight, h]
  · simp [releaseLeft, h]

theorem scancodes_append : scancodes (interrupts ++ [ports]) =
    scancodes interrupts ++ (scancode ports).toList := by
  rw [scancodes, List.filterMap_append, scancodes]
  rcases h : scancode ports with _ | b <;> simp [h]

theorem run_append : run behind behindShift self (interrupts ++ [ports]) =
    onKeyboard behind behindShift (run behind behindShift self interrupts) ports := by
  rw [run, List.foldl_append]
  rfl

/-- **Shift.** In every state of a run from no key held, the flag says whether a shift key is held,
if and only if no interrupt of the run releases one of them while the other is held. -/
theorem shift_iff : (∀ p, p <+: interrupts →
      (run behind behindShift new p).shift = shiftHeld (scancodes p)) ↔
    ∀ p ports, p ++ [ports] <+: interrupts → ∀ b ∈ scancode ports, ¬ReleasesOne (scancodes p) b := by
  constructor
  · intro h p ports hp b hb hr
    have hflag := h _ hp
    obtain ⟨hheld, hbreak⟩ := shiftHeld_of_releasesOne hr
    have hno : ¬(b = 0x2a ∨ b = 0x36) := by
      rintro (rfl | rfl) <;> exact absurd hbreak (by decide)
    rw [run_append, onKeyboard_shift hb, if_neg hno, if_pos hbreak, scancodes_append, hb,
      Option.toList_some, hheld] at hflag
    cases hflag
  · intro h p
    induction p using List.reverseRecOn with
    | nil => exact fun _ => rfl
    | append_singleton p ports ih =>
      intro hp
      have ih := ih ((List.prefix_append ..).trans hp)
      rw [run_append, scancodes_append]
      rcases hb : scancode ports with _ | b
      · rw [onKeyboard_of_none hb, ih, Option.toList_none, List.append_nil]
      · rw [onKeyboard_shift hb, ih, Option.toList_some, shiftHeld_append (h p ports hp b hb)]

/-- An interrupt with the byte `b` in the buffer. -/
def deliver (b : UInt8) : Ports := fun port => if port = statusPort then 1 else b

/-- Both keys are pressed and one is released. -/
theorem not_shift_both : ¬∀ behind behindShift interrupts,
    (run behind behindShift new interrupts).shift = shiftHeld (scancodes interrupts) := by
  intro hall
  have := hall (fun _ => 0) (fun _ => 0) [deliver 0x2a, deliver 0x36, deliver 0xaa]
  exact absurd this (by decide)

end
end Keyboard
end Coronel
