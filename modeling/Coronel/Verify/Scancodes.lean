import Coronel.Verify.Keyboard

/-!
# Characters of the keys

What a US keyboard of the PC/AT sends is scan code set 1. Its layout says which make codes have a
character; the byte `0xe0` in front of a code makes it that of another key. `keyCodes` has no row for
F8, so that its rows are one too early from there on, and the keys without a character have rows of
zeros, which are sent like the others.
-/

namespace Coronel

namespace Keyboard

/-! ### Scan code set 1 -/

/-- The keys with a character, by the first make code of a group of keys in a row: the character of
each, and that with shift. `0x37`, `0x4a` and `0x4e` are on the keypad, `0x56` is the key between shift
and Z. -/
def layoutRows : List (Nat × List (Char × Char)) := [
  (0x01, [('\x1b', '\x1b')]),
  (0x02, [('1', '!'), ('2', '@'), ('3', '#'), ('4', '$'), ('5', '%'), ('6', '^'), ('7', '&'),
    ('8', '*'), ('9', '('), ('0', ')'), ('-', '_'), ('=', '+'), ('\x08', '\x08')]),
  (0x0f, [('\x09', '\x09'), ('q', 'Q'), ('w', 'W'), ('e', 'E'), ('r', 'R'), ('t', 'T'), ('y', 'Y'),
    ('u', 'U'), ('i', 'I'), ('o', 'O'), ('p', 'P'), ('[', '\x7b'), (']', '\x7d'),
    ('\x0a', '\x0a')]),
  (0x1e, [('a', 'A'), ('s', 'S'), ('d', 'D'), ('f', 'F'), ('g', 'G'), ('h', 'H'), ('j', 'J'),
    ('k', 'K'), ('l', 'L'), (';', ':'), ('\x27', '\x22'), ('\x60', '~')]),
  (0x2b, [('\x5c', '|'), ('z', 'Z'), ('x', 'X'), ('c', 'C'), ('v', 'V'), ('b', 'B'), ('n', 'N'),
    ('m', 'M'), (',', '<'), ('.', '>'), ('/', '?')]),
  (0x37, [('*', '*')]),
  (0x39, [(' ', ' ')]),
  (0x4a, [('-', '-')]),
  (0x4e, [('+', '+')]),
  (0x56, [('\x5c', '|')])]

/-- The characters of the key with make code `c`. -/
def layoutKey (c : Nat) : Option (Char × Char) :=
  layoutRows.findSome? fun row => if row.1 ≤ c then row.2[c - row.1]? else none

/-- The character of a byte, and whether `0xe0` was in front of it. Behind `0xe0` the keys with a
character are the enter key and the slash of the keypad. -/
def layoutChar (extended shift : Bool) (b : UInt8) : Option UInt8 :=
  if extended then
    if b = 0x1c then some 0x0a else if b = 0x35 then some 0x2f else none
  else
    (layoutKey b.toNat).map fun key => if shift then key.2.toUInt8 else key.1.toUInt8

/-- The shift flag after a byte. -/
def shiftAfter (shift : Bool) (b : UInt8) : Bool :=
  if b = 0x2a ∨ b = 0x36 then true else if b = 0xaa ∨ b = 0xb6 then false else shift

/-- The characters of a sequence of bytes. -/
def layoutText : Bool → Bool → List UInt8 → List UInt8
  | _, _, [] => []
  | extended, shift, b :: bytes =>
    (layoutChar extended shift b).toList ++ layoutText (b == 0xe0) (shiftAfter shift b) bytes

/-! ### What the tables give -/

/-- The byte is taken for the make code of a key with a character. -/
def LookedUp (b : UInt8) : Prop := b &&& 0x80 = 0 ∧ ¬(b = 0x2a ∨ b = 0x36)

instance (b : UInt8) : Decidable (LookedUp b) := inferInstanceAs (Decidable (_ ∧ _))

def table (shift : Bool) : List UInt8 := if shift then enUSShift else enUS

/-- What is sent for a byte. -/
def sends (behind behindShift : Nat → UInt8) (shift : Bool) (b : UInt8) : List UInt8 :=
  if LookedUp b then [lookup (table shift) (if shift then behindShift else behind) b] else []

/-- The make code of a key whose row is in place: on the main part of the keyboard up to the space
bar, or the enter key of the keypad, or its slash without shift. -/
def Placed (extended shift : Bool) (b : UInt8) : Prop :=
  if extended then b = 0x1c ∨ b = 0x35 ∧ shift = false
  else 0x01 ≤ b ∧ b ≤ 0x1c ∨ 0x1e ≤ b ∧ b ≤ 0x29 ∨ 0x2b ≤ b ∧ b ≤ 0x35 ∨ b = 0x37 ∨ b = 0x39

instance (extended shift : Bool) (b : UInt8) : Decidable (Placed extended shift b) :=
  inferInstanceAs (Decidable (if extended then b = 0x1c ∨ b = 0x35 ∧ shift = false
    else 0x01 ≤ b ∧ b ≤ 0x1c ∨ 0x1e ≤ b ∧ b ≤ 0x29 ∨ 0x2b ≤ b ∧ b ≤ 0x35 ∨ b = 0x37 ∨ b = 0x39))

/-- Every byte that is looked up is placed. -/
def AllPlaced : Bool → Bool → List UInt8 → Prop
  | _, _, [] => True
  | extended, shift, b :: bytes =>
    (LookedUp b → Placed extended shift b) ∧ AllPlaced (b == 0xe0) (shiftAfter shift b) bytes

/-- No lookup of a sequence of bytes goes past the end of its table, and what is sent is the text of
the layout. -/
structure Decodes (behind behindShift : Nat → UInt8) (interrupts : List Ports) : Prop where
  inTable : ∀ b ∈ scancodes interrupts, LookedUp b → b.toNat < keyCodes.length
  sent : (run behind behindShift new interrupts).sent = layoutText false false (scancodes interrupts)

section
variable {behind behindShift : Nat → UInt8} {self : Keyboard} {interrupts : List Ports}
  {ports : Ports} {bytes : List UInt8} {b : UInt8} {extended shift : Bool}

/-! ### One byte -/

theorem length_table (shift : Bool) : (table shift).length = 91 := by
  cases shift <;> rfl

/-- The rows of the table against those of the layout. -/
theorem layoutChar_table : ∀ n < 91, ∀ extended shift, LookedUp (UInt8.ofNat n) →
    (layoutChar extended shift (UInt8.ofNat n) = (table shift)[n]? ↔
      Placed extended shift (UInt8.ofNat n)) := by
  decide +kernel

theorem layoutChar_beyond : ∀ n < 256, 91 ≤ n → ∀ extended shift,
    layoutChar extended shift (UInt8.ofNat n) = none ∧ ¬Placed extended shift (UInt8.ofNat n) := by
  decide +kernel

theorem layoutChar_silent : ∀ n < 256, ¬LookedUp (UInt8.ofNat n) → ∀ extended shift,
    layoutChar extended shift (UInt8.ofNat n) = none := by
  decide +kernel

theorem layoutChar_of_not_lookedUp (h : ¬LookedUp b) : layoutChar extended shift b = none := by
  have hb := layoutChar_silent b.toNat b.toNat_lt
  rw [UInt8.ofNat_toNat] at hb
  exact hb h extended shift

/-- The character of the layout is what the table gives for the codes that are placed. -/
theorem layoutChar_eq_iff (behind : Nat → UInt8) (h : LookedUp b) : layoutChar extended shift b =
    some (lookup (table shift) behind b) ↔ Placed extended shift b := by
  by_cases hlt : b.toNat < 91
  · have hrow := layoutChar_table b.toNat hlt extended shift
    have hget : (table shift)[b.toNat]? = some (lookup (table shift) behind b) := by
      rw [lookup, List.getD_eq_getElem?_getD, List.getElem?_eq_getElem (by rwa [length_table])]
      rfl
    rw [UInt8.ofNat_toNat, hget] at hrow
    exact hrow h
  · have hbeyond := layoutChar_beyond b.toNat b.toNat_lt (by omega) extended shift
    rw [UInt8.ofNat_toNat] at hbeyond
    rw [hbeyond.1]
    exact iff_of_false (by simp) hbeyond.2

theorem lt_of_placed (h : Placed extended shift b) : b.toNat < keyCodes.length := by
  by_contra hge
  have hbeyond := layoutChar_beyond b.toNat b.toNat_lt (Nat.le_of_not_lt hge) extended shift
  rw [UInt8.ofNat_toNat] at hbeyond
  exact hbeyond.2 h

/-! ### One interrupt -/

theorem onKeyboard_sent (h : scancode ports = some b) :
    (onKeyboard behind behindShift self ports).sent =
      self.sent ++ sends behind behindShift self.shift b := by
  rw [scancode] at h
  split at h
  · cases h
  next hstatus =>
    obtain rfl := Option.some.inj h
    rw [onKeyboard]
    dsimp only
    rw [if_neg hstatus, sends]
    generalize ports dataPort = b
    by_cases hup : b &&& 0x80 = 0
    · rw [if_neg (not_not_intro hup), onKeydown]
      by_cases hshift : b = 0x2a ∨ b = 0x36
      · rw [if_pos hshift, if_neg fun h => h.2 hshift, List.append_nil]
      · have hlooked : LookedUp b := ⟨hup, hshift⟩
        rw [if_neg hshift, if_pos hlooked]
        cases self.shift <;> rfl
    · rw [if_pos hup, if_neg fun h => hup h.1, List.append_nil, onKeyup]
      split <;> rfl

theorem onKeyboard_shift_eq (h : scancode ports = some b) :
    (onKeyboard behind behindShift self ports).shift = shiftAfter self.shift b := onKeyboard_shift h

/-- What is sent for a sequence of bytes. -/
def sendsAll (behind behindShift : Nat → UInt8) : Bool → List UInt8 → List UInt8
  | _, [] => []
  | shift, b :: bytes =>
    sends behind behindShift shift b ++ sendsAll behind behindShift (shiftAfter shift b) bytes

theorem run_sent (behind behindShift : Nat → UInt8) (self : Keyboard) (interrupts : List Ports) :
    (run behind behindShift self interrupts).sent =
      self.sent ++ sendsAll behind behindShift self.shift (scancodes interrupts) := by
  induction interrupts generalizing self with
  | nil => exact (List.append_nil _).symm
  | cons ports interrupts ih =>
    have hrun : run behind behindShift self (ports :: interrupts) =
        run behind behindShift (onKeyboard behind behindShift self ports) interrupts := rfl
    rw [hrun, ih]
    rcases hb : scancode ports with _ | b
    · rw [onKeyboard_of_none hb, scancodes, scancodes, List.filterMap_cons_none hb]
    · rw [onKeyboard_sent hb, onKeyboard_shift_eq hb, scancodes, scancodes,
        List.filterMap_cons_some hb, sendsAll, List.append_assoc]

/-! ### A sequence of bytes -/

/-- The layout has a character for a byte only if one is sent. -/
theorem length_layoutText_le (behind behindShift : Nat → UInt8) :
    (layoutText extended shift bytes).length ≤ (sendsAll behind behindShift shift bytes).length := by
  induction bytes generalizing extended shift with
  | nil => exact Nat.le_refl _
  | cons b bytes ih =>
    have hle : (layoutChar extended shift b).toList.length ≤
        (sends behind behindShift shift b).length := by
      rw [sends]
      split
      next h => cases layoutChar extended shift b <;> simp
      next h =>
        rw [layoutChar_of_not_lookedUp h]
        exact Nat.le_refl _
    rw [layoutText, sendsAll, List.length_append, List.length_append]
    exact Nat.add_le_add hle ih

theorem layoutText_eq_iff (behind behindShift : Nat → UInt8) : sendsAll behind behindShift shift bytes = layoutText extended shift bytes ↔
    AllPlaced extended shift bytes := by
  induction bytes generalizing extended shift with
  | nil => exact iff_of_true rfl trivial
  | cons b bytes ih =>
    rw [sendsAll, layoutText, AllPlaced, ← ih, sends]
    by_cases h : LookedUp b
    · rw [if_pos h, ← layoutChar_eq_iff (if shift then behindShift else behind) h,
        List.singleton_append]
      rcases hc : layoutChar extended shift b with _ | c
      · -- one character more is sent than the layout has
        have hlen := @length_layoutText_le bytes (b == 0xe0) (shiftAfter shift b) behind behindShift
        refine iff_of_false (fun he => ?_) (by simp [h])
        have := congrArg List.length he
        simp only [Option.toList_none, List.nil_append, List.length_cons] at this
        omega
      · rw [Option.toList_some, List.singleton_append, List.cons.injEq, Option.some.injEq, eq_comm]
        exact and_congr_left fun _ => (imp_iff_right h).symm
    · rw [if_neg h, layoutChar_of_not_lookedUp h]
      exact (and_iff_right fun h' => absurd h' h).symm

theorem lt_of_allPlaced (h : AllPlaced extended shift bytes) :
    ∀ b ∈ bytes, LookedUp b → b.toNat < keyCodes.length := by
  induction bytes generalizing extended shift with
  | nil => exact fun b hb => absurd hb List.not_mem_nil
  | cons b bytes ih =>
    intro c hc hlooked
    rcases List.mem_cons.mp hc with rfl | hc
    · exact lt_of_placed (h.1 hlooked)
    · exact ih h.2 c hc hlooked

/-- **Scan codes.** The lookups stay in their tables and the text of the layout is sent, if and only
if every byte that is looked up is the make code of a key whose row is in place. -/
theorem decodes_iff : Decodes behind behindShift interrupts ↔
    AllPlaced false false (scancodes interrupts) := by
  have hsent := run_sent behind behindShift new interrupts
  rw [← layoutText_eq_iff behind behindShift]
  constructor
  · intro h
    exact hsent.symm.trans h.sent
  · intro h
    exact ⟨lt_of_allPlaced ((layoutText_eq_iff behind behindShift).mp h), hsent.trans h⟩

/-- The minus key of the keypad sends a zero: its row is one too early. -/
theorem not_decodes_minus : ¬∀ behind behindShift interrupts,
    Decodes behind behindShift interrupts := by
  intro hall
  have := (hall (fun _ => 0) (fun _ => 0) [deliver 0x4a]).sent
  exact absurd this (by decide)

end
end Keyboard
end Coronel
