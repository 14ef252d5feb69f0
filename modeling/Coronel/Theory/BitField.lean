import Mathlib.Data.Nat.Bitwise
import Mathlib.Tactic.Ring

/-!
# Bit fields

A field is `len` bits of a word from the bit `off` up. `get` reads it and `set` writes the low
`len` bits of a value into it. Both are given by their bits, and every lemma about two fields
follows from where their bits lie.
-/

namespace Theory

/-- The mask that keeps bits `j` to `k - 1`. -/
theorem and_mask {j k : Nat} (a : Nat) (h : j ≤ k) :
    a &&& (2 ^ k - 2 ^ j) = a % 2 ^ k / 2 ^ j * 2 ^ j := by
  have hmask : 2 ^ k - 2 ^ j = (2 ^ (k - j) - 1) <<< j := by
    have := Nat.pow_add 2 (k - j) j
    rw [Nat.sub_add_cancel h] at this
    rw [Nat.shiftLeft_eq, Nat.sub_mul, this, Nat.one_mul]
  have hshift : a % 2 ^ k / 2 ^ j * 2 ^ j = ((a % 2 ^ k) >>> j) <<< j := by
    rw [Nat.shiftLeft_eq, Nat.shiftRight_eq_div_pow]
  rw [hmask, hshift]
  apply Nat.eq_of_testBit_eq
  intro i
  simp only [Nat.testBit_and, Nat.testBit_shiftLeft, Nat.testBit_two_pow_sub_one,
    Nat.testBit_shiftRight, Nat.testBit_mod_two_pow]
  by_cases hi : j ≤ i
  · rw [show j + (i - j) = i by omega]
    by_cases hlt : i < k
    · simp [hi, hlt, show i - j < k - j by omega]
    · simp [hlt, show ¬ i - j < k - j by omega]
  · simp [hi]

/-- The bits `off` to `off + len - 1`. -/
structure BitField where
  off : Nat
  len : Nat
deriving DecidableEq, Repr

namespace BitField

/-- The field `f` of the word `w`. -/
def get (f : BitField) (w : Nat) : Nat := (w >>> f.off) % 2 ^ f.len

/-- The word `w` with `v` written to the field `f`. -/
def set (f : BitField) (w v : Nat) : Nat :=
  w % 2 ^ f.off ||| (v % 2 ^ f.len) <<< f.off ||| (w >>> (f.off + f.len)) <<< (f.off + f.len)

/-- The two fields have no bit in common. -/
def Apart (f g : BitField) : Prop := f.off + f.len ≤ g.off ∨ g.off + g.len ≤ f.off

instance (f g : BitField) : Decidable (Apart f g) := inferInstanceAs (Decidable (_ ∨ _))

variable {f g : BitField} {w v i n : Nat}

theorem testBit_get : (f.get w).testBit i = (decide (i < f.len) && w.testBit (f.off + i)) := by
  rw [get, Nat.testBit_mod_two_pow, Nat.testBit_shiftRight]

/-- A bit of the word after a write. -/
theorem testBit_set : (f.set w v).testBit i =
    if f.off ≤ i ∧ i < f.off + f.len then v.testBit (i - f.off) else w.testBit i := by
  simp only [set, Nat.testBit_or, Nat.testBit_mod_two_pow, Nat.testBit_shiftLeft,
    Nat.testBit_shiftRight]
  by_cases h1 : i < f.off
  · have h2 : ¬f.off ≤ i := by omega
    have h3 : ¬f.off + f.len ≤ i := by omega
    simp [h1, h2, h3]
  by_cases h2 : i < f.off + f.len
  · have h3 : ¬f.off + f.len ≤ i := by omega
    have h4 : i - f.off < f.len := by omega
    simp [h1, h2, h3, h4, Nat.le_of_not_lt h1]
  · have h3 : ¬i - f.off < f.len := by omega
    have h4 : f.off + f.len + (i - (f.off + f.len)) = i := by omega
    simp [h1, h2, h3, h4, Nat.le_of_not_lt h2]

theorem get_lt : f.get w < 2 ^ f.len := Nat.mod_lt _ (Nat.two_pow_pos _)

theorem get_set_self : f.get (f.set w v) = v % 2 ^ f.len := by
  apply Nat.eq_of_testBit_eq
  intro i
  rw [testBit_get, testBit_set, Nat.testBit_mod_two_pow, Nat.add_sub_cancel_left]
  by_cases h : i < f.len
  · rw [if_pos (by omega)]
  · simp [h]

/-- A write to another field is not seen. -/
theorem get_set_of_apart (h : Apart f g) : f.get (g.set w v) = f.get w := by
  apply Nat.eq_of_testBit_eq
  intro i
  rw [testBit_get, testBit_get, testBit_set]
  by_cases hi : i < f.len
  · rw [if_neg (by rw [Apart] at h; omega)]
  · simp [hi]

/-- A field inside the one written has its part of the value. -/
theorem get_set_of_within (h1 : g.off ≤ f.off) (h2 : f.off + f.len ≤ g.off + g.len) :
    f.get (g.set w v) = (⟨f.off - g.off, f.len⟩ : BitField).get v := by
  apply Nat.eq_of_testBit_eq
  intro i
  rw [testBit_get, testBit_get, testBit_set]
  by_cases hi : i < f.len
  · rw [if_pos (by omega), show f.off - g.off + i = f.off + i - g.off by omega]
  · simp [hi]

/-- A field that ends with the word. -/
theorem get_mod (h : f.off + f.len ≤ n) : f.get (w % 2 ^ n) = f.get w := by
  apply Nat.eq_of_testBit_eq
  intro i
  rw [testBit_get, testBit_get, Nat.testBit_mod_two_pow]
  by_cases hi : i < f.len
  · have : f.off + i < n := by omega
    simp [this]
  · simp [hi]

theorem set_lt (h : f.off + f.len ≤ n) (hw : w < 2 ^ n) : f.set w v < 2 ^ n := by
  apply Nat.lt_pow_two_of_testBit
  intro i hi
  rw [testBit_set, if_neg (by omega), Nat.testBit_lt_two_pow (hw.trans_le (Nat.pow_le_pow_right
    (by decide) hi))]

theorem get_shiftRight : f.get (w >>> i) = (⟨i + f.off, f.len⟩ : BitField).get w := by
  rw [get, get, Nat.shiftRight_add]

/-- A field is put together from its low bits and the rest. -/
theorem get_append {o : Nat} : (⟨o, i⟩ : BitField).get w + 2 ^ i * (⟨o + i, n⟩ : BitField).get w =
    (⟨o, i + n⟩ : BitField).get w := by
  simp only [get, Nat.shiftRight_add]
  rw [Nat.shiftRight_eq_div_pow _ i, Nat.pow_add, Nat.mod_mul]

/-- A value of the low bits of a word. -/
theorem get_zero_of_lt (h : w < 2 ^ n) : (⟨0, n⟩ : BitField).get w = w := Nat.mod_eq_of_lt h

end BitField
end Theory
