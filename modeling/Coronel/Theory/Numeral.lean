import Mathlib.Data.Nat.Digits.Lemmas

/-!
# Positional numerals

`numeral b n` is the text of `n` in base `b`, in ASCII, the highest digit first, and `read b` is the
value of a text. The numeral of a number reads as the number, has no zero in front, and fits into
`k` characters if and only if the number is below `b ^ k`. `signed` and `readSigned` put a minus in
front of the numeral of a negative number.
-/

namespace Theory.Numeral

/-- `'-'` -/
def minus : UInt8 := 45

/-- The lowercase character of a digit. -/
def digitChar (d : Nat) : UInt8 := UInt8.ofNat (if d < 10 then 48 + d else 87 + d)

/-- The digit of a character, when it is one of base `b`. -/
def readDigit (b : Nat) (c : UInt8) : Option Nat :=
  if 48 ≤ c.toNat ∧ c.toNat < 58 ∧ c.toNat - 48 < b then some (c.toNat - 48)
  else if 97 ≤ c.toNat ∧ c.toNat - 87 < b then some (c.toNat - 87)
  else none

/-- The numeral of `n`, highest digit first. -/
def numeral (b n : Nat) : List UInt8 :=
  if n = 0 then [48] else ((Nat.digits b n).map digitChar).reverse

/-- One more digit is read. -/
def readStep (b n : Nat) (c : UInt8) : Option Nat := (readDigit b c).map fun d => b * n + d

/-- The value of a text of digits. -/
def read (b : Nat) (text : List UInt8) : Option Nat :=
  if text = [] then none else text.foldlM (readStep b) 0

/-- The numeral of an integer. -/
def signed (b : Nat) (z : Int) : List UInt8 :=
  (if z < 0 then [minus] else []) ++ numeral b z.natAbs

/-- A text behind its sign. -/
def unsigned (text : List UInt8) : List UInt8 :=
  if text.head? = some minus then text.tail else text

/-- The value of a text of digits with a sign. -/
def readSigned (b : Nat) (text : List UInt8) : Option Int :=
  (read b (unsigned text)).map fun n : Nat => if text.head? = some minus then -(n : Int) else n

variable {b d k m n : Nat} {z : Int} {c : UInt8} {ds : List Nat}

/-! ### Digits -/

theorem toNat_digitChar (hd : d < 36) :
    (digitChar d).toNat = if d < 10 then 48 + d else 87 + d := by
  unfold digitChar
  split <;> exact Nat.mod_eq_of_lt (by omega)

theorem digitChar_ne_minus (hd : d < 36) : digitChar d ≠ minus := by
  intro h
  have h1 : (digitChar d).toNat = 45 := congrArg UInt8.toNat h
  rw [toNat_digitChar hd] at h1
  split at h1 <;> omega

theorem digitChar_eq_zero (hd : d < 36) (h : digitChar d = 48) : d = 0 := by
  have h1 : (digitChar d).toNat = 48 := congrArg UInt8.toNat h
  rw [toNat_digitChar hd] at h1
  split at h1 <;> omega

theorem readDigit_digitChar (hb : b ≤ 36) (hd : d < b) : readDigit b (digitChar d) = some d := by
  rw [readDigit, toNat_digitChar (by omega)]
  by_cases h10 : d < 10
  · rw [if_pos h10, if_pos (by omega)]
    congr
    omega
  · rw [if_neg h10, if_neg (by omega), if_pos (by omega)]
    congr
    omega

/-! ### Numerals -/

theorem numeral_of_ne_zero (hn : n ≠ 0) :
    numeral b n = ((Nat.digits b n).map digitChar).reverse := if_neg hn

theorem numeral_ne_nil : numeral b n ≠ [] := by
  by_cases hn : n = 0
  · rw [hn]
    exact List.cons_ne_nil _ _
  · rw [numeral_of_ne_zero hn, Ne, List.reverse_eq_nil_iff, List.map_eq_nil_iff,
      Nat.digits_eq_nil_iff_eq_zero]
    exact hn

/-- The characters of a numeral are digits of its base. -/
theorem exists_of_mem_numeral (hb : 1 < b) (h : c ∈ numeral b n) : ∃ d < b, digitChar d = c := by
  by_cases hn : n = 0
  · rw [hn] at h
    exact ⟨0, by omega, (List.mem_singleton.mp h).symm⟩
  · rw [numeral_of_ne_zero hn, List.mem_reverse, List.mem_map] at h
    obtain ⟨d, hd, rfl⟩ := h
    exact ⟨d, Nat.digits_lt_base hb hd, rfl⟩

theorem length_numeral_le_iff (hb : 1 < b) : (numeral b n).length ≤ k ↔ n < b ^ k ∧ 0 < k := by
  by_cases hn : n = 0
  · subst hn
    have hpos : 0 < b ^ k := Nat.pow_pos (by omega)
    exact (and_iff_right hpos).symm
  · rw [numeral_of_ne_zero hn, List.length_reverse, List.length_map, Nat.digits_length_le_iff hb]
    refine (and_iff_left_of_imp fun h => Nat.pos_of_ne_zero ?_).symm
    intro hk
    rw [hk, Nat.pow_zero] at h
    omega

theorem length_numeral_mono (hb : 1 < b) (h : m ≤ n) :
    (numeral b m).length ≤ (numeral b n).length := by
  rw [length_numeral_le_iff hb]
  obtain ⟨h1, h2⟩ := (length_numeral_le_iff hb).mp (le_refl (numeral b n).length)
  exact ⟨by omega, h2⟩

/-- No zero stands in front. -/
theorem numeral_of_head_zero (hb : 1 < b) (hb' : b ≤ 36) (h : (numeral b n).head? = some 48) :
    numeral b n = [48] := by
  by_cases hn : n = 0
  · exact if_pos hn
  have hne : Nat.digits b n ≠ [] := by
    rw [Ne, Nat.digits_eq_nil_iff_eq_zero]
    exact hn
  rw [numeral_of_ne_zero hn, List.head?_reverse, List.getLast?_map,
    List.getLast?_eq_some_getLast hne] at h
  have hlast := Nat.digits_lt_base hb (List.getLast_mem hne)
  have hzero := digitChar_eq_zero (by omega) (Option.some.inj h)
  exact absurd hzero (Nat.getLast_digit_ne_zero b hn)

/-! ### Reading -/

/-- The digits of a number are read back, the highest one first. -/
theorem foldlM_digits (hb : b ≤ 36) (hds : ∀ d ∈ ds, d < b) :
    (ds.map digitChar).reverse.foldlM (readStep b) 0 = some (Nat.ofDigits b ds) := by
  induction ds with
  | nil => rfl
  | cons d ds ih =>
    have ih := ih fun d hd => hds d (List.mem_cons_of_mem _ hd)
    have hd := readDigit_digitChar hb (hds d List.mem_cons_self)
    rw [List.map_cons, List.reverse_cons, List.foldlM_append, ih, Nat.ofDigits_cons]
    change readStep b _ (digitChar d) >>= _ = _
    rw [readStep, hd, Option.map_some, Nat.add_comm]
    rfl

theorem read_numeral (hb : 1 < b) (hb' : b ≤ 36) : read b (numeral b n) = some n := by
  rw [read, if_neg numeral_ne_nil]
  by_cases hn : n = 0
  · subst hn
    have h := @foldlM_digits b [0] hb' (by simp; omega)
    exact h.trans (by simp)
  · rw [numeral_of_ne_zero hn, foldlM_digits hb' fun d => Nat.digits_lt_base hb, Nat.ofDigits_digits]

/-! ### Signs -/

theorem minus_notMem_numeral (hb : 1 < b) (hb' : b ≤ 36) : minus ∉ numeral b n := by
  intro h
  obtain ⟨d, hd, he⟩ := exists_of_mem_numeral hb h
  exact digitChar_ne_minus (by omega) he

theorem head_signed (hb : 1 < b) (hb' : b ≤ 36) : (signed b z).head? = some minus ↔ z < 0 := by
  unfold signed
  split
  next hz => exact iff_of_true rfl hz
  next hz =>
    refine iff_of_false (fun h => ?_) hz
    exact minus_notMem_numeral hb hb' (List.mem_of_head? h)

theorem unsigned_signed (hb : 1 < b) (hb' : b ≤ 36) :
    unsigned (signed b z) = numeral b z.natAbs := by
  unfold unsigned
  by_cases hz : z < 0
  · rw [if_pos ((head_signed hb hb').mpr hz), signed, if_pos hz]
    rfl
  · rw [if_neg (mt (head_signed hb hb').mp hz), signed, if_neg hz]
    rfl

theorem readSigned_signed (hb : 1 < b) (hb' : b ≤ 36) : readSigned b (signed b z) = some z := by
  rw [readSigned, unsigned_signed hb hb', read_numeral hb hb', Option.map_some]
  congr 1
  by_cases hz : z < 0
  · rw [if_pos ((head_signed hb hb').mpr hz)]
    omega
  · rw [if_neg (mt (head_signed hb hb').mp hz)]
    omega

/-- Two integers with the same numeral are the same. -/
theorem signed_inj {z' : Int} (hb : 1 < b) (hb' : b ≤ 36) (h : signed b z = signed b z') :
    z = z' := by
  have h1 := readSigned_signed (z := z) hb hb'
  rw [h, readSigned_signed hb hb'] at h1
  exact (Option.some.inj h1).symm

theorem signed_natCast : signed b (n : Int) = numeral b n := by
  rw [signed, if_neg (by omega)]
  rfl

end Theory.Numeral
