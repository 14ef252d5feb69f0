import Coronel.Verify.Screen
import Coronel.Verify.Stdlib

/-!
# Integers on the screen

`print` takes every integral type to the one virtual function `printd`, whose argument is an `int`.
What is printed is the decimal numeral of the converted value, so it is that of the value if and only
if an `int` holds the value.
-/

namespace Coronel

open Theory Theory.Numeral Theory.Slice

variable {d z : Int}

/-! ### The text of an integer -/

/-- `itoa` of the screen is the text that `itoa` leaves in its buffer. -/
theorem itoa_eq_text (b : Base) (value : Int64) : itoa value.toInt b.toNat = Stdlib.text b value := by
  have hzero : value = 0 ↔ value.toInt = 0 := Int64.toInt_inj.symm
  have hdec : b.toNat = 10 ↔ b = .dec := by cases b <;> decide
  have hlt : value < 0 ↔ value.toInt < 0 := Int64.lt_iff_toInt_lt
  rw [itoa]
  by_cases h0 : value = 0
  · rw [if_pos (hzero.mp h0), Stdlib.text_of_zero h0]
  rw [if_neg (mt hzero.mpr h0), Stdlib.text_eq h0]
  have hchar : (fun digit => if digit < 10 then UInt8.ofNat (48 + digit)
      else UInt8.ofNat (97 + digit - 10)) = digitChar := by
    funext digit
    rw [digitChar, ← apply_ite UInt8.ofNat, show 97 + digit - 10 = 87 + digit by omega]
  have huvalue : ((if decide (b.toNat = 10 ∧ value.toInt < 0) = true then -value.toInt
      else value.toInt) % 2 ^ 64).toNat = (Stdlib.denoted b value).natAbs := by
    have hbits := Stdlib.toNat_toUInt64 value
    have hlow := value.le_toInt
    have hhigh := value.toInt_lt
    simp only [decide_eq_true_eq, hdec, Stdlib.denoted]
    by_cases hb : b = .dec
    · simp only [hb, true_and, if_true]
      split <;> omega
    · simp only [hb, false_and, if_false]
      omega
  dsimp only
  rw [hchar, huvalue]
  simp only [decide_eq_true_eq, hdec, hlt]
  rfl

/-- The numeral of an integer of 64 bits. -/
theorem itoa_eq_signed (h1 : -2 ^ 63 ≤ d) (h2 : d < 2 ^ 63) : itoa d 10 = signed 10 d := by
  have hd : (Int64.ofInt d).toInt = d := Int64.toInt_ofInt_of_le h1 h2
  have h := itoa_eq_text .dec (Int64.ofInt d)
  rw [hd, Stdlib.text, Stdlib.denoted, if_pos rfl, hd] at h
  exact h

/-- The characters of a numeral are printed: none is a line break or a zero. -/
theorem printed_of_mem_signed {c : UInt8} (h : c ∈ signed 10 z) : c ≠ 0 ∧ Screen.breaks c = false := by
  have hrange : 45 ≤ c.toNat := by
    rcases List.mem_append.mp h with h | h
    · split at h
      · rw [List.mem_singleton.mp h]
        decide
      · exact absurd h List.not_mem_nil
    · obtain ⟨d, hd, rfl⟩ := exists_of_mem_numeral (by decide) h
      rw [toNat_digitChar (by omega)]
      split <;> omega
  constructor
  · rintro rfl
    exact absurd hrange (by decide)
  · rw [Screen.breaks, Bool.or_eq_false_iff, beq_eq_false_iff_ne, beq_eq_false_iff_ne]
    constructor
    · rintro rfl
      exact absurd hrange (by decide)
    · rintro rfl
      exact absurd hrange (by decide)

/-- The numeral of a 64-bit integer is short. -/
theorem length_signed_le (h1 : -2 ^ 64 < z) (h2 : z < 2 ^ 64) : (signed 10 z).length ≤ 21 := by
  have hdigits : (numeral 10 z.natAbs).length ≤ 20 :=
    (length_numeral_le_iff (by decide)).mpr ⟨by omega, by decide⟩
  rw [signed, List.length_append]
  split
  · rw [List.length_singleton]
    omega
  · rw [List.length_nil]
    omega

theorem IntegralType.Value.bounds {type : IntegralType} (value : type.Value) :
    -2 ^ 63 ≤ value.val ∧ value.val < 2 ^ 64 := by
  have h1 := value.least_le
  have h2 := value.le_greatest
  cases type <;> simp only [IntegralType.least, IntegralType.greatest] at h1 h2 <;> omega

theorem toInt32_bounds : -2 ^ 31 ≤ toInt32 z ∧ toInt32 z < 2 ^ 31 := by
  simp only [toInt32, Int.bmod]
  split <;> omega

theorem toInt32_eq_iff : toInt32 z = z ↔ -2 ^ 31 ≤ z ∧ z < 2 ^ 31 := by
  simp only [toInt32, Int.bmod]
  split <;> omega

namespace Screen

variable {s s' : Screen} {text text' : List UInt8} {buffer : CharBuffer} {n : Nat}

/-- A text without a zero is printed as it is. -/
theorem untilNul_append {rest : List UInt8} (hzero : 0 ∉ text) :
    untilNul (text ++ rest) = text ++ untilNul rest := by
  rw [untilNul, List.takeWhile_append_of_pos]
  · rfl
  · intro c hc
    refine decide_eq_true fun h0 => hzero ?_
    rwa [← h0]

/-- What `prints` takes from a buffer that holds a string. -/
theorem untilNul_of_hasString (h : Stdlib.HasString buffer text) (hn : text.length < n)
    (hzero : 0 ∉ text) : untilNul ((List.range n).map buffer.bytes) = text := by
  obtain ⟨k, rfl⟩ := Nat.exists_eq_add_of_lt hn
  have htext : (List.range text.length).map buffer.bytes = text := by
    refine List.ext_getElem (by simp) fun i h1 h2 => ?_
    have hi := h i (by rw [List.length_append]; omega)
    rw [List.getElem_append_left h2, Nat.zero_add] at hi
    rw [List.getElem_map, List.getElem_range, hi]
  have hend : buffer.bytes text.length = 0 := by
    have hi := h text.length (by simp)
    rw [List.getElem_append_right (Nat.le_refl _), Nat.zero_add] at hi
    simpa using hi
  rw [Nat.add_assoc, List.range_add, List.map_append, htext, untilNul_append hzero,
    List.range_succ_eq_map, List.map_cons, List.map_cons, Nat.add_zero, hend]
  exact List.append_nil _

/-- What is printed of an integer. -/
theorem printd_signed (h1 : -2 ^ 63 ≤ d) (h2 : d < 2 ^ 63) :
    printd s d = (signed 10 d).foldl printc s := by
  have hzero : 0 ∉ signed 10 d := fun h => (printed_of_mem_signed h).1 rfl
  have huntil : untilNul (signed 10 d ++ []) = signed 10 d ++ untilNul [] := untilNul_append hzero
  rw [List.append_nil] at huntil
  rw [printd, itoa_eq_signed h1 h2, prints_eq, huntil]
  exact congrArg _ (List.append_nil _)

/-- `printd` prints what `itoa` leaves in the 32 bytes of its buffer. -/
theorem printd_eq (bytes : Nat → UInt8) (h1 : -2 ^ 63 ≤ d) (h2 : d < 2 ^ 63) : printd s d =
    prints s ((List.range 32).map (Stdlib.itoa (Stdlib.fresh bytes) 32 (Int64.ofInt d) .dec).bytes) := by
  have hd : (Int64.ofInt d).toInt = d := Int64.toInt_ofInt_of_le h1 h2
  have htext : Stdlib.text .dec (Int64.ofInt d) = signed 10 d := by
    rw [Stdlib.text, Stdlib.denoted, if_pos rfl, hd]
    rfl
  have hlen := length_signed_le (z := d) (by omega) (by omega)
  have hzero : 0 ∉ signed 10 d := fun h => (printed_of_mem_signed h).1 rfl
  have hbuffer : Stdlib.HasString (Stdlib.itoa (Stdlib.fresh bytes) 32 (Int64.ofInt d) .dec)
      (signed 10 d) := by
    rw [Stdlib.HasString, (Stdlib.itoa_wrote .dec _ _ (by decide)).bytes, htext]
    exact hasText_write
  rw [printd_signed h1 h2, prints_eq, untilNul_of_hasString hbuffer (by omega) hzero]

/-- A text of less than a row, without line breaks, stands in the first row. -/
theorem layout_eq (hlen : text.length < width) (hbreaks : ∀ c ∈ text, breaks c = false) :
    layout text = ⟨[], text⟩ := by
  induction text using List.reverseRecOn with
  | nil => rfl
  | append_singleton text c ih =>
    rw [List.length_append, List.length_singleton] at hlen
    have ih := ih (by omega) fun c hc => hbreaks c (List.mem_append_left _ hc)
    have hc := hbreaks c (List.mem_append_right _ List.mem_cons_self)
    have hput : (TextLayout.put ⟨[], text⟩ c).current.length ≠ width := by
      simp only [TextLayout.put, List.length_append, List.length_singleton]
      omega
    rw [layout, List.foldl_append, ← layout, ih]
    change TextLayout.append width breaks _ c = _
    rw [TextLayout.append, if_neg (by rw [hc]; decide), if_neg hput]
    rfl

/-- Two short texts that leave the same screen are the same. -/
theorem text_inj (hlen : text.length < width) (hlen' : text'.length < width)
    (hbreaks : ∀ c ∈ text, breaks c = false) (hbreaks' : ∀ c ∈ text', breaks c = false)
    (h : text.foldl printc (clear s) = text'.foldl printc (clear s)) : text = text' := by
  have hshows : Shows (text.foldl printc (clear s)) _ := text_shows (clear_shows s)
  have hshows' : Shows (text'.foldl printc (clear s)) _ := text_shows (clear_shows s)
  rw [← layout, layout_eq hlen hbreaks] at hshows
  rw [← layout, layout_eq hlen' hbreaks', ← h] at hshows'
  refine List.ext_getElem (hshows.col.symm.trans hshows'.col) fun x h1 h2 => ?_
  have hcell := hshows.cells 0 (by decide) x (by omega)
  have hcell' := hshows'.cells 0 (by decide) x (by omega)
  rw [hcell] at hcell'
  have := UInt8.toNat_inj.mp hcell'
  simpa [TextLayout.cell, TextLayout.charAt, TextLayout.rows, TextLayout.top, height, h1, h2] using this

/-- Two integers with the same print are the same. -/
theorem signed_screen_inj {z' : Int} (h1 : -2 ^ 64 < z) (h2 : z < 2 ^ 64) (h1' : -2 ^ 64 < z')
    (h2' : z' < 2 ^ 64)
    (h : (signed 10 z).foldl printc (clear s) = (signed 10 z').foldl printc (clear s)) : z = z' := by
  have hlen := length_signed_le h1 h2
  have hlen' := length_signed_le h1' h2'
  apply signed_inj (b := 10) (by decide) (by decide)
  apply text_inj (s := s) _ _ _ _ h
  · exact hlen.trans_lt (by decide)
  · exact hlen'.trans_lt (by decide)
  · exact fun c hc => (printed_of_mem_signed hc).2
  · exact fun c hc => (printed_of_mem_signed hc).2

/-- **Integers of every type.** `print` sends the decimal numeral of a value to the screen if and
only if an `int` holds the value. -/
theorem printValue_iff (type : IntegralType) (value : type.Value) :
    (∀ s, printValue s (.integral type value) = (signed 10 value.val).foldl printc s) ↔
      -2 ^ 31 ≤ value.val ∧ value.val < 2 ^ 31 := by
  obtain ⟨hlow, hhigh⟩ := value.bounds
  obtain ⟨hlow', hhigh'⟩ := toInt32_bounds (z := value.val)
  have hprint : ∀ s, printValue s (.integral type value) =
      (signed 10 (toInt32 value.val)).foldl printc s :=
    fun s => printd_signed (by omega) (by omega)
  rw [← toInt32_eq_iff]
  constructor
  · intro h
    have hscreen := (hprint (clear (new fun _ => 0))).symm.trans (h _)
    exact signed_screen_inj (by omega) (by omega) (by omega) (by omega) hscreen
  · intro h s
    rw [hprint, h]

/-- The `uint32_t` 2147483648 is printed as the negative number with the same bits. -/
theorem not_printValue_unsigned : ¬∀ type (value : IntegralType.Value type) (s : Screen),
    printValue s (.integral type value) = (signed 10 value.val).foldl printc s := by
  intro hall
  have h := hall .uint32 ⟨2 ^ 31, by decide, by decide⟩ (clear (new fun _ => 0))
  have hprint := printd_signed (s := clear (new fun _ => 0)) (d := toInt32 (2 ^ 31))
    (by decide) (by decide)
  have := signed_screen_inj (by decide) (by decide) (by decide) (by decide) (hprint.symm.trans h)
  exact absurd this (by decide)

end Screen
end Coronel
