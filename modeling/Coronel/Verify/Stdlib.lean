import Coronel.Kernel.Stdlib
import Coronel.Theory.Numeral

/-!
# What `itoa` and `memmove` leave in memory

The text of a value is its numeral, signed in base 10 only. `itoa` writes the text and a zero behind
it, from the start of the buffer on, and nothing else: the first loop writes the digits in the
opposite order, the second one exchanges them in place. The size is not looked at again, so that the
bound of the buffer holds for the values whose text is short enough. `memmove` is a copy from a
memory that no longer changes, however its two ranges overlap.
-/

namespace Coronel

open Theory Theory.Bytes Theory.Numeral Theory.Slice

namespace Stdlib

/-- The number that `itoa` writes: `value`, and in the bases other than 10 its 64 bits. -/
def denoted (b : Base) (value : Int64) : Int :=
  if b = .dec then value.toInt else value.toUInt64.toNat

/-- The text of a value. -/
def text (b : Base) (value : Int64) : List UInt8 := signed b.toNat (denoted b value)

/-- `text` is the canonical numeral of `value`: it reads as the value, has a minus in front of a
negative decimal only, and behind it lowercase digits without a leading zero. -/
structure IsNumeral (b : Base) (value : Int64) (text : List UInt8) : Prop where
  reads : readSigned b.toNat text = some (denoted b value)
  sign : text.head? = some minus ↔ b = .dec ∧ value < 0
  digits : ∀ c ∈ unsigned text, 48 ≤ c ∧ c ≤ 57 ∨ 97 ≤ c ∧ c ≤ 102
  noLeadingZero : (unsigned text).head? = some 48 → unsigned text = [48]

/-- The buffer holds the string `text`. -/
def HasString (buffer : CharBuffer) (text : List UInt8) : Prop := HasText buffer.bytes 0 (text ++ [0])

/-- From `buffer` to `buffer'`, `text` was written from index `i` on. -/
structure Wrote (buffer buffer' : CharBuffer) (i : Nat) (text : List UInt8) : Prop where
  bytes : buffer'.bytes = write buffer.bytes i text
  stores : ∀ k, k ∈ buffer'.stores ↔ k ∈ buffer.stores ∨ i ≤ k ∧ k < i + text.length

/-- `itoa` has written below `size` only, and a zero is among the bytes there. -/
structure Bounded (size : Nat) (buffer : CharBuffer) : Prop where
  stores : ∀ k ∈ buffer.stores, k < size
  terminated : ∃ k < size, buffer.bytes k = 0

/-- The buffer before the call. -/
def fresh (bytes : Nat → UInt8) : CharBuffer := ⟨bytes, []⟩

/-- A text of `n` characters is enough for the value: in base 10 the sign takes one. -/
def FitsIn (n : Nat) (value : Int64) (b : Base) : Prop :=
  if b = .dec ∧ value < 0 then value.toInt.natAbs < 10 ^ (n - 1)
  else value.toUInt64.toNat < b.toNat ^ n

instance (n : Nat) (value : Int64) (b : Base) : Decidable (FitsIn n value b) :=
  inferInstanceAs (Decidable (if b = .dec ∧ value < 0 then value.toInt.natAbs < 10 ^ (n - 1)
    else value.toUInt64.toNat < b.toNat ^ n))

variable {b : Base} {value : Int64} {size i j k n : Nat} {buffer buffer' : CharBuffer}
  {c : UInt8} {t t' : List UInt8}

/-! ### Values -/

theorem negative_iff : b = .dec ∧ value < 0 ↔ denoted b value < 0 := by
  unfold denoted
  split
  next h => rw [and_iff_right h, Int64.lt_iff_toInt_lt]; rfl
  next h => exact iff_of_false (fun h' => h h'.1) (by omega)

/-- The bits of a value, as a number. -/
theorem toNat_toUInt64 (value : Int64) : (value.toUInt64.toNat : Int) = value.toInt % 2 ^ 64 := by
  have hbits : value.toUInt64.toNat = value.toBitVec.toNat := rfl
  have hint : value.toInt = value.toBitVec.toInt := rfl
  have hlt := value.toBitVec.isLt
  rw [hbits, hint, BitVec.toInt_eq_toNat_cond]
  split <;> omega

theorem denoted_eq_zero : denoted b value = 0 ↔ value = 0 := by
  have hzero : value = 0 ↔ value.toInt = 0 := Int64.toInt_inj.symm
  have hlow := value.le_toInt
  have hhigh := value.toInt_lt
  rw [denoted, hzero, toNat_toUInt64]
  split <;> omega

/-- The digits are those of the absolute value, also of the least value. -/
theorem toNat_magnitude : (if b = .dec ∧ value < 0 then -value else value).toUInt64.toNat =
    (denoted b value).natAbs := by
  have hlow := value.le_toInt
  split
  next h =>
    have hneg : value.toInt < 0 := Int64.lt_iff_toInt_lt.mp h.2
    have hbits := toNat_toUInt64 (-value)
    rw [Int64.toInt_neg] at hbits
    have hmod := Int.bmod_emod (x := -value.toInt) (m := 2 ^ 64)
    rw [denoted, if_pos h.1]
    omega
  next h =>
    have hpos : ¬denoted b value < 0 := mt negative_iff.mpr h
    rw [denoted] at hpos ⊢
    split at hpos
    next hb =>
      rw [if_pos hb]
      have hbits := toNat_toUInt64 value
      have hhigh := value.toInt_lt
      omega
    next hb => rw [if_neg hb, Int.natAbs_natCast]

/-! ### The text -/

theorem base_le (b : Base) : b.toNat ≤ 36 := b.toNat_le.trans (by decide)

theorem text_of_zero (h : value = 0) : text b value = [48] := by
  rw [text, denoted_eq_zero.mpr h]
  rfl

/-- The text of a value that is not zero, from its digits. -/
theorem text_eq (h : value ≠ 0) : text b value =
    ((Nat.digits b.toNat (denoted b value).natAbs).map digitChar ++
      if b = .dec ∧ value < 0 then [minus] else []).reverse := by
  have hne : (denoted b value).natAbs ≠ 0 := by
    rw [Int.natAbs_ne_zero]
    exact mt denoted_eq_zero.mp h
  rw [text, signed, numeral_of_ne_zero hne, List.reverse_append]
  congr 1
  by_cases hneg : b = .dec ∧ value < 0
  · rw [if_pos hneg, if_pos (negative_iff.mp hneg)]
    rfl
  · rw [if_neg hneg, if_neg (mt negative_iff.mpr hneg)]
    rfl

theorem text_ne_nil : text b value ≠ [] := by
  rw [text, signed]
  exact List.append_ne_nil_of_right_ne_nil _ numeral_ne_nil

/-- A digit of a base up to 16, as a character. -/
theorem digitChar_range {d : Nat} (hd : d < 16) :
    48 ≤ digitChar d ∧ digitChar d ≤ 57 ∨ 97 ≤ digitChar d ∧ digitChar d ≤ 102 := by
  simp only [UInt8.le_iff_toNat_le, toNat_digitChar (show d < 36 by omega)]
  split
  · exact .inl ⟨by simp, by simp; omega⟩
  · exact .inr ⟨by simp; omega, by simp; omega⟩

theorem isNumeral_text (b : Base) (value : Int64) : IsNumeral b value (text b value) where
  reads := readSigned_signed b.one_lt_toNat (base_le b)
  sign := (head_signed b.one_lt_toNat (base_le b)).trans negative_iff.symm
  digits c hc := by
    rw [text, unsigned_signed b.one_lt_toNat (base_le b)] at hc
    obtain ⟨d, hd, rfl⟩ := exists_of_mem_numeral b.one_lt_toNat hc
    exact digitChar_range (hd.trans_le b.toNat_le)
  noLeadingZero h := by
    rw [text, unsigned_signed b.one_lt_toNat (base_le b)] at h ⊢
    exact numeral_of_head_zero b.one_lt_toNat (base_le b) h

/-- The length of the text is a matter of the size of the value. -/
theorem length_text_le_iff (hn : 0 < n) : (text b value).length ≤ n ↔ FitsIn n value b := by
  have hdigits := fun k => length_numeral_le_iff (n := (denoted b value).natAbs) (k := k)
    b.one_lt_toNat
  rw [text, signed, List.length_append, FitsIn]
  by_cases hneg : b = .dec ∧ value < 0
  · have habs : denoted b value = value.toInt := if_pos hneg.1
    have hlt : value.toInt < 0 := Int64.lt_iff_toInt_lt.mp hneg.2
    rw [if_pos hneg, if_pos (negative_iff.mp hneg), List.length_singleton,
      show 1 + (numeral b.toNat (denoted b value).natAbs).length ≤ n ↔
        (numeral b.toNat (denoted b value).natAbs).length ≤ n - 1 by omega, hdigits, habs, hneg.1]
    refine and_iff_left_of_imp fun h => Nat.pos_of_ne_zero fun h0 => ?_
    rw [h0, Nat.pow_zero] at h
    omega
  · rw [if_neg hneg, if_neg (mt negative_iff.mpr hneg), List.length_nil, Nat.zero_add, hdigits,
      and_iff_left hn, ← toNat_magnitude, if_neg hneg]

/-! ### Writing -/

theorem Wrote.refl (buffer : CharBuffer) (i : Nat) : Wrote buffer buffer i [] := by
  refine ⟨write_nil.symm, fun k => (or_iff_left ?_).symm⟩
  rw [List.length_nil]
  omega

/-- One more character is written. -/
theorem Wrote.store (h : Wrote buffer buffer' i t) (hj : j = i + t.length) :
    Wrote buffer (buffer'.store j c) i (t ++ [c]) := by
  subst hj
  constructor
  · rw [CharBuffer.store, h.bytes, write_append, write_cons, write_nil]
  · intro k
    have hlast : i ≤ k ∧ k < i + (t ++ [c]).length ↔ k = i + t.length ∨ i ≤ k ∧ k < i + t.length := by
      rw [List.length_append, List.length_singleton]
      omega
    rw [CharBuffer.store, List.mem_cons, h.stores, hlast, or_left_comm]

theorem Wrote.trans {buffer₁ buffer₂ buffer₃ : CharBuffer} (h : Wrote buffer₁ buffer₂ i t)
    (h' : Wrote buffer₂ buffer₃ (i + t.length) t') : Wrote buffer₁ buffer₃ i (t ++ t') := by
  constructor
  · rw [h'.bytes, h.bytes, write_append]
  · intro k
    have hboth : i ≤ k ∧ k < i + (t ++ t').length ↔
        i ≤ k ∧ k < i + t.length ∨ i + t.length ≤ k ∧ k < i + t.length + t'.length := by
      rw [List.length_append]
      omega
    rw [h'.stores, h.stores, hboth, or_assoc]

/-- The character of a digit, as the loop computes it. -/
theorem char_eq (b : Base) (uvalue : UInt64) :
    (if (uvalue % b.toUInt64).toUInt8 < 10 then 48 + (uvalue % b.toUInt64).toUInt8
      else 97 + (uvalue % b.toUInt64).toUInt8 - 10) = digitChar (uvalue.toNat % b.toNat) := by
  have hlt := Nat.mod_lt uvalue.toNat (Nat.zero_lt_of_lt b.one_lt_toNat)
  have hle := b.toNat_le
  have hdigit : (uvalue % b.toUInt64).toUInt8.toNat = uvalue.toNat % b.toNat := by
    rw [UInt64.toNat_toUInt8, UInt64.toNat_mod, b.toNat_toUInt64]
    exact Nat.mod_eq_of_lt (by omega)
  generalize (uvalue % b.toUInt64).toUInt8 = digit at hdigit ⊢
  apply UInt8.toNat_inj.mp
  rw [toNat_digitChar (by omega), ← hdigit]
  by_cases h10 : digit < 10
  · have h10' : digit.toNat < 10 := UInt8.lt_iff_toNat_lt.mp h10
    rw [if_pos h10, if_pos h10', UInt8.toNat_add]
    exact Nat.mod_eq_of_lt (by simp; omega)
  · have h10' : ¬digit.toNat < 10 := fun hd => h10 (UInt8.lt_iff_toNat_lt.mpr hd)
    rw [if_neg h10, if_neg h10', UInt8.toNat_sub, UInt8.toNat_add]
    simp
    omega

/-- The first loop writes the digits, the lowest first. -/
theorem digitLoop_spec (b : Base) (uvalue : UInt64) (i : Nat) (buffer : CharBuffer) :
    (digitLoop b uvalue i buffer).1 = i + (Nat.digits b.toNat uvalue.toNat).length ∧
    Wrote buffer (digitLoop b uvalue i buffer).2 i
      ((Nat.digits b.toNat uvalue.toNat).map digitChar) := by
  induction uvalue, i, buffer using digitLoop.induct b with
  | case1 i buffer =>
    rw [digitLoop, dif_pos rfl, UInt64.toNat_zero, Nat.digits_zero]
    exact ⟨rfl, Wrote.refl buffer i⟩
  | case2 uvalue i buffer h digit c ih =>
    have hne : uvalue.toNat ≠ 0 := fun h0 => h (UInt64.toNat_inj.mp h0)
    have hc : c = digitChar (uvalue.toNat % b.toNat) := char_eq b uvalue
    have hloop : digitLoop b uvalue i buffer =
        digitLoop b (uvalue / b.toUInt64) (i + 1) (buffer.store i c) := by
      rw [digitLoop, dif_neg h]
      rfl
    rw [hloop, Nat.digits_eq_cons_digits_div b.one_lt_toNat hne]
    rw [UInt64.toNat_div, b.toNat_toUInt64] at ih
    refine ⟨?_, ?_⟩
    · rw [ih.1, List.length_cons]
      omega
    · rw [List.map_cons, ← hc]
      exact ((Wrote.refl buffer i).store rfl).trans ih.2

/-- The second loop mirrors the bytes between its two indices. -/
theorem reverseLoop_bytes (j i : Nat) (buffer : CharBuffer) :
    (reverseLoop j i buffer).bytes = mirror buffer.bytes j i := by
  induction j, i, buffer using reverseLoop.induct with
  | case1 j i buffer h temp buffer₁ buffer₂ ih =>
    rw [reverseLoop, if_pos h]
    exact ih.trans (mirror_swap h)
  | case2 j i buffer h =>
    rw [reverseLoop, if_neg h, mirror_of_le (Nat.le_of_not_lt h)]

theorem reverseLoop_stores (j i : Nat) (buffer : CharBuffer) :
    ∃ is, (reverseLoop j i buffer).stores = is ++ buffer.stores ∧ ∀ k ∈ is, j ≤ k ∧ k ≤ i := by
  induction j, i, buffer using reverseLoop.induct with
  | case1 j i buffer h temp buffer₁ buffer₂ ih =>
    obtain ⟨is, h1, h2⟩ := ih
    rw [reverseLoop, if_pos h]
    refine ⟨is ++ [i, j], ?_, ?_⟩
    · rw [List.append_assoc]
      exact h1
    · intro k hk
      rcases List.mem_append.mp hk with hk | hk
      · have := h2 k hk
        omega
      · simp only [List.mem_cons, List.not_mem_nil, or_false] at hk
        omega
  | case2 j i buffer h =>
    rw [reverseLoop, if_neg h]
    exact ⟨[], rfl, by simp⟩

/-! ### The whole call -/

/-- The bytes that are mirrored lie inside the text that was written. -/
theorem Wrote.reverse (h : Wrote buffer buffer' 0 (t ++ [0])) (ht : t ≠ []) :
    Wrote buffer (reverseLoop 0 (t.length - 1) buffer') 0 (t.reverse ++ [0]) := by
  have hlen := List.length_pos_of_ne_nil ht
  constructor
  · have hmirror : mirror (write buffer.bytes 0 t) 0 (0 + t.length - 1) =
        write buffer.bytes 0 t.reverse := mirror_write
    have hbytes : buffer'.bytes = write (write buffer.bytes 0 t) t.length [0] := by
      rw [h.bytes, write_append, Nat.zero_add]
    rw [reverseLoop_bytes, hbytes, write_append, List.length_reverse, Nat.zero_add, ← hmirror,
      Nat.zero_add]
    exact mirror_write_comm (by omega)
  · obtain ⟨is, hstores, his⟩ := reverseLoop_stores 0 (t.length - 1) buffer'
    intro k
    have hk : k ∈ is → 0 ≤ k ∧ k < 0 + (t ++ [0]).length := fun hk => by
      have := his k hk
      rw [List.length_append]
      omega
    have hlen' : (t.reverse ++ [0]).length = (t ++ [0]).length := by simp
    rw [hstores, List.mem_append, h.stores, or_left_comm, hlen']
    exact or_congr_right (or_iff_right_of_imp hk)

/-- The sign, the zero and the reversal, behind the digits. -/
theorem Wrote.finish (negative : Bool) (h : Wrote buffer buffer' 0 t) (ht : t ≠ []) :
    let r := if negative then (t.length + 1, buffer'.store t.length minus) else (t.length, buffer')
    Wrote buffer (reverseLoop 0 (r.1 - 1) (r.2.store r.1 0)) 0
      ((t ++ if negative then [minus] else []).reverse ++ [0]) := by
  cases negative with
  | false =>
    rw [if_neg Bool.false_ne_true, if_neg Bool.false_ne_true, List.append_nil]
    exact (h.store (Nat.zero_add _).symm).reverse ht
  | true =>
    have hsign := h.store (c := minus) (Nat.zero_add _).symm
    have hlen : t.length + 1 = (t ++ [minus]).length := by simp
    rw [if_pos rfl, if_pos rfl]
    dsimp only
    rw [hlen]
    exact (hsign.store (Nat.zero_add _).symm).reverse (by simp)

/-- **The writes of `itoa`**, when it does not refuse its size. -/
theorem itoa_wrote (b : Base) (value : Int64) (buffer : CharBuffer) (hsize : 1 < size) :
    Wrote buffer (itoa buffer size value b) 0 (text b value ++ [0]) := by
  rw [itoa, if_neg (by omega)]
  by_cases h0 : value = 0
  · rw [if_pos h0, text_of_zero h0]
    exact ((Wrote.refl buffer 0).store rfl).store rfl
  have hmagnitude := @toNat_magnitude b value
  have hdigits : Nat.digits b.toNat (denoted b value).natAbs ≠ [] := by
    rw [Ne, Nat.digits_eq_nil_iff_eq_zero, Int.natAbs_eq_zero, denoted_eq_zero]
    exact h0
  rw [if_neg h0, text_eq h0]
  simp only [decide_eq_true_eq]
  obtain ⟨h1, h2⟩ := digitLoop_spec b (if b = .dec ∧ value < 0 then -value else value).toUInt64 0 buffer
  rw [hmagnitude, Nat.zero_add, ← List.length_map digitChar] at h1
  rw [hmagnitude] at h2
  have hfinish := h2.finish (decide (b = .dec ∧ value < 0)) (by simpa using hdigits)
  simp only [decide_eq_true_eq, ← h1] at hfinish
  exact hfinish

/-- **Numerals.** In a buffer that is long enough, `itoa` leaves the canonical numeral of the value
and a zero behind it. -/
theorem itoa_numeral (h : (text b value).length < size) :
    IsNumeral b value (text b value) ∧ HasString (itoa buffer size value b) (text b value) := by
  have hpos := List.length_pos_of_ne_nil (@text_ne_nil b value)
  refine ⟨isNumeral_text b value, ?_⟩
  rw [HasString, (itoa_wrote b value buffer (by omega)).bytes]
  exact hasText_write

/-- The least value has 20 characters. -/
theorem itoa_numeral_least :
    IsNumeral .dec Int64.minValue (text .dec Int64.minValue) ∧
    HasString (itoa (fresh fun _ => 0) 32 Int64.minValue .dec) (text .dec Int64.minValue) :=
  itoa_numeral (Nat.lt_succ_of_le ((length_text_le_iff (n := 31) (by decide)).mpr (by decide)))

/-! ### The size -/

/-- The highest index that is written is that of the zero. -/
theorem stores_lt_iff (b : Base) (value : Int64) (bytes : Nat → UInt8) (hsize : 1 < size) :
    (∀ k ∈ (itoa (fresh bytes) size value b).stores, k < size) ↔ FitsIn (size - 1) value b := by
  have hwrote := itoa_wrote b value (fresh bytes) hsize
  have hmem : ∀ k, k ∈ (itoa (fresh bytes) size value b).stores ↔ k < (text b value).length + 1 := by
    intro k
    rw [hwrote.stores, List.length_append, List.length_singleton, Nat.zero_add]
    simp [fresh]
  rw [← length_text_le_iff (by omega)]
  constructor
  · intro h
    have := h _ ((hmem (text b value).length).mpr (by omega))
    omega
  · intro h k hk
    have := (hmem k).mp hk
    omega

/-- **The size is respected** if and only if it leaves room for the text, or is 1 and the buffer
begins with a zero: of one byte nothing is written. -/
theorem bounded_iff (b : Base) (value : Int64) (bytes : Nat → UInt8) (hsize : 1 ≤ size) :
    Bounded size (itoa (fresh bytes) size value b) ↔
      size = 1 ∧ bytes 0 = 0 ∨ 2 ≤ size ∧ FitsIn (size - 1) value b := by
  by_cases h1 : size = 1
  · subst h1
    have hnone : itoa (fresh bytes) 1 value b = fresh bytes := if_pos (le_refl 1)
    rw [hnone]
    constructor
    · intro h
      obtain ⟨k, hk, hzero⟩ := h.terminated
      obtain rfl : k = 0 := by omega
      exact .inl ⟨rfl, hzero⟩
    · intro h
      rcases h with h | h
      · exact ⟨fun k hk => absurd hk List.not_mem_nil, 0, Nat.one_pos, h.2⟩
      · omega
  have h2 : 1 < size := by omega
  constructor
  · intro h
    exact .inr ⟨h2, (stores_lt_iff b value bytes h2).mp h.stores⟩
  · intro h
    have hfits : FitsIn (size - 1) value b := by
      rcases h with h | h
      · exact absurd h.1 h1
      · exact h.2
    have hlen := (length_text_le_iff (by omega)).mpr hfits
    refine ⟨(stores_lt_iff b value bytes h2).mpr hfits, (text b value).length, by omega, ?_⟩
    have htext := (itoa_wrote b value (fresh bytes) h2).bytes
    rw [htext, ← Nat.zero_add (text b value).length, write_of_mem (by simp)]
    simp

theorem bounded_iff_hundred : Bounded 4 (itoa (fresh fun _ => 1) 4 100 .dec) ↔
    4 = 1 ∧ (1 : UInt8) = 0 ∨ 2 ≤ 4 ∧ FitsIn (4 - 1) 100 .dec :=
  bounded_iff .dec 100 (fun _ => 1) (by decide)

/-- The zero behind the four digits of 1000 is written behind a buffer of four bytes. -/
theorem not_bounded_thousand : ¬∀ b value bytes size, 1 ≤ size →
    Bounded size (itoa (fresh bytes) size value b) := by
  intro hall
  have h := (hall .dec 1000 (fun _ => 0) 4 (by decide)).stores
  exact absurd ((stores_lt_iff .dec 1000 (fun _ => 0) (by decide)).mp h) (by decide)

/-! ### memmove -/

variable {m : Mem} {d dest src : Nat}

/-- The loop upwards, with the destination below the source. -/
theorem moveForward_eq (hlt : d < src) (hd : d + n ≤ 2 ^ 64) (hs : src + n ≤ 2 ^ 64) :
    moveForward d src n m = copy m d src n := by
  induction n generalizing d src m with
  | zero => rw [moveForward, copy_zero]
  | succ n ih =>
    rw [moveForward, copy_succ (.inl hlt.le)]
    cases n with
    | zero => rw [moveForward, copy_zero]
    | succ n =>
      rw [add64_eq (by omega), add64_eq (by omega)]
      exact ih (by omega) (by omega) (by omega)

/-- The pointer behind a range that may end with memory, one byte back. -/
theorem sub64_add64_succ (hd : d + (n + 1) ≤ 2 ^ 64) : sub64 (add64 d (n + 1)) 1 = d + n := by
  unfold sub64 add64
  omega

theorem moveBackward_zero : moveBackward d src 0 m = m := rfl

theorem moveBackward_succ : moveBackward d src (n + 1) m = moveBackward (sub64 d 1) (sub64 src 1) n
    (Function.update m (sub64 d 1) (m (sub64 src 1))) := by
  delta moveBackward
  rfl

/-- The loop downwards, with the source below the destination. -/
theorem moveBackward_eq (hle : src ≤ d) (hd : d + n ≤ 2 ^ 64) (hs : src + n ≤ 2 ^ 64) :
    moveBackward (add64 d n) (add64 src n) n m = copy m d src n := by
  induction n generalizing m with
  | zero => rw [moveBackward_zero, copy_zero]
  | succ n ih =>
    rw [moveBackward_succ, sub64_add64_succ hd, sub64_add64_succ hs, copy_succ_last (.inl hle)]
    have ih := @ih (Function.update m (d + n) (m (src + n))) (by omega) (by omega)
    rwa [add64_eq (by omega), add64_eq (by omega)] at ih

theorem memmove_eq (hd : dest + n ≤ 2 ^ 64) (hs : src + n ≤ 2 ^ 64) :
    memmove dest src n m = (dest, copy m dest src n) := by
  unfold memmove
  split
  next h => rw [moveForward_eq h hd hs]
  next h => rw [moveBackward_eq (Nat.le_of_not_lt h) hd hs]

/-- **memmove.** Whatever the two ranges have in common, the destination gets the bytes that the
source had, and every other byte stays. -/
theorem memmove_moves (m : Mem) (hd : dest + n ≤ 2 ^ 64) (hs : src + n ≤ 2 ^ 64) :
    (∀ i < n, (memmove dest src n m).2 (dest + i) = m (src + i)) ∧
    ∀ a, a < dest ∨ dest + n ≤ a → (memmove dest src n m).2 a = m a := by
  rw [memmove_eq hd hs]
  dsimp only
  constructor
  · intro i hi
    rw [copy_of_mem (by omega) (by omega), Nat.add_sub_cancel_left]
  · exact fun a ha => copy_of_not_mem ha

/-- Two ranges of three bytes that have two in common, at the end of memory. -/
theorem memmove_moves_overlap :
    (∀ i < 3, (memmove (2 ^ 64 - 3) (2 ^ 64 - 4) 3 fun a => UInt8.ofNat a).2 (2 ^ 64 - 3 + i) =
      UInt8.ofNat (2 ^ 64 - 4 + i)) ∧
    ∀ a, a < 2 ^ 64 - 3 ∨ 2 ^ 64 - 3 + 3 ≤ a →
      (memmove (2 ^ 64 - 3) (2 ^ 64 - 4) 3 fun a => UInt8.ofNat a).2 a = UInt8.ofNat a :=
  memmove_moves (fun a => UInt8.ofNat a) (by decide) (by decide)

end Stdlib
end Coronel
