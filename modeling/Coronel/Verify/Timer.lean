import Coronel.Kernel.Timer
import Mathlib.Order.Nat

/-!
# The rate of the timer

The control word of the constructor has the port of channel 0 where the number of the counter
belongs, so that it names counter 1. What counter 0 does with the divisor depends on what it did
before (`Timer.new_rate_iff`).
-/

namespace Coronel

namespace Pit

/-- A binary rate generator that counts `n`. -/
def Counter.Rate (c : Counter) (n : Nat) : Prop := c = ⟨.lohi, 2, false, none, some n⟩

/-- A binary rate generator that has no count yet. -/
def Counter.Waiting (c : Counter) : Prop := c = ⟨.lohi, 2, false, none, none⟩

/-- The counter takes the two bytes of a count, in the mode that the constructor wants. -/
structure Counter.Prepared (c : Counter) : Prop where
  access : c.access = .lohi
  mode : c.mode = 2
  bcd : c.bcd = false
  low : c.low = none

/-- Two bytes make a count when the first of them is taken for the low one. -/
theorem Counter.rate_write_iff (c : Counter) (lo hi : UInt8) :
    ((c.write lo).write hi).Rate (lo.toNat + hi.toNat * 256) ↔ c.Prepared := by
  obtain ⟨access, mode, bcd, low, count⟩ := c
  constructor
  · intro h
    cases access with
    | lobyte => simp [Rate, write] at h
    | hibyte => simp [Rate, write] at h
    | lohi =>
      cases low with
      | some low => simp [Rate, write] at h
      | none =>
        simp only [Rate, write, Counter.mk.injEq, true_and, and_true] at h
        exact ⟨rfl, h.1, h.2, rfl⟩
  · rintro ⟨h1, h2, h3, h4⟩
    simp only at h1 h2 h3 h4
    subst h1 h2 h3 h4
    rfl

end Pit

namespace Timer

variable {pit pit' : Pit} {frequency : UInt32} {timer : Timer}

theorem div_toNat (frequency : UInt32) :
    (div frequency).toNat = max 1 (min 65535 (1193182 / frequency.toNat)) := by
  have hq : (pitFrequency / frequency).toNat = 1193182 / frequency.toNat := UInt32.toNat_div ..
  have h1 : (1 : UInt32).toNat = 1 := rfl
  have h2 : (65535 : UInt32).toNat = 65535 := rfl
  simp only [div, UInt32.lt_iff_toNat_lt, hq, h1, h2]
  split
  · rw [h1]
    omega
  · split
    · rw [h2]
      omega
    · rw [hq]
      omega

/-- The bytes that are written make up the divisor. -/
theorem div_bytes (frequency : UInt32) :
    (div frequency &&& 0xFF).toUInt8.toNat +
      ((div frequency >>> 8) &&& 0xFF).toUInt8.toNat * 256 = (div frequency).toNat := by
  have hle : (div frequency).toNat ≤ 65535 := by
    rw [div_toNat]
    omega
  have h1 : (0xFF : UInt32).toNat = 2 ^ 8 - 1 := rfl
  have h2 : (8 : UInt32).toNat % 32 = 8 := rfl
  simp only [UInt32.toNat_toUInt8, UInt32.toNat_and, UInt32.toNat_shiftRight, h1, h2,
    Nat.and_two_pow_sub_one_eq_mod, Nat.shiftRight_eq_div_pow]
  omega

/-- **The wrong counter is programmed.** Whatever the 8254 did before, counter 1 becomes a rate
generator without a count, counter 2 stays, and counter 0 runs at the divisor exactly when it was
prepared for it. The divisor is the quotient of the frequencies for those from 19 Hz on that the
8254 can reach. -/
theorem new_rate_iff (h : new pit frequency = some (timer, pit')) :
    pit'.counter1.Waiting ∧ pit'.counter2 = pit.counter2 ∧
    (pit'.counter0.Rate (div frequency).toNat ↔ pit.counter0.Prepared) ∧
    ((div frequency).toNat = 1193182 / frequency.toNat ↔
      19 ≤ frequency.toNat ∧ frequency.toNat ≤ 1193182) := by
  rw [new] at h
  split at h
  · exact absurd h nofun
  · next hne =>
    cases h
    have hpos : 0 < frequency.toNat :=
      Nat.pos_of_ne_zero fun h0 => hne (UInt32.toNat_inj.mp h0)
    refine ⟨rfl, rfl, ?_, ?_⟩
    · rw [← div_bytes]
      exact Pit.Counter.rate_write_iff _ _ _
    · rw [div_toNat]
      have h19 : 1193182 / frequency.toNat ≤ 65535 ↔ 19 ≤ frequency.toNat := by
        constructor
        · intro hle
          by_contra hlt
          have : 1193182 / 18 ≤ 1193182 / frequency.toNat :=
            Nat.div_le_div_left (by omega) hpos
          omega
        · intro hle
          have : 1193182 / frequency.toNat ≤ 1193182 / 19 := Nat.div_le_div_left hle (by decide)
          omega
      have h1 : 1 ≤ 1193182 / frequency.toNat ↔ frequency.toNat ≤ 1193182 :=
        Nat.one_le_div_iff hpos
      omega

/-- At 100 Hz, on counters that are square wave generators. -/
theorem new_rate_iff_square : ∃ pit', new ⟨⟨.lohi, 3, false, none, some 0⟩,
    ⟨.lobyte, 2, false, none, some 18⟩, ⟨.lohi, 3, false, none, some 0⟩⟩ 100 =
      some (⟨100, 0⟩, pit') ∧ ¬pit'.counter0.Rate (div 100).toNat ∧ pit'.counter1.Waiting := by
  obtain ⟨h1, -, h3, -⟩ := @new_rate_iff ⟨⟨.lohi, 3, false, none, some 0⟩,
    ⟨.lobyte, 2, false, none, some 18⟩, ⟨.lohi, 3, false, none, some 0⟩⟩ _ 100 _ rfl
  exact ⟨_, rfl, fun h => absurd (h3.mp h).mode (by decide), h1⟩

end Timer
end Coronel
