import Coronel.Theory.BitField

/-!
# Configuration constants and address arithmetic

`config.hpp` and the integer types of `libs/stdint.hpp`. A 64-bit value is a natural number below
`2 ^ 64`; the operations that can wrap are written with their modulus. The masks of the source are
kept, each with the division it amounts to.
-/

namespace Coronel

/-! ### Machine integers -/

/-- `a + b` on `size_t` and `uintptr_t`. -/
def add64 (a b : Nat) : Nat := (a + b) % 2 ^ 64

/-- `a - b` on `size_t` and `uintptr_t`. -/
def sub64 (a b : Nat) : Nat := (a + (2 ^ 64 - b % 2 ^ 64)) % 2 ^ 64

/-- `a * b` on `size_t`. -/
def mul64 (a b : Nat) : Nat := a * b % 2 ^ 64

/-- The conversion to `uint32_t`. -/
def toUInt32 (a : Nat) : Nat := a % 2 ^ 32

theorem add64_lt (a b : Nat) : add64 a b < 2 ^ 64 := Nat.mod_lt _ (by decide)

theorem sub64_lt (a b : Nat) : sub64 a b < 2 ^ 64 := Nat.mod_lt _ (by decide)

theorem mul64_lt (a b : Nat) : mul64 a b < 2 ^ 64 := Nat.mod_lt _ (by decide)

theorem add64_eq {a b : Nat} (h : a + b < 2 ^ 64) : add64 a b = a + b := Nat.mod_eq_of_lt h

theorem sub64_eq {a b : Nat} (h : b ≤ a) (ha : a < 2 ^ 64) : sub64 a b = a - b := by
  unfold sub64; omega

theorem mul64_eq {a b : Nat} (h : a * b < 2 ^ 64) : mul64 a b = a * b := Nat.mod_eq_of_lt h

theorem toUInt32_eq {a : Nat} (h : a < 2 ^ 32) : toUInt32 a = a := Nat.mod_eq_of_lt h

theorem toUInt32_lt (a : Nat) : toUInt32 a < 2 ^ 32 := Nat.mod_lt _ (by decide)

/-! ### config.hpp -/

/-- `KVIRTUAL_ADDRESS`: the kernel's window onto physical memory starts here. -/
def kvirtualAddress : Nat := 0xffffffff80000000

/-- `PCI_VIRTUAL_ADDRESS` -/
def pciVirtualAddress : Nat := kvirtualAddress + 0x40000000

/-- `FRAME_SIZE` -/
def frameSize : Nat := 4096

/-- `n _MB` -/
abbrev mb (n : Nat) : Nat := n * 1024 * 1024

/-- `n _GB` -/
abbrev gb (n : Nat) : Nat := n * 1024 * 1024 * 1024

/-- `IS_ALIGNED` -/
def isAligned (address : Nat) : Bool := address &&& (frameSize - 1) == 0

/-- `ALIGN_DOWN`; the mask is `-FRAME_SIZE`. -/
def alignDown (address : Nat) : Nat := address &&& (2 ^ 64 - frameSize)

/-- `ALIGN_UP` -/
def alignUp (address : Nat) : Nat := alignDown (sub64 (add64 address frameSize) 1)

/-- The mask that keeps bits 12 to `k - 1`. -/
theorem and_page_mask {k : Nat} (a : Nat) (hk : 12 ≤ k) :
    a &&& (2 ^ k - 4096) = a % 2 ^ k / 4096 * 4096 := by
  rw [show 4096 = 2 ^ 12 from rfl, Theory.and_mask a hk]

theorem isAligned_iff {a : Nat} : isAligned a = true ↔ a % 4096 = 0 := by
  rw [isAligned, beq_iff_eq, show frameSize - 1 = 2 ^ 12 - 1 from rfl,
    Nat.and_two_pow_sub_one_eq_mod]

theorem alignDown_eq {a : Nat} (h : a < 2 ^ 64) : alignDown a = a / 4096 * 4096 := by
  rw [alignDown, frameSize, and_page_mask a (by decide), Nat.mod_eq_of_lt h]

theorem alignUp_lt (a : Nat) : alignUp a < 2 ^ 64 := by
  have := sub64_lt (add64 a frameSize) 1
  rw [alignUp, alignDown_eq this]; omega

@[simp] theorem alignUp_mod (a : Nat) : alignUp a % 4096 = 0 := by
  rw [alignUp, alignDown_eq (sub64_lt ..)]; omega

theorem alignUp_eq {a : Nat} (h : a + 4095 < 2 ^ 64) : alignUp a = (a + 4095) / 4096 * 4096 := by
  have : sub64 (add64 a frameSize) 1 = a + 4095 := by
    unfold sub64 add64 frameSize; omega
  rw [alignUp, this, alignDown_eq h]

theorem le_alignUp {a : Nat} (h : a + 4095 < 2 ^ 64) : a ≤ alignUp a := by
  rw [alignUp_eq h]; omega

theorem alignUp_lt_add {a : Nat} (h : a + 4095 < 2 ^ 64) : alignUp a < a + 4096 := by
  rw [alignUp_eq h]; omega

theorem alignUp_of_aligned {a : Nat} (h : a + 4095 < 2 ^ 64) (ha : a % 4096 = 0) :
    alignUp a = a := by
  rw [alignUp_eq h]; omega

/-- Rounding up wraps in the last page of the address space. -/
theorem alignUp_wrap {a : Nat} (ha : a < 2 ^ 64) (h : 2 ^ 64 ≤ a + 4095) : alignUp a = 0 := by
  have h1 : sub64 (add64 a frameSize) 1 < 4096 := by
    unfold sub64 add64 frameSize
    omega
  rw [alignUp, alignDown_eq (by omega)]
  omega

theorem alignUp_eq_zero_iff {a : Nat} (ha : a < 2 ^ 64) :
    alignUp a = 0 ↔ a = 0 ∨ 2 ^ 64 ≤ a + 4095 := by
  by_cases h : a + 4095 < 2 ^ 64
  · rw [alignUp_eq h]; omega
  · simp only [alignUp_wrap ha (by omega), true_iff]; omega

/-- Rounding up past an aligned bound does not cross it. -/
theorem alignUp_le {a b : Nat} (hb : b % 4096 = 0) (hlt : b < 2 ^ 64) (h : a ≤ b) :
    alignUp a ≤ b := by
  rw [alignUp_eq (by omega)]; omega

end Coronel
