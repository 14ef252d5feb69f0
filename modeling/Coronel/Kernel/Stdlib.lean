import Coronel.Kernel.Config
import Coronel.Theory.Bytes
import Coronel.Theory.Slice
import Mathlib.Data.UInt

/-!
# Text and memory

`itoa` of `libs/stdlib.hpp`, with its two loops, and `memmove` of `libs/string.hpp`. A buffer has a
byte for every index, and lists the indices that were written, the last one first: `itoa` looks at
its size once, when it is called.
-/

namespace Coronel

open Theory Theory.Bytes

/-! ### stdlib.hpp -/

/-- A `char *`. -/
structure CharBuffer where
  bytes : Nat → UInt8
  stores : List Nat

namespace CharBuffer

/-- `buffer[i] = c` -/
def store (self : CharBuffer) (i : Nat) (c : UInt8) : CharBuffer :=
  { bytes := Function.update self.bytes i c, stores := i :: self.stores }

end CharBuffer

/-- `base` -/
inductive Base
  | bin | oct | dec | hex
deriving DecidableEq, Repr

namespace Base

def toNat : Base → Nat
  | bin => 2
  | oct => 8
  | dec => 10
  | hex => 16

def toUInt64 (b : Base) : UInt64 := UInt64.ofNat b.toNat

theorem toNat_toUInt64 (b : Base) : b.toUInt64.toNat = b.toNat := by
  cases b <;> rfl

theorem one_lt_toNat (b : Base) : 1 < b.toNat := by
  cases b <;> decide

theorem toNat_le (b : Base) : b.toNat ≤ 16 := by
  cases b <;> decide

end Base

namespace Stdlib

/-- A quotient is smaller than the number that is not zero. -/
theorem toNat_div_lt {uvalue : UInt64} (b : Base) (h : uvalue ≠ 0) :
    (uvalue / b.toUInt64).toNat < uvalue.toNat := by
  rw [UInt64.toNat_div, b.toNat_toUInt64]
  refine Nat.div_lt_self (Nat.pos_of_ne_zero fun h0 => h ?_) b.one_lt_toNat
  exact UInt64.toNat_inj.mp h0

/-- `while (uvalue)`: the digits, the lowest first; the index behind them, and the buffer. -/
def digitLoop (b : Base) (uvalue : UInt64) (i : Nat) (buffer : CharBuffer) : Nat × CharBuffer :=
  if h : uvalue = 0 then
    (i, buffer)
  else
    let digit := (uvalue % b.toUInt64).toUInt8
    let c := if digit < 10 then 48 + digit else 97 + digit - 10
    digitLoop b (uvalue / b.toUInt64) (i + 1) (buffer.store i c)
termination_by uvalue.toNat
decreasing_by exact toNat_div_lt b h

/-- `for (; j < i; j++, i--)` -/
def reverseLoop (j i : Nat) (buffer : CharBuffer) : CharBuffer :=
  if j < i then
    let temp := buffer.bytes j
    let buffer := buffer.store j (buffer.bytes i)
    let buffer := buffer.store i temp
    reverseLoop (j + 1) (i - 1) buffer
  else
    buffer
termination_by i

/-- `itoa` -/
def itoa (buffer : CharBuffer) (size : Nat) (value : Int64) (b : Base) : CharBuffer :=
  if size ≤ 1 then
    buffer
  else if value = 0 then
    let buffer := buffer.store 0 48
    buffer.store 1 0
  else
    let negative : Bool := b = .dec ∧ value < 0
    let value := if negative then -value else value
    let uvalue := value.toUInt64
    let (i, buffer) := digitLoop b uvalue 0 buffer
    let (i, buffer) := if negative then (i + 1, buffer.store i 45) else (i, buffer)
    let buffer := buffer.store i 0
    reverseLoop 0 (i - 1) buffer

/-! ### string.hpp -/

/-- `while (count > 0) *d++ = *s++` -/
def moveForward (d s : Nat) : Nat → Mem → Mem
  | 0, mem => mem
  | count + 1, mem => moveForward (add64 d 1) (add64 s 1) count (Function.update mem d (mem s))

/-- `while (count > 0) *(--d) = *(--s)` -/
def moveBackward (d s : Nat) : Nat → Mem → Mem
  | 0, mem => mem
  | count + 1, mem =>
    moveBackward (sub64 d 1) (sub64 s 1) count
      (Function.update mem (sub64 d 1) (mem (sub64 s 1)))

/-- `lib::memmove(dest, src, count)`: what it returns, and the memory it leaves. -/
def memmove (dest src count : Nat) (mem : Mem) : Nat × Mem :=
  if dest < src then
    (dest, moveForward dest src count mem)
  else
    (dest, moveBackward (add64 dest count) (add64 src count) count mem)

end Stdlib
end Coronel
