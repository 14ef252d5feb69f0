import Coronel.Kernel.Config
import Mathlib.Data.Nat.Digits.Defs

/-!
# The text screen

`arch/iprotected_mode.hpp`, `arch/amd64/video/protected_mode.cpp`, and `itoa` of `libs/stdlib.hpp`.
The text buffer at `VGA_VIRTUAL_ADDRESS` is an array of `uint16_t` whose end nothing checks: `video`
has a cell for every index, and `stores` lists the indices that were written, the last one first.
-/

namespace Coronel

/-- `a` as `uint8_t`. -/
def toUInt8 (a : Nat) : Nat := a % 2 ^ 8

/-- `a` as `uint16_t`. -/
def toUInt16 (a : Nat) : Nat := a % 2 ^ 16

/-! ### stdlib.hpp -/

/-- `itoa`: the text before the terminating byte. Digits are written from the lowest, then the sign,
and the buffer is reversed; its 32 bytes hold any value. -/
def itoa (value : Int) (base : Nat) : List UInt8 :=
  if value = 0 then
    [48]
  else
    let negative : Bool := base = 10 ∧ value < 0
    let value := if negative then -value else value
    let uvalue := (value % 2 ^ 64).toNat
    let digits := (Nat.digits base uvalue).map fun digit =>
      if digit < 10 then UInt8.ofNat (48 + digit) else UInt8.ofNat (97 + digit - 10)
    (digits ++ if negative then [45] else []).reverse

/-! ### iprotected_mode.hpp -/

/-- `colors` -/
inductive Color
  | black | blue | green | cyan | red | purple | brown
  | gray | darkGray | lightBlue | lightGreen | lightCyan
  | lightRed | lightPurple | yellow | white
deriving DecidableEq, Repr

/-- `protected_mode` -/
structure Screen where
  currentColor : Color
  col : Nat
  lin : Nat
  video : Nat → Nat
  stores : List Nat

namespace Screen

/-- `WIDTH` -/
def width : Nat := 80

/-- `HEIGHT` -/
def height : Nat := 25

/-- `protected_mode::protected_mode`, with the buffer as it is found. -/
def new (video : Nat → Nat) : Screen := ⟨.gray, 0, 0, video, []⟩

def setColor (self : Screen) (color : Color) : Screen := { self with currentColor := color }

def column (self : Screen) (col : Nat) : Screen :=
  { self with col := if width < col then 0 else col }

def line (self : Screen) (lin : Nat) : Screen :=
  { self with lin := if height < lin then 0 else lin }

/-! ### protected_mode.cpp -/

/-- `videobuf[i] = value` -/
def store (self : Screen) (i value : Nat) : Screen :=
  { self with video := Function.update self.video i value, stores := i :: self.stores }

/-- `for (i = first; n more times; i++) self = body(i, self)` -/
def loop (body : Nat → Screen → Screen) : Nat → Nat → Screen → Screen
  | 0, _, self => self
  | n + 1, i, self => loop body n (i + 1) (body i self)

/-- `' ' | 1 << 8` -/
def blank : Nat := 0x20 ||| 1 <<< 8

/-- `protected_mode::scroll_down` -/
def scrollDown (self : Screen) : Screen :=
  let self := loop (fun y self =>
    loop (fun x self => self.store ((y - 1) * width + x) (self.video (y * width + x)))
      width 0 self) (height - 1) 1 self
  let self := loop (fun x self => self.store ((height - 1) * width + x) blank) width 0 self
  { self with lin := height - 1 }

/-- `protected_mode::clear` -/
def clear (self : Screen) : Screen :=
  let self := { self with currentColor := .gray }
  let self := loop (fun y self =>
    loop (fun x self => self.store (y * width + x) blank) width 0 self) height 0 self
  { self with lin := 0, col := 0 }

/-- A `char` in an `int`, whose sign it extends. -/
def signExtend (c : UInt8) : Nat := if c.toNat < 128 then c.toNat else 2 ^ 32 - 2 ^ 8 + c.toNat

/-- `c | current_color_ << 8`, as the buffer holds it. -/
def charCell (c : UInt8) (color : Color) : Nat :=
  toUInt16 (signExtend c ||| color.ctorIdx <<< 8)

/-- `c == '\n' || c == '\r'` -/
def breaks (c : UInt8) : Bool := c == 10 || c == 13

/-- `col_ = 0; lin_++;` and the scroll, which `printc` writes twice. -/
def nextLine (self : Screen) : Screen :=
  let self := { self with col := 0, lin := toUInt8 (self.lin + 1) }
  if height ≤ self.lin then scrollDown self else self

/-- `protected_mode::printc` -/
def printc (self : Screen) (c : UInt8) : Screen :=
  if breaks c then
    nextLine self
  else
    let self := self.store (self.lin * width + self.col) (charCell c self.currentColor)
    let self := { self with col := toUInt8 (self.col + 1) }
    if width ≤ self.col then nextLine self else self

/-- `protected_mode::prints`, of the bytes in memory at `s` -/
def prints (self : Screen) : List UInt8 → Screen
  | [] => self
  | c :: s => if c = 0 then self else prints (printc self c) s

/-- `protected_mode::printd` -/
def printd (self : Screen) (d : Int) : Screen := prints self (itoa d 10)

/-- `protected_mode::printx`; `itoa` takes an `int64_t`. -/
def printx (self : Screen) (x : Nat) : Screen :=
  let value : Int := if x < 2 ^ 63 then x else (x : Int) - 2 ^ 64
  prints (prints self [48, 120]) (itoa value 16)

end Screen

/-! ### type_traits.hpp -/

/-- The types that `lib::is_integral` accepts. -/
inductive IntegralType
  | int8 | int16 | int32 | int64 | uint8 | uint16 | uint32 | uint64
deriving DecidableEq, Repr

namespace IntegralType

def least : IntegralType → Int
  | int8 => -2 ^ 7
  | int16 => -2 ^ 15
  | int32 => -2 ^ 31
  | int64 => -2 ^ 63
  | _ => 0

def greatest : IntegralType → Int
  | int8 => 2 ^ 7 - 1
  | int16 => 2 ^ 15 - 1
  | int32 => 2 ^ 31 - 1
  | int64 => 2 ^ 63 - 1
  | uint8 => 2 ^ 8 - 1
  | uint16 => 2 ^ 16 - 1
  | uint32 => 2 ^ 32 - 1
  | uint64 => 2 ^ 64 - 1

/-- A value of the type. -/
structure Value (type : IntegralType) where
  val : Int
  least_le : type.least ≤ val
  le_greatest : val ≤ type.greatest

end IntegralType

/-- The conversion to `int`. -/
def toInt32 (a : Int) : Int := a.bmod (2 ^ 32)

namespace Screen

/-! ### print -/

/-- An argument of `print`, by the branch that its type takes: `const char *`, `char`, a type that
`is_integral` accepts, a floating point number (by its conversion to `uint64_t`), and any other type
that `prints` takes. -/
inductive Argument
  | string (s : List UInt8)
  | char (c : UInt8)
  | integral (type : IntegralType) (value : type.Value)
  | floating (value : Nat)
  | other (s : List UInt8)

/-- `iprotected_mode::print(value)` -/
def printValue (self : Screen) : Argument → Screen
  | .string s => prints self s
  | .char c => printc self c
  | .integral _ value => printd self (toInt32 value.val)
  | .floating value => printx self value
  | .other s => prints (prints self [69, 114, 114, 58, 32]) s

/-- `iprotected_mode::print(value, args...)` -/
def printValues (self : Screen) (args : List Argument) : Screen := args.foldl printValue self

end Screen
end Coronel
