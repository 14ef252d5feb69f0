import Mathlib.Data.List.Basic

/-!
# The keyboard

`drivers/peripherals/keyboard.cpp`. An interrupt reads the two ports; what the keyboard sends to the
screen is the list of the bytes that `printc` gets.
-/

namespace Coronel

/-- `iarch::read_byte(port)` at the time of an interrupt. -/
abbrev Ports := UInt16 → UInt8

namespace Keyboard

def dataInBuffer : UInt8 := 0x01
def statusPort : UInt16 := 0x64
def dataPort : UInt16 := 0x60

/-- The columns `code` and `shift_code` of `KEY_CODES`. -/
def keyCodes : List (Char × Char) := [
  ('\x00', '\x00'), ('\x1b', '\x1b'), ('1', '!'), ('2', '@'), ('3', '#'), ('4', '$'), ('5', '%'),
  ('6', '^'), ('7', '&'), ('8', '*'), ('9', '('), ('0', ')'), ('-', '_'), ('=', '+'),
  ('\x08', '\x08'), ('\x09', '\x09'), ('q', 'Q'), ('w', 'W'), ('e', 'E'), ('r', 'R'), ('t', 'T'),
  ('y', 'Y'), ('u', 'U'), ('i', 'I'), ('o', 'O'), ('p', 'P'), ('[', '\x7b'), (']', '\x7d'),
  ('\x0a', '\x0a'), ('\x00', '\x00'), ('a', 'A'), ('s', 'S'), ('d', 'D'), ('f', 'F'), ('g', 'G'),
  ('h', 'H'), ('j', 'J'), ('k', 'K'), ('l', 'L'), (';', ':'), ('\x27', '\x22'), ('\x60', '~'),
  ('\x00', '\x00'), ('\x5c', '|'), ('z', 'Z'), ('x', 'X'), ('c', 'C'), ('v', 'V'), ('b', 'B'),
  ('n', 'N'), ('m', 'M'), (',', '<'), ('.', '>'), ('/', '?'), ('\x00', '\x00'), ('*', '*'),
  ('\x00', '\x00'), (' ', ' '), ('\x00', '\x00'), ('\x00', '\x00'), ('\x00', '\x00'),
  ('\x00', '\x00'), ('\x00', '\x00'), ('\x00', '\x00'), ('\x00', '\x00'), ('\x00', '\x00'),
  ('\x00', '\x00'), ('\x00', '\x00'), ('\x00', '\x00'), ('\x00', '\x00'), ('\x00', '\x00'),
  ('\x00', '\x00'), ('\x00', '\x00'), ('-', '-'), ('\x00', '\x00'), ('\x00', '\x00'),
  ('\x00', '\x00'), ('+', '+'), ('\x00', '\x00'), ('\x00', '\x00'), ('\x00', '\x00'),
  ('\x00', '\x00'), ('\x00', '\x00'), ('\x00', '\x00'), ('\x00', '\x00'), ('\x5c', '|'),
  ('\x00', '\x00'), ('\x00', '\x00'), ('\x00', '\x00'), ('\x00', '\x00'), ('\x00', '\x00')]

/-- `en_US` -/
def enUS : List UInt8 := keyCodes.map fun key => key.1.toUInt8

/-- `en_US_shift` -/
def enUSShift : List UInt8 := keyCodes.map fun key => key.2.toUInt8

end Keyboard

/-- `keyboard`, with the bytes sent to the screen so far. -/
structure Keyboard where
  shift : Bool
  sent : List UInt8
deriving DecidableEq, Repr

namespace Keyboard

/-- `keyboard::keyboard` -/
def new : Keyboard := { shift := false, sent := [] }

/-- `table[c]`, where `behind` is the memory from the end of the table on. -/
def lookup (table : List UInt8) (behind : Nat → UInt8) (c : UInt8) : UInt8 :=
  table.getD c.toNat (behind (c.toNat - table.length))

/-- `get_video()->printc` -/
def printc (self : Keyboard) (c : UInt8) : Keyboard := { self with sent := self.sent ++ [c] }

/-- `keyboard::on_keyup` -/
def onKeyup (self : Keyboard) (c : UInt8) : Keyboard :=
  if c = 0xaa ∨ c = 0xb6 then { self with shift := false } else self

/-- `keyboard::on_keydown`, with the memory behind `en_US` and behind `en_US_shift`. -/
def onKeydown (behind behindShift : Nat → UInt8) (self : Keyboard) (c : UInt8) : Keyboard :=
  if c = 0x2a ∨ c = 0x36 then
    { self with shift := true }
  else if self.shift then
    self.printc (lookup enUSShift behindShift c)
  else
    self.printc (lookup enUS behind c)

/-- `keyboard::on_keyboard` -/
def onKeyboard (behind behindShift : Nat → UInt8) (self : Keyboard) (ports : Ports) : Keyboard :=
  let status := ports statusPort
  if status &&& dataInBuffer = 0 then
    self
  else
    let data := ports dataPort
    if data &&& 0x80 ≠ 0 then
      self.onKeyup data
    else
      self.onKeydown behind behindShift data

/-- The state after a sequence of interrupts. -/
def run (behind behindShift : Nat → UInt8) (self : Keyboard) (interrupts : List Ports) : Keyboard :=
  interrupts.foldl (onKeyboard behind behindShift) self

end Keyboard
end Coronel
