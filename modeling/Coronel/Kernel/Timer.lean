import Coronel.Kernel.Irq

/-!
# The interval timer

The constructor of `peripherals/timer.cpp`, with the 8254 that its port writes reach.
-/

namespace Coronel

/-! ### 8254 -/

namespace Pit

/-- Which bytes of a count are written: bits 4 and 5 of the control word. -/
inductive Access
  | lobyte | hibyte | lohi
deriving DecidableEq, Repr

/-- A counter of the 8254. -/
structure Counter where
  access : Access
  mode : Nat
  bcd : Bool
  /-- The low byte of a count whose high byte is still to come. -/
  low : Option UInt8
  /-- The count, once it is written. -/
  count : Option Nat
deriving DecidableEq, Repr

/-- A write to the port of the counter. -/
def Counter.write (c : Counter) (value : UInt8) : Counter :=
  match c.access, c.low with
  | .lobyte, _ => { c with count := some value.toNat }
  | .hibyte, _ => { c with count := some (value.toNat * 256) }
  | .lohi, none => { c with low := some value }
  | .lohi, some low => { c with low := none, count := some (low.toNat + value.toNat * 256) }

/-- The access that a control word sets; none is the latch command. -/
def access (value : UInt8) : Option Access :=
  match value.toNat / 16 % 4 with
  | 1 => some .lobyte
  | 2 => some .hibyte
  | 3 => some .lohi
  | _ => none

end Pit

/-- The 8254. -/
structure Pit where
  counter0 : Pit.Counter
  counter1 : Pit.Counter
  counter2 : Pit.Counter
deriving DecidableEq, Repr

namespace Pit

/-- A write to the control port; bits 6 and 7 name the counter, 3 is the read-back command. -/
def control (pit : Pit) (value : UInt8) : Pit :=
  match access value with
  | none => pit
  | some access =>
    let c : Counter := ⟨access, value.toNat / 2 % 8, value.toNat % 2 = 1, none, none⟩
    match value.toNat / 64 with
    | 0 => { pit with counter0 := c }
    | 1 => { pit with counter1 := c }
    | 2 => { pit with counter2 := c }
    | _ => pit

/-- `write_byte(port, value)` -/
def writeByte (pit : Pit) (port : UInt16) (value : UInt8) : Pit :=
  if port = 0x40 then { pit with counter0 := pit.counter0.write value }
  else if port = 0x41 then { pit with counter1 := pit.counter1.write value }
  else if port = 0x42 then { pit with counter2 := pit.counter2.write value }
  else if port = 0x43 then pit.control value
  else pit

end Pit

/-! ### The constructor -/

namespace Timer

/-- `PIT_CHANNEL::CHANNEL_0` -/
def channel0 : UInt16 := 0x40

/-- `PIT_ACCESS::LOHI` -/
def lohi : UInt16 := 0x30

/-- `PIT_MODE::MODE_2` -/
def mode2 : UInt16 := 0x04

/-- `PIT_BINARY_MODE` -/
def pitBinaryMode : UInt16 := 0x00

/-- `PIT_COMMAND_REG` -/
def pitCommandReg : UInt16 := 0x43

/-- `PIT_FREQUENCY` -/
def pitFrequency : UInt32 := 1193182

/-- The divisor, kept in its range. -/
def div (frequency : UInt32) : UInt32 :=
  let div := pitFrequency / frequency
  if div < 1 then 1 else if 65535 < div then 65535 else div

/-- `timer::timer`; none is the exception of a division by zero. -/
def new (pit : Pit) (frequency : UInt32) : Option (Timer × Pit) :=
  if frequency = 0 then
    none
  else
    let div := div frequency
    let cmd := channel0 ||| lohi ||| mode2 ||| pitBinaryMode
    let pit := pit.writeByte pitCommandReg cmd.toUInt8
    let pit := pit.writeByte channel0 (div &&& 0xFF).toUInt8
    let pit := pit.writeByte channel0 ((div >>> 8) &&& 0xFF).toUInt8
    some (⟨frequency, 0⟩, pit)

end Timer
end Coronel
