import Coronel.Kernel.Keyboard
import Mathlib.Data.Finset.Basic
import Mathlib.Data.Fintype.Basic
import Mathlib.Logic.Function.Basic

/-!
# Interrupt requests

`bootstrap/irq.cpp`, `irq_remap` of `bootstrap/segments.cpp` and the tick of
`peripherals/timer.cpp`, with the two 8259A that their port writes reach. Of the 8259A the model has
what these writes use: initialization, the masks, the fully nested mode and the end of interrupt that
names no line.
-/

namespace Coronel

/-! ### 8259A -/

/-- What the data port of an 8259A takes next: an initialization word or the mask. -/
inductive Pic.Stage
  | icw2 | icw3 | icw4 | ready
deriving DecidableEq, Repr

/-- An 8259A. -/
structure Pic where
  stage : Pic.Stage
  /-- Bit 1 of ICW1: there is no other controller. -/
  single : Bool
  /-- Bit 0 of ICW1. -/
  needs4 : Bool
  base : UInt8
  cascade : UInt8
  mode : UInt8
  irr : Finset (Fin 8)
  imr : Finset (Fin 8)
  isr : Finset (Fin 8)
deriving DecidableEq

namespace Pic

/-- The lines whose bits are set. -/
def lines (value : UInt8) : Finset (Fin 8) := Finset.univ.filter fun i => value.toNat.testBit i

/-- A request that is not masked, above all that is in service; line 0 is the highest. -/
def Eligible (p : Pic) (i : Fin 8) : Prop := i ∈ p.irr ∧ i ∉ p.imr ∧ ∀ j ∈ p.isr, i < j

instance decidableEligible (p : Pic) (i : Fin 8) : Decidable (p.Eligible i) :=
  inferInstanceAs (Decidable (_ ∧ _ ∧ _))

/-- The line for which INT is high. -/
def request (p : Pic) : Option (Fin 8) := Fin.find? fun i => decide (p.Eligible i)

/-- The highest line in service. -/
def inService (p : Pic) : Option (Fin 8) := Fin.find? fun i => decide (i ∈ p.isr)

def eoi (p : Pic) : Pic :=
  match p.inService with
  | some i => { p with isr := p.isr.erase i }
  | none => p

/-- A write to the command port. -/
def command (p : Pic) (value : UInt8) : Pic :=
  if value &&& 0x10 ≠ 0 then
    { p with
      stage := .icw2, single := value &&& 0x02 ≠ 0, needs4 := value &&& 0x01 ≠ 0
      irr := ∅, imr := ∅, isr := ∅ }
  else if value &&& 0xF8 = 0x20 then
    p.eoi
  else
    p

/-- A write to the data port. -/
def data (p : Pic) (value : UInt8) : Pic :=
  let last : Stage := if p.needs4 then .icw4 else .ready
  match p.stage with
  | .icw2 => { p with base := value &&& 0xF8, stage := if p.single then last else .icw3 }
  | .icw3 => { p with cascade := value, stage := last }
  | .icw4 => { p with mode := value, stage := .ready }
  | .ready => { p with imr := lines value }

/-- INTA: the request goes into service. When it is gone, nothing does. -/
def acknowledge (p : Pic) : Pic :=
  match p.request with
  | some i => { p with irr := p.irr.erase i, isr := insert i p.isr }
  | none => p

/-- What the controller puts on the bus on INTA; line 7 stands for a request that is gone. -/
def vector (p : Pic) : Nat := p.base.toNat + (p.request.getD 7)

end Pic

/-- The 16 lines, `IRQ0` to `IRQ15`. -/
inductive Line
  | master (i : Fin 8)
  | slave (i : Fin 8)
deriving DecidableEq

/-- `IRQ0` -/
abbrev Line.timer : Line := .master 0

/-- `IRQ1` -/
abbrev Line.keyboard : Line := .master 1

def Line.number : Line → Nat
  | master i => i
  | slave i => 8 + i

/-- The two controllers. -/
structure Pics where
  master : Pic
  slave : Pic
deriving DecidableEq

namespace Pics

/-- The line of the master that the slave is on. -/
abbrev slaveLine : Fin 8 := 2

/-- The slave is at `slave` now. Its INT is line 2 of the master, which takes edges. -/
def withSlave (p : Pics) (slave : Pic) : Pics :=
  let master := match p.slave.request.isSome, slave.request.isSome with
    | false, true => { p.master with irr := insert 2 p.master.irr }
    | true, false => { p.master with irr := p.master.irr.erase 2 }
    | _, _ => p.master
  { master, slave }

/-- The request of the line is there and not yet acknowledged. -/
def Pending (p : Pics) : Line → Prop
  | .master i => i ∈ p.master.irr
  | .slave i => i ∈ p.slave.irr

instance decidablePending (p : Pics) : ∀ n, Decidable (p.Pending n)
  | .master i => inferInstanceAs (Decidable (i ∈ p.master.irr))
  | .slave i => inferInstanceAs (Decidable (i ∈ p.slave.irr))

/-- The line rises. -/
def raise (p : Pics) : Line → Pics
  | .master i => { p with master := { p.master with irr := insert i p.master.irr } }
  | .slave i => p.withSlave { p.slave with irr := insert i p.slave.irr }

/-- The line falls; a request that was not acknowledged is gone. -/
def lower (p : Pics) : Line → Pics
  | .master i => { p with master := { p.master with irr := p.master.irr.erase i } }
  | .slave i => p.withSlave { p.slave with irr := p.slave.irr.erase i }

/-- The master's request is the line of the slave, and the slave knows that it is. -/
def Cascaded (p : Pics) : Prop :=
  ∃ i, p.master.request = some i ∧ i ∈ Pic.lines p.master.cascade ∧
    p.slave.cascade.toNat % 8 = i

instance decidableCascaded (p : Pics) : Decidable p.Cascaded :=
  inferInstanceAs (Decidable (∃ _, _))

/-- The vector that the processor reads with INTA. -/
def vector (p : Pics) : Nat := if p.Cascaded then p.slave.vector else p.master.vector

/-- The line that goes into service with INTA, unless its request is gone. -/
def next (p : Pics) : Option Line :=
  if p.Cascaded then p.slave.request.map .slave else p.master.request.map .master

/-- What INTA leaves. -/
def acknowledge (p : Pics) : Pics :=
  let p' := { p with master := p.master.acknowledge }
  if p.Cascaded then p'.withSlave p.slave.acknowledge else p'

/-- `insn::outb`, to the ports of the controllers; `io_wait` writes to another. -/
def outb (p : Pics) (port : UInt16) (value : UInt8) : Pics :=
  if port = 0x20 then { p with master := p.master.command value }
  else if port = 0x21 then { p with master := p.master.data value }
  else if port = 0xA0 then p.withSlave (p.slave.command value)
  else if port = 0xA1 then p.withSlave (p.slave.data value)
  else p

end Pics

/-! ### The kernel -/

/-- What a handler does, one after the other. -/
inductive Act
  | outb (port : UInt16) (value : UInt8)
  /-- `(*timer_handler_p)(interrupt)`, unless it is null -/
  | timer
  /-- `(*keyboard_handler_p)(interrupt)`, unless it is null -/
  | keyboard
deriving DecidableEq, Repr

/-- What an act does to the controllers. -/
def Pics.perform (p : Pics) : Act → Pics
  | .outb port value => p.outb port value
  | _ => p

/-- `PIC_MASTER` -/
def picMaster : UInt16 := 0x20

/-- `PIC_SLAVE` -/
def picSlave : UInt16 := 0xA0

/-- `PIC_EOI` -/
def picEoi : UInt8 := 0x20

/-- `IRQ_TIMER` -/
def irqTimer : Nat := 0x20

/-- `IRQ_KEYBOARD` -/
def irqKeyboard : Nat := 0x21

/-- `interrupt_handler`; the other cases of its `switch` do nothing. -/
def interruptHandler (intNo : Nat) : List Act :=
  (if 0x28 ≤ intNo then [.outb picSlave picEoi] else []) ++ .outb picMaster picEoi ::
    if intNo = irqTimer then [.timer] else if intNo = irqKeyboard then [.keyboard] else []

/-- `io_wait` -/
def ioWait : Act := .outb 0x80 0

/-- `irq_remap` -/
def irqRemap : List Act :=
  [.outb 0x20 0x11, ioWait, .outb 0xA0 0x11, ioWait,
    .outb 0x21 0x20, ioWait, .outb 0xA1 0x28, ioWait,
    .outb 0x21 0x04, ioWait, .outb 0xA1 0x02, ioWait,
    .outb 0x21 0x01, ioWait, .outb 0xA1 0x01, ioWait,
    .outb 0x21 0, .outb 0xA1 0]

/-- `peripherals::timer` -/
structure Timer where
  frequency : UInt32
  ticks : UInt64
deriving DecidableEq, Repr

/-- `timer::on_timer` -/
def Timer.onTimer (self : Timer) : Timer := { self with ticks := self.ticks + 1 }

/-- The controllers, the devices that have a handler, and how far the handlers are. -/
structure Board where
  pics : Pics
  /-- What the handlers in progress still do. -/
  acts : List Act
  /-- The processor has taken INT and reads the vector next. -/
  accepted : Bool
  /-- `timer_handler_p`, with the timer that it is bound to -/
  timer : Option Timer
  /-- `keyboard_handler_p`, with the keyboard that it is bound to -/
  keyboard : Option Keyboard
  /-- The output buffer of the keyboard controller. -/
  buffer : Option UInt8
  /-- Ghost: how often a line rose that had no request pending. -/
  edges : Line → Nat
  /-- Ghost: how often a request was gone before it was acknowledged. -/
  withdrawn : Line → Nat
  /-- Ghost: how often a request went into service. -/
  served : Line → Nat
  /-- Ghost: the bytes that were put into the buffer, in order. -/
  typed : List UInt8
  /-- Ghost: how often `timer_handler_p` was null. -/
  missedTicks : Nat
  /-- Ghost: how often `keyboard_handler_p` was null. -/
  missedKeys : Nat

namespace Board

/-- The state behind `irq_remap`. What is in the buffer then has had its interrupt before. -/
def boot (p : Pics) (buffer : Option UInt8) : Board where
  pics := irqRemap.foldl Pics.perform p
  acts := []
  accepted := false
  timer := none
  keyboard := none
  buffer := buffer
  edges _ := 0
  withdrawn _ := 0
  served _ := 0
  typed := buffer.toList
  missedTicks := 0
  missedKeys := buffer.toList.length

/-- The ports of the keyboard controller. -/
def ports (b : Board) : Ports := fun port =>
  if port = Keyboard.statusPort then
    if b.buffer.isSome then Keyboard.dataInBuffer else 0
  else
    b.buffer.getD 0

/-- One act, with the memory behind the tables of the keyboard. Reading the data port empties the
buffer. -/
def perform (behind behindShift : Nat → UInt8) (b : Board) : Act → Board
  | .outb port value => { b with pics := b.pics.outb port value }
  | .timer =>
    match b.timer with
    | none => { b with missedTicks := b.missedTicks + 1 }
    | some timer => { b with timer := some timer.onTimer }
  | .keyboard =>
    match b.keyboard with
    | none => { b with missedKeys := b.missedKeys + 1 }
    | some keyboard => { b with
      keyboard := some (keyboard.onKeyboard behind behindShift b.ports)
      buffer := none }

/-- `add_timer`; the instance is static. -/
def addTimer (b : Board) (frequency : UInt32) : Board :=
  { b with timer := some (b.timer.getD ⟨frequency, 0⟩) }

/-- `add_keyboard` -/
def addKeyboard (b : Board) : Board := { b with keyboard := some (b.keyboard.getD .new) }

/-- The line rises; an edge counts when no request is pending. -/
def raise (b : Board) (n : Line) : Board :=
  { b with
    pics := b.pics.raise n
    edges := if b.pics.Pending n then b.edges else Function.update b.edges n (b.edges n + 1) }

/-- The line falls. -/
def lower (b : Board) (n : Line) : Board :=
  { b with
    pics := b.pics.lower n
    withdrawn :=
      if b.pics.Pending n then Function.update b.withdrawn n (b.withdrawn n + 1) else b.withdrawn }

/-- A key puts a byte into the buffer. -/
def key (b : Board) (c : UInt8) : Board :=
  { b.raise (.master 1) with buffer := some c, typed := b.typed ++ [c] }

/-- INTA, and the handler begins. -/
def acknowledge (b : Board) : Board :=
  { b with
    pics := b.pics.acknowledge
    acts := interruptHandler b.pics.vector
    accepted := false
    served := match b.pics.next with
      | some n => Function.update b.served n (b.served n + 1)
      | none => b.served }

end Board
end Coronel
