import Coronel.Theory.BitField
import Coronel.Theory.Bytes
import Coronel.Theory.Span

/-!
# Descriptors

`bootstrap/segments.cpp`: the descriptor of the task state segment and the interrupt table. A bit
field of a packed struct is the bits that GCC gives it, from the lowest up.
-/

namespace Coronel

open Theory Theory.Bytes

abbrev longModeGdtGates : Nat := 7
def longModeIdtGates : Nat := 64

/-! ### The task state segment -/

/-- `gdt_tss_entry`: a union of two structs of 8 bytes and of two words. -/
structure GdtTssEntry where
  ulong0 : Nat
  ulong1 : Nat
deriving DecidableEq, Repr

namespace GdtTssEntry

/-- `fields_lo` -/
inductive FieldLo
  | limitLo | baseAddrLo | type | zero | dpl | present | limitHi | avl | ign | granularity
  | baseAddrMd
deriving DecidableEq, Repr

def FieldLo.bits : FieldLo → BitField
  | limitLo => ⟨0, 16⟩
  | baseAddrLo => ⟨16, 24⟩
  | type => ⟨40, 4⟩
  | zero => ⟨44, 1⟩
  | dpl => ⟨45, 2⟩
  | present => ⟨47, 1⟩
  | limitHi => ⟨48, 4⟩
  | avl => ⟨52, 1⟩
  | ign => ⟨53, 2⟩
  | granularity => ⟨55, 1⟩
  | baseAddrMd => ⟨56, 8⟩

/-- `fields_hi` -/
inductive FieldHi
  | baseAddrHi | ign1 | zero | ign2
deriving DecidableEq, Repr

def FieldHi.bits : FieldHi → BitField
  | baseAddrHi => ⟨0, 32⟩
  | ign1 => ⟨32, 8⟩
  | zero => ⟨40, 5⟩
  | ign2 => ⟨45, 19⟩

/-- `tss.fields_lo.f = value` -/
def setLo (tss : GdtTssEntry) (f : FieldLo) (value : Nat) : GdtTssEntry :=
  { tss with ulong0 := f.bits.set tss.ulong0 value }

/-- `tss.fields_hi.f = value`. The struct begins where the union begins. -/
def setHi (tss : GdtTssEntry) (f : FieldHi) (value : Nat) : GdtTssEntry :=
  { tss with ulong0 := f.bits.set tss.ulong0 value }

end GdtTssEntry

instance neZero_longModeGdtGates : NeZero longModeGdtGates := ⟨by decide⟩

/-- `g_entries` -/
abbrev GdtEntries := Fin longModeGdtGates → Nat

/-- What `tss_set_gate` makes of the union. -/
def GdtTssEntry.setGate (tss : GdtTssEntry) (address : Nat) : GdtTssEntry :=
  tss
    |>.setLo .baseAddrLo (address &&& 0xffffff)
    |>.setLo .baseAddrMd ((address >>> 24) &&& 0xff)
    |>.setHi .baseAddrHi (address >>> 32)
    |>.setLo .limitLo 0xffff
    |>.setLo .limitHi 0xf
    |>.setLo .avl 0x0
    |>.setLo .dpl 0x3
    |>.setLo .present 0x1
    |>.setLo .zero 0x0
    |>.setLo .type 0x9
    |>.setHi .zero 0x0

/-- `tss_set_gate` -/
def tssSetGate (gEntries : GdtEntries) (addr : Nat) : GdtEntries :=
  let tss := (GdtTssEntry.mk (gEntries 5) (gEntries 6)).setGate addr
  Function.update (Function.update gEntries 5 tss.ulong0) 6 tss.ulong1

/-! ### The interrupt table -/

/-- `idt_entry` -/
inductive IdtField
  | offsetLo | selector | ist | reservedIgn1 | type | zero | dpl | present | offsetHi
  | reservedIgn2
deriving DecidableEq, Repr

def IdtField.bits : IdtField → BitField
  | offsetLo => ⟨0, 16⟩
  | selector => ⟨16, 16⟩
  | ist => ⟨32, 3⟩
  | reservedIgn1 => ⟨35, 5⟩
  | type => ⟨40, 4⟩
  | zero => ⟨44, 1⟩
  | dpl => ⟨45, 2⟩
  | present => ⟨47, 1⟩
  | offsetHi => ⟨48, 48⟩
  | reservedIgn2 => ⟨96, 32⟩

/-- `sizeof(idt_entry)` -/
def sizeofIdtEntry : Nat := 16

/-- `idt_ptr` -/
structure IdtPtr where
  limit : Nat
  base : Nat
deriving DecidableEq, Repr

/-- The memory with the interrupt table, and its register. -/
structure Idt where
  mem : Mem
  idtr : IdtPtr
  /-- Ghost: the bytes that were stored to, the last store first. -/
  stores : List Span

namespace Idt

/-- `entries[gate].f = value` -/
def setField (s : Idt) (entries gate : Nat) (f : IdtField) (value : Nat) : Idt :=
  let p := entries + sizeofIdtEntry * gate
  { s with
    mem := store s.mem sizeofIdtEntry p (f.bits.set (load s.mem sizeofIdtEntry p) value)
    stores := ⟨p + f.bits.off / 8, (f.bits.off % 8 + f.bits.len + 7) / 8⟩ :: s.stores }

/-- `idt_add_gate` and `idt_add_user_gate`, which differ in `dpl`. -/
def addGate (dpl : Nat) (s : Idt) (entries : Nat) (gate : UInt8) (function : UInt64) : Idt :=
  let gate := gate.toNat
  let function := function.toNat
  s
    |>.setField entries gate .offsetLo (function &&& 0xffff)
    |>.setField entries gate .selector 0x8
    |>.setField entries gate .ist 0
    |>.setField entries gate .reservedIgn1 0
    |>.setField entries gate .type 0xe
    |>.setField entries gate .zero 0
    |>.setField entries gate .dpl dpl
    |>.setField entries gate .present 1
    |>.setField entries gate .offsetHi ((function >>> 16) &&& 0xffffffffffff)
    |>.setField entries gate .reservedIgn2 0

/-- `idt_add_gate` -/
def idtAddGate : Idt → Nat → UInt8 → UInt64 → Idt := addGate 0

/-- `idt_add_user_gate` -/
def idtAddUserGate : Idt → Nat → UInt8 → UInt64 → Idt := addGate 3

end Idt

/-- The functions that `idt_setup` installs: `div` to `rsC`, `irq0` to `irq15` and `syscall_int`, at
their vectors. -/
abbrev Handlers := UInt8 → UInt64

/-- The vectors of the exceptions, then of the interrupts. -/
def kernelVectors : List UInt8 := (List.range 48).map UInt8.ofNat

/-- `idt_setup`, with `i_entries` at `iEntries` -/
def idtSetup (handlers : Handlers) (iEntries : Nat) (mem : Mem) : Idt :=
  let idtPtr : IdtPtr := { limit := sizeofIdtEntry * longModeIdtGates - 1, base := iEntries }
  let s : Idt := { mem, idtr := idtPtr, stores := [] }
  let s := kernelVectors.foldl (fun s gate => s.idtAddGate iEntries gate (handlers gate)) s
  s.idtAddUserGate iEntries 0x80 (handlers 0x80)

end Coronel
