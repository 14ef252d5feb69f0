import Coronel.Kernel.Pci
import Coronel.Theory.BitField
import Coronel.Theory.Bytes

/-!
# The PCI ports

The accessors of `pci.hpp` over those of `amd64.hpp`, with the hardware that they talk to: a port
that holds the address of a dword of the configuration space, and four ports that are its bytes.
-/

namespace Coronel

open Theory Theory.Bytes

/-- The address port and the configuration space of every function. -/
structure PciPorts where
  address : Nat
  config : PciAddress → Mem

namespace PciPorts

def pciAddressPort : Nat := 0xcf8
def pciValuePort : Nat := 0xcfc

/-! ### Hardware -/

/-- The function that the address port selects. -/
def selected (s : PciPorts) : PciAddress where
  bus := (⟨16, 8⟩ : BitField).get s.address
  slot := (⟨11, 5⟩ : BitField).get s.address
  function := (⟨8, 3⟩ : BitField).get s.address

/-- The offset behind a value port. -/
def offset (s : PciPorts) (port : Nat) : Nat :=
  4 * (⟨2, 6⟩ : BitField).get s.address + (port - pciValuePort)

/-- The `n` ports from `port` up are bytes of a dword that is selected. -/
def Selects (s : PciPorts) (port n : Nat) : Prop :=
  (⟨31, 1⟩ : BitField).get s.address = 1 ∧ pciValuePort ≤ port ∧ port + n ≤ pciValuePort + 4

instance (s : PciPorts) (port n : Nat) : Decidable (s.Selects port n) :=
  inferInstanceAs (Decidable (_ ∧ _ ∧ _))

/-- Read `n` bytes; where nothing answers the bits are ones. -/
def inPort (s : PciPorts) (n port : Nat) : Nat :=
  if s.Selects port n then load (s.config s.selected) n (s.offset port) else 256 ^ n - 1

/-- Write `n` bytes. -/
def outPort (s : PciPorts) (n port value : Nat) : PciPorts :=
  if port = pciAddressPort ∧ n = 4 then
    { s with address := value % 2 ^ 32 }
  else if s.Selects port n then
    { s with
      config := Function.update s.config s.selected
        (store (s.config s.selected) n (s.offset port) value) }
  else s

/-! ### amd64.hpp -/

/-- `insn::outl(addr_port, addr)`, then `insn::inb`, `inw` or `inl` of `n` bytes. -/
def archRead (n : Nat) (s : PciPorts) (addr addrPort valuePort : Nat) : Nat × PciPorts :=
  let s := s.outPort 4 addrPort addr
  (s.inPort n valuePort, s)

/-- `insn::outl(addr_port, addr)`, then `insn::outb`, `outw` or `outl` of `n` bytes. -/
def archWrite (n : Nat) (s : PciPorts) (addr addrPort valuePort value : Nat) : PciPorts :=
  (s.outPort 4 addrPort addr).outPort n valuePort value

/-! ### pci.hpp -/

/-- `get_address` takes the field as a `uint8_t`. -/
def getAddress (addr : PciAddress) (field : UInt16) : Nat := addr.getAddress (field.toNat % 2 ^ 8)

variable (s : PciPorts) (addr : PciAddress) (field : UInt16)

/-- `pci::read_byte` -/
def readByte : Nat × PciPorts :=
  s.archRead 1 (getAddress addr field) pciAddressPort (pciValuePort + (field.toNat &&& 0x3))

/-- `pci::read_word` -/
def readWord : Nat × PciPorts :=
  s.archRead 2 (getAddress addr field) pciAddressPort (pciValuePort + (field.toNat &&& 0x2))

/-- `pci::read_dword` -/
def readDword : Nat × PciPorts :=
  s.archRead 4 (getAddress addr field) pciAddressPort pciValuePort

/-- `pci::write_byte` -/
def writeByte (value : Nat) : PciPorts :=
  s.archWrite 1 (getAddress addr field) pciAddressPort pciValuePort value

/-- `pci::write_word` -/
def writeWord (value : Nat) : PciPorts :=
  s.archWrite 2 (getAddress addr field) pciAddressPort pciValuePort value

/-- `pci::write_dword` -/
def writeDword (value : Nat) : PciPorts :=
  s.archWrite 4 (getAddress addr field) pciAddressPort pciValuePort value

end PciPorts

end Coronel
