import Mathlib.Data.Nat.Bitwise

/-!
# The PCI scan

`drivers/bus/pci.cpp` and `pci.hpp`. The configuration space is what the address and value ports
show of it; the video output of a scan is the list of the functions whose info was printed.
-/

namespace Coronel

/-- The dword behind each value of `PCI_ADDRESS_PORT`. -/
abbrev ConfigSpace := Nat → Nat

/-- `pci_address_t` -/
structure PciAddress where
  bus : Nat
  slot : Nat
  function : Nat
deriving DecidableEq, Repr

/-- `pci_address_t::get_address` -/
def PciAddress.getAddress (addr : PciAddress) (field : Nat) : Nat :=
  0x80000000 ||| (addr.bus <<< 16) ||| (addr.slot <<< 11) ||| (addr.function <<< 8) |||
    (field &&& 0xfc)

/-- `pci_info_t` -/
structure PciInfo where
  address : PciAddress
  klass : Nat
  subclass : Nat
  vendor : Nat
  device : Nat
  bars : List Nat
deriving DecidableEq, Repr

namespace Pci

def maxPciFunctions : Nat := 8
def maxPciSlots : Nat := 32

def pciVendorId : Nat := 0x00
def pciDeviceId : Nat := 0x02
def pciSubclass : Nat := 0x0a
def pciClass : Nat := 0x0b
def pciHeaderType : Nat := 0x0e
def pciBar0 : Nat := 0x10
def pciBar1 : Nat := 0x14
def pciBar2 : Nat := 0x18
def pciBar3 : Nat := 0x1c
def pciBar4 : Nat := 0x20
def pciBar5 : Nat := 0x24
def pciSecondaryBus : Nat := 0x19
def pciTypeBridge : Int := 0x604
def pciNone : Nat := 0xffff

variable (config : ConfigSpace)

/-- `read_byte`: byte `field & 0x3` of the value port. -/
def readByte (addr : PciAddress) (field : Nat) : Nat :=
  config (addr.getAddress field) >>> (8 * (field &&& 0x3)) % 2 ^ 8

/-- `read_word`: the word at `field & 0x2` of the value port. -/
def readWord (addr : PciAddress) (field : Nat) : Nat :=
  config (addr.getAddress field) >>> (8 * (field &&& 0x2)) % 2 ^ 16

/-- `read_dword` -/
def readDword (addr : PciAddress) (field : Nat) : Nat :=
  config (addr.getAddress field) % 2 ^ 32

/-- `get_type` -/
def getType (addr : PciAddress) : Nat :=
  (readByte config addr pciClass <<< 8) ||| readByte config addr pciSubclass

/-- What `scan_function` reads of a function and prints. -/
def info (addr : PciAddress) : PciInfo where
  address := addr
  klass := readByte config addr pciClass
  subclass := readByte config addr pciSubclass
  vendor := readWord config addr pciVendorId
  device := readWord config addr pciDeviceId
  bars := [readDword config addr pciBar0, readDword config addr pciBar1,
    readDword config addr pciBar2, readDword config addr pciBar3, readDword config addr pciBar4,
    readDword config addr pciBar5]

/-- `scan_function`; `scanBus` is called for the bus behind a bridge. -/
def scanFunction (scanBus : Nat → Option (List PciInfo)) (type : Int) (bus slot function : Nat) :
    Option (List PciInfo) := do
  let addr : PciAddress := ⟨bus, slot, function⟩
  let printed := if type = -1 ∨ type = getType config addr then [info config addr] else []
  if type = pciTypeBridge then
    let secondaryBus := readByte config addr pciSecondaryBus
    if secondaryBus ≠ 0 then
      return printed ++ (← scanBus secondaryBus)
  return printed

/-- The loop of `scan_slot` over the `n` functions from `function`. -/
def scanFunctions (scanBus : Nat → Option (List PciInfo)) (type : Int) (bus slot : Nat) :
    Nat → Nat → Option (List PciInfo)
  | 0, _ => some []
  | n + 1, function => do
    let printed ← if readWord config ⟨bus, slot, function⟩ pciVendorId ≠ pciNone then
        scanFunction config scanBus type bus slot function
      else some []
    return printed ++ (← scanFunctions scanBus type bus slot n (function + 1))

/-- `scan_slot` -/
def scanSlot (scanBus : Nat → Option (List PciInfo)) (type : Int) (bus slot : Nat) :
    Option (List PciInfo) := do
  let addr : PciAddress := ⟨bus, slot, 0⟩
  if readWord config addr pciVendorId = pciNone then
    return []
  let printed ← scanFunction config scanBus type bus slot 0
  if readByte config addr pciHeaderType &&& 0x80 = 0 then
    return printed
  return printed ++ (← scanFunctions config scanBus type bus slot (maxPciFunctions - 1) 1)

/-- The loop of `scan_bus` over the `n` slots from `slot`. -/
def scanSlots (scanBus : Nat → Option (List PciInfo)) (type : Int) (bus : Nat) :
    Nat → Nat → Option (List PciInfo)
  | 0, _ => some []
  | n + 1, slot => do
    return (← scanSlot config scanBus type bus slot) ++ (← scanSlots scanBus type bus n (slot + 1))

/-- `scan_bus`, with at most `fuel` buses open at a time. -/
def scanBus : Nat → Int → Nat → Option (List PciInfo)
  | 0, _, _ => none
  | fuel + 1, type, bus => scanSlots config (scanBus fuel type) type bus maxPciSlots 0

/-- The loop of `scan_device` over the `n` host controllers from `function`. -/
def scanControllers (fuel : Nat) : Nat → Nat → Option (List PciInfo)
  | 0, _ => some []
  | n + 1, function => do
    if readWord config ⟨0, 0, function⟩ pciVendorId = pciNone then
      return []
    return (← scanBus config fuel (-1) function) ++ (← scanControllers fuel n (function + 1))

/-- `scan_device` -/
def scanDevice (fuel : Nat) : Option (List PciInfo) :=
  if readByte config ⟨0, 0, 0⟩ pciHeaderType &&& 0x80 = 0 then
    scanBus config fuel (-1) 0
  else
    scanControllers config fuel maxPciFunctions 0

/-- `scan_hardware` -/
def scanHardware (fuel : Nat) : Option (List PciInfo) := scanDevice config fuel

end Pci
end Coronel
