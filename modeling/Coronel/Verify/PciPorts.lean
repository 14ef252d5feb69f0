import Coronel.Kernel.PciPorts
import Coronel.Verify.Pci

/-!
# The PCI accessors

The address port selects the dword of a field. The reads put the low bits of the field back in the
number of the value port, the writes do not: they write to the start of the dword.
-/

namespace Coronel

open Theory Theory.Bytes

namespace PciPorts

/-- The widths of the accessors. -/
inductive Width
  | byte | word | dword
deriving DecidableEq, Repr

def Width.bytes : Width → Nat
  | byte => 1
  | word => 2
  | dword => 4

/-- `read_byte`, `read_word` and `read_dword` -/
def read : Width → PciPorts → PciAddress → UInt16 → Nat × PciPorts
  | .byte => readByte
  | .word => readWord
  | .dword => readDword

/-- `write_byte`, `write_word` and `write_dword` -/
def write : Width → PciPorts → PciAddress → UInt16 → Nat → PciPorts
  | .byte => writeByte
  | .word => writeWord
  | .dword => writeDword

/-- A write is read back, and changes no other byte. -/
def Agrees (w : Width) (s : PciPorts) (addr : PciAddress) (field : UInt16) (value : Nat) : Prop :=
  ((s.write w addr field value).read w addr field).1 = value ∧
    ∀ addr' o, ¬(addr' = addr ∧ field.toNat ≤ o ∧ o < field.toNat + w.bytes) →
      (s.write w addr field value).config addr' o = s.config addr' o

section
variable {s : PciPorts} {addr : PciAddress} {field : UInt16} {w : Width} {n value port : Nat}

/-! ### The address port -/

/-- The address port with `address` in it. -/
def select (s : PciPorts) (addr : PciAddress) (field : UInt16) : PciPorts :=
  { s with address := getAddress addr field }

theorem and_fc {x : Nat} (h : x < 2 ^ 8) : x &&& 0xfc = x - x % 4 := by
  rw [show 0xfc = 2 ^ 8 - 2 ^ 2 from rfl, and_mask x (by decide), Nat.mod_eq_of_lt h]
  omega

theorem getAddress_fields (h : addr.Valid) (field : UInt16) :
    (⟨31, 1⟩ : BitField).get (getAddress addr field) = 1 ∧
    (⟨16, 8⟩ : BitField).get (getAddress addr field) = addr.bus ∧
    (⟨11, 5⟩ : BitField).get (getAddress addr field) = addr.slot ∧
    (⟨8, 3⟩ : BitField).get (getAddress addr field) = addr.function ∧
    4 * (⟨2, 6⟩ : BitField).get (getAddress addr field) = field.toNat % 256 - field.toNat % 4 ∧
    getAddress addr field < 2 ^ 32 := by
  have heq := Pci.getAddress_eq h (field.toNat % 2 ^ 8)
  obtain ⟨h1, h2, h3⟩ := h
  rw [Pci.maxPciSlots] at h2
  rw [Pci.maxPciFunctions] at h3
  have hmask : field.toNat % 2 ^ 8 &&& 0xfc = field.toNat % 256 - field.toNat % 4 := by
    rw [and_fc (Nat.mod_lt _ (by decide))]
    omega
  rw [hmask] at heq
  rw [getAddress, heq]
  simp only [BitField.get, Nat.shiftRight_eq_div_pow]
  refine ⟨?_, ?_, ?_, ?_, ?_, ?_⟩ <;> omega

/-- What the address port selects once an accessor has written it. -/
theorem selected_select (h : addr.Valid) : (s.select addr field).selected = addr := by
  obtain ⟨-, h1, h2, h3, -⟩ := getAddress_fields h field
  rw [selected, select, h1, h2, h3]

theorem offset_select (h : addr.Valid) : (s.select addr field).offset port =
    field.toNat % 256 - field.toNat % 4 + (port - pciValuePort) := by
  obtain ⟨-, -, -, -, h1, -⟩ := getAddress_fields h field
  rw [offset, select, h1]

theorem outPort_address (h : addr.Valid) :
    s.outPort 4 pciAddressPort (getAddress addr field) = s.select addr field := by
  obtain ⟨-, -, -, -, -, h1⟩ := getAddress_fields h field
  rw [outPort, if_pos ⟨rfl, rfl⟩, Nat.mod_eq_of_lt h1, select]

theorem selects_select (h : addr.Valid) (h1 : pciValuePort ≤ port)
    (h2 : port + n ≤ pciValuePort + 4) : (s.select addr field).Selects port n :=
  ⟨(getAddress_fields h field).1, h1, h2⟩

theorem archRead_eq (h : addr.Valid) (h1 : pciValuePort ≤ port)
    (h2 : port + n ≤ pciValuePort + 4) :
    (s.archRead n (getAddress addr field) pciAddressPort port).1 = load (s.config addr) n
      (field.toNat % 256 - field.toNat % 4 + (port - pciValuePort)) := by
  rw [archRead, outPort_address h, inPort, if_pos (selects_select h h1 h2), selected_select h,
    offset_select h]
  rfl

theorem archWrite_config (h : addr.Valid) (h2 : n ≤ 4) :
    (s.archWrite n (getAddress addr field) pciAddressPort pciValuePort value).config =
      Function.update s.config addr (store (s.config addr) n
        (field.toNat % 256 - field.toNat % 4) value) := by
  have hport : ¬(pciValuePort = pciAddressPort ∧ n = 4) := fun h => absurd h.1 (by decide)
  rw [archWrite, outPort_address h, outPort, if_neg hport,
    if_pos (selects_select h (Nat.le_refl _) (Nat.add_le_add_left h2 _)), selected_select h,
    offset_select h, Nat.sub_self, Nat.add_zero]
  rfl

/-! ### The accessors -/

theorem and_two_of_even {x : Nat} (h : x % 2 = 0) : x &&& 0x2 = x % 4 := by
  rw [show 0x2 = 2 ^ 2 - 2 ^ 1 from rfl, and_mask x (by decide)]
  omega

/-- A read is that of the field. -/
theorem read_eq (h : addr.Valid) (hfield : field.toNat < 256)
    (halign : w.bytes ∣ field.toNat) :
    (s.read w addr field).1 = load (s.config addr) w.bytes field.toNat := by
  have hmod : field.toNat % 256 = field.toNat := Nat.mod_eq_of_lt hfield
  cases w with
  | byte =>
    have h3 : field.toNat &&& 0x3 = field.toNat % 4 := Nat.and_two_pow_sub_one_eq_mod _ 2
    rw [read, readByte, archRead_eq h (by omega) (by omega), h3, hmod, Nat.add_sub_cancel_left,
      Nat.sub_add_cancel (Nat.mod_le _ _)]
    rfl
  | word =>
    have heven : field.toNat % 2 = 0 := Nat.mod_eq_zero_of_dvd halign
    have h2 := and_two_of_even heven
    rw [read, readWord, archRead_eq h (by omega) (by omega), h2, hmod, Nat.add_sub_cancel_left,
      Nat.sub_add_cancel (Nat.mod_le _ _)]
    rfl
  | dword =>
    have h0 : field.toNat % 4 = 0 := Nat.mod_eq_zero_of_dvd halign
    rw [read, readDword, archRead_eq h (by omega) (by omega), hmod, h0, Nat.sub_self]
    rfl

/-- A write is that of the start of the field's dword. -/
theorem write_config (h : addr.Valid) (hfield : field.toNat < 256) :
    (s.write w addr field value).config = Function.update s.config addr
      (store (s.config addr) w.bytes (field.toNat - field.toNat % 4) value) := by
  have hmod : field.toNat % 256 = field.toNat := Nat.mod_eq_of_lt hfield
  cases w with
  | byte =>
    rw [write, writeByte, archWrite_config h (by decide), hmod]
    rfl
  | word =>
    rw [write, writeWord, archWrite_config h (by decide), hmod]
    rfl
  | dword =>
    rw [write, writeDword, archWrite_config h (by decide), hmod]
    rfl

theorem Width.bytes_cases (w : Width) : w.bytes = 1 ∨ w.bytes = 2 ∨ w.bytes = 4 := by
  cases w <;> decide

/-- Behind the first bytes of a dword there is room for the field before it. -/
theorem Width.room (w : Width) {x : Nat} (halign : w.bytes ∣ x) (h : x % 4 ≠ 0) :
    x - x % 4 + w.bytes ≤ x := by
  have h1 := Nat.mod_eq_zero_of_dvd halign
  rcases w.bytes_cases with h2 | h2 | h2 <;> rw [h2] at h1 ⊢ <;> omega

/-- **The accessors agree** on a naturally aligned field exactly when it begins its dword, or when it
and the start of its dword hold the value already. -/
theorem agrees_iff (h : addr.Valid) (hfield : field.toNat < 256) (halign : w.bytes ∣ field.toNat)
    (hvalue : value < 256 ^ w.bytes) : Agrees w s addr field value ↔ field.toNat % 4 = 0 ∨
      load (s.config addr) w.bytes field.toNat = value ∧
      load (s.config addr) w.bytes (field.toNat - field.toNat % 4) = value := by
  have hread : ((s.write w addr field value).read w addr field).1 =
      load (store (s.config addr) w.bytes (field.toNat - field.toNat % 4) value) w.bytes
        field.toNat := by
    rw [read_eq h hfield halign, write_config h hfield, Function.update_self]
  have hother : ∀ {addr' o}, addr' ≠ addr →
      (s.write w addr field value).config addr' o = s.config addr' o := fun {addr' o} hne => by
    rw [write_config h hfield, Function.update_of_ne hne]
  have hsame : (s.write w addr field value).config addr =
      store (s.config addr) w.bytes (field.toNat - field.toNat % 4) value := by
    rw [write_config h hfield, Function.update_self]
  rw [Agrees, hread]
  by_cases h0 : field.toNat % 4 = 0
  · refine ⟨fun _ => .inl h0, fun _ => ⟨?_, fun addr' o hout => ?_⟩⟩
    · rw [h0, Nat.sub_zero, load_store_of_lt hvalue]
    · by_cases haddr : addr' = addr
      · subst haddr
        have hout : ¬(field.toNat ≤ o ∧ o < field.toNat + w.bytes) := fun h => hout ⟨rfl, h⟩
        rw [hsame, h0, Nat.sub_zero, store_of_not_mem (by omega)]
      · exact hother haddr
  · -- the bytes written lie before the field
    have hroom := w.room halign h0
    rw [load_store_disjoint (.inr hroom), or_iff_right h0]
    refine and_congr_right fun _ => ⟨fun hout => ?_, ?_⟩
    · rw [← load_store_of_lt hvalue]
      refine load_congr fun i hi => ?_
      rw [← hsame]
      exact (hout addr _ (by omega)).symm
    · rintro rfl addr' o -
      by_cases haddr : addr' = addr
      · subst haddr
        rw [hsame, store_load]
      · exact hother haddr

theorem valid_zero : (PciAddress.mk 0 0 0).Valid := ⟨by decide, by decide, by decide⟩

/-- The command word of a function. -/
theorem agrees_iff_command : Agrees .word ⟨0, fun _ _ => 0⟩ ⟨0, 0, 0⟩ 4 0x0107 :=
  (agrees_iff valid_zero (by decide) (by decide) (by decide)).mpr (.inl (by decide))

/-- A byte at offset 0x3d is written to 0x3c. -/
theorem not_agrees_byte : ¬∀ {w s addr field value}, addr.Valid → field.toNat < 256 →
    w.bytes ∣ field.toNat → value < 256 ^ w.bytes → Agrees w s addr field value := by
  intro h
  obtain ⟨hread, -⟩ := @h .byte ⟨0, fun _ _ => 0⟩ ⟨0, 0, 0⟩ 0x3d 1 valid_zero (by decide) (by decide)
    (by decide)
  rw [read_eq valid_zero (by decide) (by decide), write_config valid_zero (by decide),
    Function.update_self, load_store_disjoint (.inr (by decide))] at hread
  exact absurd hread (by decide)

end
end PciPorts
end Coronel
