import Coronel.Kernel.Pci
import Mathlib.Data.List.Nodup
import Mathlib.Data.List.TakeWhile

/-!
# What the PCI scan reports

The functions of the host controllers' buses, each once. A scan starts with the type -1, and only a
scan for the type of a bridge looks behind bridges, so the buses behind them are never visited.
-/

namespace Coronel

/-! ### Topology -/

/-- The fields of an address are in their ranges. -/
def PciAddress.Valid (addr : PciAddress) : Prop :=
  addr.bus < 2 ^ 8 ∧ addr.slot < Pci.maxPciSlots ∧ addr.function < Pci.maxPciFunctions

namespace Pci

/-- The bit of the header type that announces further functions. -/
def Multifunction (config : ConfigSpace) (bus slot : Nat) : Prop :=
  readByte config ⟨bus, slot, 0⟩ pciHeaderType &&& 0x80 ≠ 0

instance (config : ConfigSpace) (bus slot : Nat) : Decidable (Multifunction config bus slot) :=
  inferInstanceAs (Decidable (_ ≠ _))

/-- Function 0 of the device answers, and `addr` is that function or is announced and answers. -/
def Present (config : ConfigSpace) (addr : PciAddress) : Prop :=
  addr.Valid ∧
  readWord config ⟨addr.bus, addr.slot, 0⟩ pciVendorId ≠ pciNone ∧
  (addr.function = 0 ∨
    Multifunction config addr.bus addr.slot ∧ readWord config addr pciVendorId ≠ pciNone)

instance (config : ConfigSpace) (addr : PciAddress) : Decidable (Present config addr) :=
  inferInstanceAs (Decidable ((_ ∧ _ ∧ _) ∧ _ ∧ (_ ∨ _ ∧ _)))

/-- The bus of a host controller: bus 0, or the number of a function of device 0:0. -/
def HostBus (config : ConfigSpace) (bus : Nat) : Prop :=
  if Multifunction config 0 0 then Present config ⟨0, 0, bus⟩ else bus = 0

/-- A PCI-to-PCI bridge whose secondary bus is `bus`. -/
def LeadsTo (config : ConfigSpace) (addr : PciAddress) (bus : Nat) : Prop :=
  Present config addr ∧ (getType config addr : Int) = pciTypeBridge ∧
    readByte config addr pciSecondaryBus = bus ∧ bus ≠ 0

/-- The buses behind the host controllers and the bridges. -/
inductive Reachable (config : ConfigSpace) : Nat → Prop
  | host {bus} : HostBus config bus → Reachable config bus
  | bridge {addr bus} : Reachable config addr.bus → LeadsTo config addr bus → Reachable config bus

/-- No bridge leads back. -/
def Acyclic (config : ConfigSpace) : Prop :=
  ∃ depth : Nat → Nat, ∀ addr bus, LeadsTo config addr bus → depth addr.bus < depth bus

/-- A scan reports every present function that is reachable once, and no other. -/
def Complete (config : ConfigSpace) (infos : List PciInfo) : Prop :=
  (∀ i ∈ infos, i = info config i.address) ∧ (infos.map (·.address)).Nodup ∧
    ∀ addr, addr ∈ infos.map (·.address) ↔ Present config addr ∧ Reachable config addr.bus

/-! ### One bus -/

/-- The addresses of a bus. -/
def addresses (bus : Nat) : List PciAddress :=
  (List.range maxPciSlots).flatMap fun slot =>
    (List.range maxPciFunctions).map fun function => ⟨bus, slot, function⟩

/-- The functions of a bus. -/
def functions (config : ConfigSpace) (bus : Nat) : List PciAddress :=
  (addresses bus).filter fun addr => Present config addr

section
variable {config : ConfigSpace} {scan : Nat → Option (List PciInfo)} {bus slot n fuel : Nat}
  {addr : PciAddress}

/-- A scan for every type prints the function and looks no further. -/
theorem scanFunction_eq (function : Nat) :
    scanFunction config scan (-1) bus slot function = some [info config ⟨bus, slot, function⟩] := by
  rw [scanFunction, if_neg (by decide), if_pos (.inl rfl)]
  rfl

theorem scanFunctions_eq (function : Nat) : scanFunctions config scan (-1) bus slot n function =
    some ((((List.range' function n).map fun f => PciAddress.mk bus slot f).filter fun addr =>
      readWord config addr pciVendorId ≠ pciNone).map (info config)) := by
  induction n generalizing function with
  | zero => rfl
  | succ n ih =>
    rw [scanFunctions, ih, List.range'_succ, List.map_cons]
    by_cases h : readWord config ⟨bus, slot, function⟩ pciVendorId = pciNone
    · rw [if_neg (by simpa using h), List.filter_cons_of_neg (by simpa using h)]
      rfl
    · rw [if_pos h, scanFunction_eq, List.filter_cons_of_pos (by simpa using h)]
      rfl

/-- A slot, in the cases that `scan_slot` tells apart. -/
theorem scanSlot_eq (hbus : bus < 2 ^ 8) (hslot : slot < maxPciSlots) : scanSlot config scan (-1) bus slot =
    some ((((List.range maxPciFunctions).map fun f => PciAddress.mk bus slot f).filter fun addr =>
      Present config addr).map (info config)) := by
  have hrange : List.range maxPciFunctions = 0 :: List.range' 1 7 := rfl
  rw [scanSlot]
  by_cases h0 : readWord config ⟨bus, slot, 0⟩ pciVendorId = pciNone
  · rw [if_pos h0, List.filter_eq_nil_iff.mpr]
    · rfl
    · intro addr haddr
      obtain ⟨f, -, rfl⟩ := List.mem_map.mp haddr
      simp [Present, h0]
  · have hfirst : Present config ⟨bus, slot, 0⟩ := ⟨⟨hbus, hslot, Nat.zero_lt_succ 7⟩, h0, .inl rfl⟩
    rw [if_neg h0, scanFunction_eq, hrange, List.map_cons,
      List.filter_cons_of_pos (by simpa using hfirst)]
    by_cases hm : readByte config ⟨bus, slot, 0⟩ pciHeaderType &&& 0x80 = 0
    · rw [List.filter_eq_nil_iff.mpr]
      · simp [hm]
      · intro addr haddr
        obtain ⟨f, hf, rfl⟩ := List.mem_map.mp haddr
        have hf := (List.mem_range'_1.mp hf).1
        rw [decide_eq_true_iff]
        rintro ⟨-, -, h⟩
        refine h.elim (fun h => ?_) fun h => h.1 hm
        simp only at h
        omega
    · rw [scanFunctions_eq, List.filter_congr (q := fun addr => Present config addr)]
      · simp [hm, maxPciFunctions]
      · intro addr haddr
        obtain ⟨f, hf, rfl⟩ := List.mem_map.mp haddr
        have hf := List.mem_range'_1.mp hf
        have hf8 : f < maxPciFunctions := by rw [maxPciFunctions] at *; omega
        have hvalid : (PciAddress.mk bus slot f).Valid := ⟨hbus, hslot, hf8⟩
        refine decide_eq_decide.mpr ⟨fun h => ⟨hvalid, h0, .inr ⟨hm, h⟩⟩, fun h => ?_⟩
        exact (h.2.2.resolve_left (by simp only; omega)).2

theorem scanSlots_eq (hbus : bus < 2 ^ 8) (h : slot + n ≤ maxPciSlots) : scanSlots config scan (-1) bus n slot =
    some ((((List.range' slot n).flatMap fun slot =>
      (List.range maxPciFunctions).map fun f => PciAddress.mk bus slot f).filter fun addr =>
        Present config addr).map (info config)) := by
  induction n generalizing slot with
  | zero => rfl
  | succ n ih =>
    rw [scanSlots, scanSlot_eq hbus (by omega), ih (by omega), List.range'_succ, List.flatMap_cons,
      List.filter_append, List.map_append]
    rfl

theorem scanBus_eq (hbus : bus < 2 ^ 8) : scanBus config (fuel + 1) (-1) bus =
    some ((functions config bus).map (info config)) := by
  rw [scanBus, scanSlots_eq hbus (by simp), functions, addresses, List.range_eq_range' (n := maxPciSlots)]

theorem mem_functions : addr ∈ functions config bus ↔ addr.bus = bus ∧ Present config addr := by
  rw [functions, List.mem_filter, decide_eq_true_iff]
  refine and_congr_left fun hp => ?_
  rw [addresses, List.mem_flatMap]
  constructor
  · rintro ⟨slot, -, h⟩
    obtain ⟨f, -, rfl⟩ := List.mem_map.mp h
    rfl
  · rintro rfl
    exact ⟨addr.slot, List.mem_range.mpr hp.1.2.1,
      List.mem_map.mpr ⟨addr.function, List.mem_range.mpr hp.1.2.2, rfl⟩⟩

theorem nodup_functions : (functions config bus).Nodup := by
  refine List.Nodup.filter _ (List.nodup_flatMap.mpr ⟨fun slot _ => ?_, ?_⟩)
  · exact List.nodup_range.map fun f f' h => (PciAddress.mk.inj h).2.2
  · refine List.nodup_range.imp fun hne => ?_
    intro addr h1 h2
    obtain ⟨f, -, rfl⟩ := List.mem_map.mp h1
    obtain ⟨f', -, h⟩ := List.mem_map.mp h2
    exact hne (PciAddress.mk.inj h).2.1.symm

/-! ### The whole scan -/

variable (config) in
/-- The buses that `scan_device` scans: those of the controllers before the first gap. -/
def controllers : List Nat :=
  if Multifunction config 0 0 then
    (List.range maxPciFunctions).takeWhile fun f => readWord config ⟨0, 0, f⟩ pciVendorId ≠ pciNone
  else [0]

theorem scanControllers_eq {function : Nat} (hf : function + n ≤ 2 ^ 8) : scanControllers config (fuel + 1) n function =
    some ((((List.range' function n).takeWhile fun f =>
      readWord config ⟨0, 0, f⟩ pciVendorId ≠ pciNone).flatMap (functions config)).map
        (info config)) := by
  induction n generalizing function with
  | zero => rfl
  | succ n ih =>
    rw [scanControllers, List.range'_succ, List.takeWhile_cons]
    by_cases h : readWord config ⟨0, 0, function⟩ pciVendorId = pciNone
    · simp [h]
    · rw [if_neg h, scanBus_eq (by omega), ih (by omega), if_pos (by simpa using h),
        List.flatMap_cons, List.map_append]
      rfl

/-- A scan ends, and prints the functions of the controllers' buses. -/
theorem scanHardware_eq : scanHardware config (fuel + 1) =
    some (((controllers config).flatMap (functions config)).map (info config)) := by
  rw [scanHardware, scanDevice, controllers]
  by_cases h : readByte config ⟨0, 0, 0⟩ pciHeaderType &&& 0x80 = 0
  · have hm : ¬Multifunction config 0 0 := not_not.mpr h
    rw [if_pos h, scanBus_eq (by decide), if_neg hm]
    simp
  · have hm : Multifunction config 0 0 := h
    rw [if_neg h, scanControllers_eq (by decide), if_pos hm, List.range_eq_range' (n := maxPciFunctions)]

theorem hostBus_of_mem_controllers (h : bus ∈ controllers config) : HostBus config bus := by
  unfold controllers at h
  unfold HostBus
  by_cases hm : Multifunction config 0 0
  · rw [if_pos hm] at h ⊢
    have h1 := List.mem_takeWhile_imp h
    have h2 := List.mem_range.mp ((List.takeWhile_sublist _).subset h)
    have h0 : readWord config ⟨0, 0, 0⟩ pciVendorId ≠ pciNone := by
      intro hnone
      have hnil : ((List.range maxPciFunctions).takeWhile fun f =>
          readWord config ⟨0, 0, f⟩ pciVendorId ≠ pciNone) = [] := by
        rw [show List.range maxPciFunctions = 0 :: List.range' 1 7 from rfl,
          List.takeWhile_cons_of_neg (by simpa using hnone)]
      rw [hnil] at h
      cases h
    exact ⟨⟨Nat.two_pow_pos 8, Nat.zero_lt_succ 31, h2⟩, h0, .inr ⟨hm, by simpa using h1⟩⟩
  · rw [if_neg hm] at h ⊢
    exact List.mem_singleton.mp h

theorem nodup_controllers : (controllers config).Nodup := by
  unfold controllers
  split
  · exact List.nodup_range.sublist (List.takeWhile_sublist _)
  · exact List.nodup_singleton 0

/-- No present function has the bus number. -/
def EmptyBus (config : ConfigSpace) (bus : Nat) : Prop := ∀ addr, Present config addr → addr.bus ≠ bus

/-- **The scan is complete** exactly when the buses it does not visit have nothing to report: those
behind the bridges on the controllers' buses, and those of controllers behind a gap. -/
theorem complete_iff (fuel : Nat) : ∃ infos, scanHardware config (fuel + 1) = some infos ∧
    (Complete config infos ↔
      (∀ addr bus, addr.bus ∈ controllers config → LeadsTo config addr bus →
        bus ∈ controllers config ∨ EmptyBus config bus) ∧
      ∀ bus, HostBus config bus → bus ∈ controllers config ∨ EmptyBus config bus) := by
  have hmap : (((controllers config).flatMap (functions config)).map (info config)).map
      (·.address) = (controllers config).flatMap (functions config) := by
    rw [List.map_map]
    exact List.map_id _
  refine ⟨_, scanHardware_eq, ?_⟩
  rw [Complete, hmap]
  constructor
  · rintro ⟨-, -, h⟩
    have hreach : ∀ bus, Reachable config bus → bus ∈ controllers config ∨ EmptyBus config bus := by
      intro bus hb
      by_cases hc : bus ∈ controllers config
      · exact .inl hc
      · refine .inr fun addr hp hbus => hc ?_
        subst hbus
        obtain ⟨b, hb', haddr⟩ := List.mem_flatMap.mp ((h addr).mpr ⟨hp, hb⟩)
        rwa [(mem_functions.mp haddr).1]
    exact ⟨fun addr bus hc hl => hreach bus (.bridge (.host (hostBus_of_mem_controllers hc)) hl),
      fun bus hb => hreach bus (.host hb)⟩
  · rintro ⟨hbridge, hhost⟩
    have hreach : ∀ bus, Reachable config bus → bus ∈ controllers config ∨ EmptyBus config bus := by
      intro bus hb
      induction hb with
      | host hb => exact hhost _ hb
      | bridge _ hl ih =>
        rcases ih with hc | he
        · exact hbridge _ _ hc hl
        · exact absurd rfl (he _ hl.1)
    refine ⟨fun i hi => ?_, List.nodup_flatMap.mpr ⟨fun _ _ => nodup_functions, ?_⟩, fun addr => ?_⟩
    · obtain ⟨addr, -, rfl⟩ := List.mem_map.mp hi
      rfl
    · refine nodup_controllers.imp fun hne => ?_
      intro addr h1 h2
      exact hne ((mem_functions.mp h1).1.symm.trans (mem_functions.mp h2).1)
    · rw [List.mem_flatMap]
      constructor
      · rintro ⟨bus, hc, h⟩
        obtain ⟨rfl, hp⟩ := mem_functions.mp h
        exact ⟨hp, .host (hostBus_of_mem_controllers hc)⟩
      · rintro ⟨hp, hr⟩
        refine ⟨addr.bus, (hreach _ hr).resolve_right fun he => he addr hp rfl,
          mem_functions.mpr ⟨rfl, hp⟩⟩

end

/-! ### A bridge -/

/-- The fields of an address take disjoint bits. -/
theorem getAddress_eq {addr : PciAddress} (h : addr.Valid) (field : Nat) :
    addr.getAddress field = 0x80000000 + addr.bus * 2 ^ 16 + addr.slot * 2 ^ 11 +
      addr.function * 2 ^ 8 + (field &&& 0xfc) := by
  obtain ⟨h1, h2, h3⟩ := h
  rw [maxPciSlots] at h2
  rw [maxPciFunctions] at h3
  have h4 : field &&& 0xfc ≤ 0xfc := Nat.and_le_right
  have hor : ∀ {i a b : Nat}, b < 2 ^ i → a * 2 ^ i ||| b = a * 2 ^ i + b := by
    intro i a b hb
    rw [← Nat.shiftLeft_eq, Nat.shiftLeft_add_eq_or_of_lt hb]
  rw [PciAddress.getAddress, Nat.shiftLeft_eq, Nat.shiftLeft_eq, Nat.shiftLeft_eq]
  rw [show 0x80000000 = 1 * 2 ^ 31 by rfl, hor (i := 31) (by omega),
    show 1 * 2 ^ 31 + addr.bus * 2 ^ 16 = (2 ^ 15 + addr.bus) * 2 ^ 16 by omega,
    hor (i := 16) (by omega),
    show (2 ^ 15 + addr.bus) * 2 ^ 16 + addr.slot * 2 ^ 11 =
      ((2 ^ 15 + addr.bus) * 2 ^ 5 + addr.slot) * 2 ^ 11 by omega, hor (i := 11) (by omega),
    show ((2 ^ 15 + addr.bus) * 2 ^ 5 + addr.slot) * 2 ^ 11 + addr.function * 2 ^ 8 =
      (((2 ^ 15 + addr.bus) * 2 ^ 5 + addr.slot) * 2 ^ 3 + addr.function) * 2 ^ 8 by omega,
    hor (i := 8) (by omega)]

/-- Device 0:0 is a bridge to bus 1, where one more device answers. -/
def bridged : ConfigSpace := fun address =>
  if address = 0x80000000 then 0x10001
  else if address = 0x80000008 then 0x06040000
  else if address = 0x8000000c then 0
  else if address = 0x80000018 then 0x100
  else if address = 0x80010000 then 0x10001
  else 0xffffffff

theorem not_multifunction_bridged : ¬Multifunction bridged 0 0 := by decide

theorem controllers_bridged : controllers bridged = [0] := by
  rw [controllers, if_neg not_multifunction_bridged]

theorem leadsTo_bridged : LeadsTo bridged ⟨0, 0, 0⟩ 1 := ⟨by decide, by decide, by decide, by decide⟩

/-- The only bridge is on bus 0. -/
theorem bus_of_leadsTo_bridged {addr : PciAddress} {bus : Nat} (h : LeadsTo bridged addr bus) :
    addr.bus = 0 := by
  obtain ⟨hp, htype, -⟩ := h
  by_contra hne
  -- the class of every function elsewhere reads as ones
  have hdword : ∀ field, field &&& 0xfc = 8 → bridged (addr.getAddress field) = 0xffffffff := by
    intro field hfield
    rw [getAddress_eq hp.1, hfield, bridged]
    iterate 5 rw [if_neg (by omega)]
  rw [getType, readByte, readByte, hdword _ rfl, hdword _ rfl] at htype
  exact absurd htype (by decide)

theorem acyclic_bridged : Acyclic bridged :=
  ⟨id, fun addr bus h => by rw [bus_of_leadsTo_bridged h]; exact Nat.pos_of_ne_zero h.2.2.2⟩

/-- The device behind the bridge is not reported. -/
theorem not_complete_bridged : Acyclic bridged ∧ ∀ fuel, ∃ infos,
    scanHardware bridged (fuel + 1) = some infos ∧ ¬Complete bridged infos := by
  refine ⟨acyclic_bridged, fun fuel => ⟨_, scanHardware_eq, fun hc => ?_⟩⟩
  have hr : Reachable bridged 1 := .bridge (.host (by
    rw [HostBus, if_neg not_multifunction_bridged])) leadsTo_bridged
  have hmem := (hc.2.2 ⟨1, 0, 0⟩).mpr ⟨by decide, hr⟩
  obtain ⟨i, hi, heq⟩ := List.mem_map.mp hmem
  obtain ⟨addr, haddr, rfl⟩ := List.mem_map.mp hi
  rw [controllers_bridged, List.flatMap_singleton] at haddr
  have hbus := (mem_functions.mp haddr).1
  rw [show addr = ⟨1, 0, 0⟩ from heq] at hbus
  cases hbus

end Pci
end Coronel
