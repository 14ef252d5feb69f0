import Coronel.Theory.Recursion
import Coronel.Verify.Pci

/-!
# The recursion of the scan

A scan for bridges goes on behind every function of a bus, bridge or not, whose byte 0x19 is not 0,
and keeps no record of the buses that are open.
-/

namespace Coronel

open Theory Relation

namespace Pci

/-- A function of bus `bus` names bus `bus'` as the one behind it. -/
def Names (config : ConfigSpace) (bus bus' : UInt8) : Prop :=
  ∃ addr, Present config addr ∧ addr.bus = bus.toNat ∧
    readByte config addr pciSecondaryBus = bus'.toNat ∧ bus' ≠ 0

/-- `scan_bus` ends, with enough stack. -/
def Ends (config : ConfigSpace) (type : Int) (bus : UInt8) : Prop :=
  ∃ fuel, (scanBus config fuel type bus.toNat).isSome

section
variable {config : ConfigSpace} {scan : Nat → Option (List PciInfo)} {type : Int}
  {bus slot n fuel function : Nat} {addr : PciAddress}

/-! ### One bus -/

/-- The scan returns from what it opens behind a function. -/
def Returns (config : ConfigSpace) (scan : Nat → Option (List PciInfo)) (type : Int)
    (addr : PciAddress) : Prop :=
  type = pciTypeBridge → readByte config addr pciSecondaryBus ≠ 0 →
    (scan (readByte config addr pciSecondaryBus)).isSome

theorem isSome_append {α : Type} (x y : Option (List α)) :
    (do return (← x) ++ (← y) : Option (List α)).isSome ↔ x.isSome ∧ y.isSome := by
  cases x with
  | none => simp
  | some x => cases y <;> simp

theorem scanFunction_isSome : (scanFunction config scan type bus slot function).isSome ↔
    Returns config scan type ⟨bus, slot, function⟩ := by
  rw [scanFunction, Returns]
  by_cases htype : type = pciTypeBridge
  · by_cases hsec : readByte config ⟨bus, slot, function⟩ pciSecondaryBus = 0
    · simp [htype, hsec]
    · cases h : scan (readByte config ⟨bus, slot, function⟩ pciSecondaryBus) <;>
        simp [htype, hsec, h]
  · simp [htype]

variable (config scan type bus slot function) in
/-- The first function of the loop, if it answers. -/
def firstFunction : Option (List PciInfo) :=
  if readWord config ⟨bus, slot, function⟩ pciVendorId ≠ pciNone then
    scanFunction config scan type bus slot function
  else some []

theorem scanFunctions_succ : scanFunctions config scan type bus slot (n + 1) function = do
    return (← firstFunction config scan type bus slot function) ++
      (← scanFunctions config scan type bus slot n (function + 1)) := by
  rw [scanFunctions, firstFunction]
  split <;> rfl

theorem scanFunctions_isSome : (scanFunctions config scan type bus slot n function).isSome ↔
    ∀ f, function ≤ f → f < function + n →
      readWord config ⟨bus, slot, f⟩ pciVendorId ≠ pciNone →
      Returns config scan type ⟨bus, slot, f⟩ := by
  induction n generalizing function with
  | zero => exact ⟨fun _ f h1 h2 => by omega, fun _ => rfl⟩
  | succ n ih =>
    have hfirst : (firstFunction config scan type bus slot function).isSome ↔
        (readWord config ⟨bus, slot, function⟩ pciVendorId ≠ pciNone →
          Returns config scan type ⟨bus, slot, function⟩) := by
      rw [← scanFunction_isSome, firstFunction]
      split
      next h => exact ⟨fun h1 _ => h1, fun h1 => h1 h⟩
      next h => exact ⟨fun _ h1 => absurd h1 h, fun _ => rfl⟩
    rw [scanFunctions_succ, isSome_append, hfirst, ih]
    constructor
    · rintro ⟨h0, h⟩ f h1 h2
      by_cases hf : f = function
      · subst hf
        exact h0
      · exact h f (by omega) (by omega)
    · exact fun h => ⟨h function (by omega) (by omega), fun f h1 h2 => h f (by omega) (by omega)⟩

theorem scanSlot_isSome (hbus : bus < 2 ^ 8) (hslot : slot < maxPciSlots) :
    (scanSlot config scan type bus slot).isSome ↔
      ∀ f, Present config ⟨bus, slot, f⟩ → Returns config scan type ⟨bus, slot, f⟩ := by
  rw [scanSlot]
  by_cases h0 : readWord config ⟨bus, slot, 0⟩ pciVendorId = pciNone
  · rw [if_pos h0]
    exact ⟨fun _ f hp => absurd h0 hp.2.1, fun _ => rfl⟩
  rw [if_neg h0]
  have hfirst : Present config ⟨bus, slot, 0⟩ := ⟨⟨hbus, hslot, Nat.zero_lt_succ 7⟩, h0, .inl rfl⟩
  by_cases hm : readByte config ⟨bus, slot, 0⟩ pciHeaderType &&& 0x80 = 0
  · -- the device has one function
    have honly : ∀ f, Present config ⟨bus, slot, f⟩ → f = 0 := fun f hp =>
      hp.2.2.resolve_right fun h => h.1 hm
    simp only [hm, if_true]
    rw [bind_pure, scanFunction_isSome]
    constructor
    · intro h f hp
      rw [honly f hp]
      exact h
    · exact fun h => h 0 hfirst
  · simp only [hm, if_false]
    rw [isSome_append, scanFunction_isSome, scanFunctions_isSome]
    constructor
    · rintro ⟨h1, h2⟩ f hp
      by_cases hf : f = 0
      · rw [hf]
        exact h1
      · have h8 := hp.1.2.2
        exact h2 f (by omega) (by simp only at h8; omega) (hp.2.2.resolve_left hf).2
    · refine fun h => ⟨h 0 hfirst, fun f h1 h2 hv => h f ⟨⟨hbus, hslot, ?_⟩, h0, .inr ⟨hm, hv⟩⟩⟩
      simp only
      omega

theorem scanSlots_isSome (hbus : bus < 2 ^ 8) (h : slot + n ≤ maxPciSlots) :
    (scanSlots config scan type bus n slot).isSome ↔
      ∀ sl f, slot ≤ sl → sl < slot + n → Present config ⟨bus, sl, f⟩ →
        Returns config scan type ⟨bus, sl, f⟩ := by
  induction n generalizing slot with
  | zero => exact ⟨fun _ sl f h1 h2 => by omega, fun _ => rfl⟩
  | succ n ih =>
    rw [scanSlots, isSome_append, scanSlot_isSome hbus (by omega), ih (by omega)]
    constructor
    · rintro ⟨h0, h⟩ sl f h1 h2
      by_cases hf : sl = slot
      · subst hf
        exact h0 f
      · exact h sl f (by omega) (by omega)
    · exact fun h => ⟨fun f => h slot f (by omega) (by omega),
        fun sl f h1 h2 => h sl f (by omega) (by omega)⟩

/-- A bus is scanned when the buses behind its functions are. -/
theorem scanBus_isSome (hbus : bus < 2 ^ 8) : (scanBus config (fuel + 1) type bus).isSome ↔
    ∀ addr, addr.bus = bus → Present config addr → Returns config (scanBus config fuel type) type addr := by
  rw [scanBus, scanSlots_isSome hbus (by simp)]
  constructor
  · rintro h ⟨b, sl, f⟩ rfl hp
    exact h sl f (Nat.zero_le _) (by simpa using hp.1.2.1) hp
  · exact fun h sl f _ _ hp => h ⟨bus, sl, f⟩ rfl hp

/-! ### All buses -/

theorem readByte_lt {field : Nat} : readByte config addr field < 2 ^ 8 := Nat.mod_lt _ (by decide)

instance finiteUInt8 : Finite UInt8 := Finite.of_injective UInt8.toFin fun _ _ => UInt8.toFin_inj.mp

/-- The scan calls itself for the buses that the functions name, when it is for bridges. -/
theorem fueled_scanBus (config : ConfigSpace) (type : Int) :
    Fueled (fun bus bus' => type = pciTypeBridge ∧ Names config bus bus')
      fun fuel bus => (scanBus config fuel type bus.toNat).isSome where
  zero _ h := by cases h
  succ fuel bus := by
    rw [scanBus_isSome bus.toNat_lt]
    constructor
    · rintro h bus' ⟨htype, addr, hp, hbus, hsec, hne⟩
      have := h addr hbus hp htype
      rw [hsec] at this
      exact this fun h0 => hne (UInt8.toNat_inj.mp (h0.trans UInt8.toNat_zero.symm))
    · intro h addr hbus hp htype hsec
      have hlt := @readByte_lt config addr pciSecondaryBus
      obtain ⟨bus', hbus'⟩ : ∃ bus' : UInt8, readByte config addr pciSecondaryBus = bus'.toNat :=
        ⟨.ofNat (readByte config addr pciSecondaryBus), (UInt8.toNat_ofNat_of_lt' hlt).symm⟩
      rw [hbus'] at hsec ⊢
      refine h bus' ⟨htype, addr, hp, hbus, hbus', ?_⟩
      rintro rfl
      exact hsec rfl

/-- **Termination.** A scan ends if and only if it is not for bridges, or no bus that it leads to
leads back to itself over the buses that functions name. -/
theorem ends_iff (config : ConfigSpace) (type : Int) (bus : UInt8) : Ends config type bus ↔
    type ≠ pciTypeBridge ∨
      ∀ b, ReflTransGen (Names config) bus b → ¬TransGen (Names config) b b := by
  rw [Ends, (fueled_scanBus config type).exists_iff]
  by_cases htype : type = pciTypeBridge
  · have hrel : (fun bus bus' => type = pciTypeBridge ∧ Names config bus bus') = Names config := by
      funext bus bus'
      exact propext (and_iff_right htype)
    rw [hrel]
    exact (or_iff_right (not_not.mpr htype)).symm
  · refine ⟨fun _ => .inl htype, fun _ b _ hcycle => ?_⟩
    obtain ⟨c, hc, -⟩ := TransGen.head'_iff.mp hcycle
    exact htype hc.1

/-- Every function is a disk controller, whose registers name bus 1. -/
def looped : ConfigSpace := fun _ => 0x01010101

theorem names_looped : Names looped 1 1 := ⟨⟨1, 0, 0⟩, by decide, rfl, by decide, by decide⟩

theorem getType_looped (addr : PciAddress) : getType looped addr = 0x0101 := by
  simp only [getType, readByte, looped]
  rfl

/-- A scan for bridges on bus 1 does not end there, although there is no bridge. -/
theorem not_ends_looped : (∀ addr, (getType looped addr : Int) ≠ pciTypeBridge) ∧
    ¬∀ config type bus, Ends config type bus := by
  refine ⟨fun addr => by rw [getType_looped]; decide, fun h => ?_⟩
  obtain ⟨fuel, hfuel⟩ := h looped pciTypeBridge 1
  have hacc := (fueled_scanBus looped pciTypeBridge).acc hfuel
  exact acc_iff_no_cycle.mp hacc 1 .refl (.single ⟨rfl, names_looped⟩)

end
end Pci
end Coronel
