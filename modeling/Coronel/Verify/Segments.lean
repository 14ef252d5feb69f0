import Coronel.Kernel.Segments

/-!
# Descriptors

What the processor reads in the descriptors. `fields_hi` of the task state segment lies over
`fields_lo`, so the last of its writes clears the type; the table has no entry for the vector of the
system calls, so its gate is stored behind the table.
-/

namespace Coronel

open Theory Theory.Bytes

/-! ### The task state segment -/

/-- A system descriptor of long mode. -/
structure SystemDescriptor where
  limit : Nat
  base : Nat
  type : Nat
  dpl : Nat
  present : Nat
deriving DecidableEq, Repr

/-- The descriptor in two entries. -/
def SystemDescriptor.decode (lo hi : Nat) : SystemDescriptor where
  limit := (⟨0, 16⟩ : BitField).get lo + 2 ^ 16 * (⟨48, 4⟩ : BitField).get lo
  base := (⟨16, 24⟩ : BitField).get lo + 2 ^ 24 * (⟨56, 8⟩ : BitField).get lo +
    2 ^ 32 * (⟨0, 32⟩ : BitField).get hi
  type := (⟨40, 4⟩ : BitField).get lo
  dpl := (⟨45, 2⟩ : BitField).get lo
  present := (⟨47, 1⟩ : BitField).get lo

namespace GdtTssEntry

variable {gEntries : GdtEntries} {tss : GdtTssEntry} {addr : Nat}

/-- The high word is not written. -/
theorem setGate_ulong1 : (tss.setGate addr).ulong1 = tss.ulong1 := rfl

/-- What the fields of the low word hold in the end: the type is cleared, and bits 16 to 31 are those
of the address from 48 up. -/
theorem setGate_fields :
    (⟨0, 16⟩ : BitField).get (tss.setGate addr).ulong0 = 0xffff ∧
    (⟨16, 16⟩ : BitField).get (tss.setGate addr).ulong0 = (⟨48, 16⟩ : BitField).get addr ∧
    (⟨32, 8⟩ : BitField).get (tss.setGate addr).ulong0 = (⟨16, 8⟩ : BitField).get addr ∧
    (⟨40, 4⟩ : BitField).get (tss.setGate addr).ulong0 = 0 ∧
    (⟨45, 2⟩ : BitField).get (tss.setGate addr).ulong0 = 3 ∧
    (⟨47, 1⟩ : BitField).get (tss.setGate addr).ulong0 = 1 ∧
    (⟨48, 4⟩ : BitField).get (tss.setGate addr).ulong0 = 0xf ∧
    (⟨56, 8⟩ : BitField).get (tss.setGate addr).ulong0 = (⟨24, 8⟩ : BitField).get addr := by
  have h24 : addr &&& 0xffffff = addr % 2 ^ 24 := Nat.and_two_pow_sub_one_eq_mod addr 24
  have h8 : (addr >>> 24) &&& 0xff = (addr >>> 24) % 2 ^ 8 :=
    Nat.and_two_pow_sub_one_eq_mod (addr >>> 24) 8
  simp only [setGate, setLo, setHi, FieldLo.bits, FieldHi.bits, h24, h8]
  refine ⟨?_, ?_, ?_, ?_, ?_, ?_, ?_, ?_⟩ <;>
    simp (disch := decide) only [BitField.get_set_of_apart, BitField.get_set_of_within,
      BitField.get_mod, BitField.get_shiftRight]
  all_goals rfl

/-- The descriptor is not available, and its base is mixed up. -/
theorem setGate_decode : SystemDescriptor.decode (tss.setGate addr).ulong0 (tss.setGate addr).ulong1 =
    { limit := 0xfffff
      base := (⟨48, 16⟩ : BitField).get addr + 2 ^ 16 * (⟨16, 16⟩ : BitField).get addr +
        2 ^ 32 * (⟨0, 32⟩ : BitField).get tss.ulong1
      type := 0
      dpl := 3
      present := 1 } := by
  obtain ⟨h1, h2, h3, h4, h5, h6, h7, h8⟩ := @setGate_fields tss addr
  have hlow : (⟨16, 24⟩ : BitField).get (tss.setGate addr).ulong0 =
      (⟨48, 16⟩ : BitField).get addr + 2 ^ 16 * (⟨16, 8⟩ : BitField).get addr := by
    rw [← h2, ← h3]
    exact (BitField.get_append (o := 16) (i := 16) (n := 8)).symm
  have hhigh : (⟨16, 16⟩ : BitField).get addr =
      (⟨16, 8⟩ : BitField).get addr + 2 ^ 8 * (⟨24, 8⟩ : BitField).get addr :=
    (BitField.get_append (o := 16) (i := 8) (n := 8)).symm
  rw [SystemDescriptor.decode, h1, h4, h5, h6, h7, h8, hlow, setGate_ulong1, hhigh]
  congr 1
  omega

end GdtTssEntry

section
variable {gEntries : GdtEntries} {addr : Nat}

/-- What `tss_set_gate` is for. -/
def TssDescribed (gEntries : GdtEntries) (addr : Nat) : Prop :=
  SystemDescriptor.decode (gEntries 5) (gEntries 6) =
    { limit := 0xfffff, base := addr, type := 0x9, dpl := 3, present := 1 }

instance (gEntries : GdtEntries) (addr : Nat) : Decidable (TssDescribed gEntries addr) :=
  inferInstanceAs (Decidable (_ = _))

theorem tssSetGate_five : tssSetGate gEntries addr 5 =
    ((GdtTssEntry.mk (gEntries 5) (gEntries 6)).setGate addr).ulong0 := by
  rw [tssSetGate, Function.update_of_ne (by decide), Function.update_self]

theorem tssSetGate_six : tssSetGate gEntries addr 6 =
    ((GdtTssEntry.mk (gEntries 5) (gEntries 6)).setGate addr).ulong1 := by
  rw [tssSetGate, Function.update_self]

/-- **The task state segment is not described**, whatever its address and the entries before: the
type is 0. -/
theorem not_tssDescribed (gEntries : GdtEntries) (addr : Nat) :
    ¬TssDescribed (tssSetGate gEntries addr) addr := by
  intro h
  rw [TssDescribed, tssSetGate_five, tssSetGate_six, GdtTssEntry.setGate_decode] at h
  exact absurd (SystemDescriptor.mk.inj h).2.2.1 (by decide)

/-- A segment at 0x1000, with the entries cleared. -/
theorem not_tssDescribed_page : ¬∀ gEntries addr, addr < 2 ^ 64 →
    TssDescribed (tssSetGate gEntries addr) addr :=
  fun h => absurd (h (fun _ => 0) 0x1000 (by omega)) (by decide)

end

/-! ### The interrupt table -/

/-- A gate of long mode. -/
structure GateDescriptor where
  offset : Nat
  selector : Nat
  ist : Nat
  type : Nat
  zero : Nat
  dpl : Nat
  present : Nat
deriving DecidableEq, Repr

/-- The gate in an entry of 16 bytes. -/
def GateDescriptor.decode (w : Nat) : GateDescriptor where
  offset := (⟨0, 16⟩ : BitField).get w + 2 ^ 16 * (⟨48, 16⟩ : BitField).get w +
    2 ^ 32 * (⟨64, 32⟩ : BitField).get w
  selector := (⟨16, 16⟩ : BitField).get w
  ist := (⟨32, 3⟩ : BitField).get w
  type := (⟨40, 4⟩ : BitField).get w
  zero := (⟨44, 1⟩ : BitField).get w
  dpl := (⟨45, 2⟩ : BitField).get w
  present := (⟨47, 1⟩ : BitField).get w

/-- A present interrupt gate to `function`. -/
def GateDescriptor.interrupt (function : UInt64) (dpl : Nat) : GateDescriptor :=
  { offset := function.toNat, selector := 0x8, ist := 0, type := 0xe, zero := 0, dpl, present := 1 }

theorem IdtField.bits_le (f : IdtField) : f.bits.off + f.bits.len ≤ 128 := by
  cases f <;> decide

namespace Idt

/-- The entry that the processor reads for a vector, if it is within the limit. -/
def lookup (s : Idt) (vector : UInt8) : Option Nat :=
  if 16 * vector.toNat + 15 ≤ s.idtr.limit then
    some (load s.mem 16 (s.idtr.base + 16 * vector.toNat))
  else none

/-- The processor finds a gate to `function`. -/
def Reaches (s : Idt) (vector : UInt8) (function : UInt64) (dpl : Nat) : Prop :=
  ∃ w, s.lookup vector = some w ∧ GateDescriptor.decode w = .interrupt function dpl

/-- The entry of a gate in the table at `entries`. -/
def entry (s : Idt) (entries gate : Nat) : Nat :=
  load s.mem sizeofIdtEntry (entries + sizeofIdtEntry * gate)

section
variable {s : Idt} {entries gate gate' value dpl a iEntries : Nat} {f : IdtField} {g g' v : UInt8}
  {function : UInt64} {handlers : Handlers}

/-! #### One field -/

theorem entry_lt : s.entry entries gate < 2 ^ 128 := load_lt

theorem entry_setField :
    (s.setField entries gate f value).entry entries gate = f.bits.set (s.entry entries gate) value :=
  load_store_of_lt (BitField.set_lt f.bits_le entry_lt)

/-- Two entries do not overlap. -/
theorem entry_setField_of_ne (h : gate' ≠ gate) :
    (s.setField entries gate f value).entry entries gate' = s.entry entries gate' := by
  apply load_store_disjoint
  unfold sizeofIdtEntry
  omega

/-- A byte that was stored to. -/
def Stored (s : Idt) (a : Nat) : Prop := ∃ r ∈ s.stores, a ∈ r

theorem stored_setField : (s.setField entries gate f value).Stored a ↔
    (entries + 16 * gate + f.bits.off / 8 ≤ a ∧
      a < entries + 16 * gate + f.bits.off / 8 + (f.bits.off % 8 + f.bits.len + 7) / 8) ∨
    s.Stored a := by
  constructor
  · rintro ⟨r, hr, ha⟩
    rcases List.mem_cons.mp hr with rfl | hr
    · exact .inl ha
    · exact .inr ⟨r, hr, ha⟩
  · rintro (ha | ⟨r, hr, ha⟩)
    · exact ⟨_, List.mem_cons_self, ha⟩
    · exact ⟨r, List.mem_cons_of_mem _ hr, ha⟩

/-! #### One gate -/

/-- The fields of a gate put the address of its function together. -/
theorem decode_addGate :
    GateDescriptor.decode ((s.addGate dpl entries g function).entry entries g.toNat) =
      .interrupt function (dpl % 2 ^ 2) := by
  have h16 : function.toNat &&& 0xffff = function.toNat % 2 ^ 16 :=
    Nat.and_two_pow_sub_one_eq_mod function.toNat 16
  have h48 : (function.toNat >>> 16) &&& 0xffffffffffff = (function.toNat >>> 16) % 2 ^ 48 :=
    Nat.and_two_pow_sub_one_eq_mod (function.toNat >>> 16) 48
  have hlow : (⟨0, 16⟩ : BitField).get function.toNat +
      2 ^ 16 * (⟨16, 16⟩ : BitField).get function.toNat = (⟨0, 32⟩ : BitField).get function.toNat :=
    BitField.get_append (o := 0) (i := 16) (n := 16)
  have hall : (⟨0, 32⟩ : BitField).get function.toNat +
      2 ^ 32 * (⟨32, 32⟩ : BitField).get function.toNat = (⟨0, 64⟩ : BitField).get function.toNat :=
    BitField.get_append (o := 0) (i := 32) (n := 32)
  simp only [addGate, entry_setField, IdtField.bits, h16, h48, GateDescriptor.decode]
  simp (disch := decide) only [BitField.get_set_of_apart, BitField.get_set_of_within,
    BitField.get_mod, BitField.get_shiftRight]
  rw [GateDescriptor.interrupt, GateDescriptor.mk.injEq]
  refine ⟨?_, rfl, rfl, rfl, rfl, rfl, rfl⟩
  rw [BitField.get_zero_of_lt function.toNat_lt, ← hlow] at hall
  exact hall

theorem entry_addGate_of_ne (h : gate ≠ g.toNat) :
    (s.addGate dpl entries g function).entry entries gate = s.entry entries gate := by
  simp only [addGate, entry_setField_of_ne h]

theorem idtr_addGate : (s.addGate dpl entries g function).idtr = s.idtr := rfl

/-- A gate stores to its own entry. -/
theorem stored_addGate : (s.addGate dpl entries g function).Stored a ↔
    a ∈ (⟨entries + 16 * g.toNat, 16⟩ : Span) ∨ s.Stored a := by
  simp only [addGate, stored_setField, IdtField.bits, Span.mem_mk]
  by_cases h : s.Stored a
  · simp only [h, or_true]
  · simp only [h, or_false]
    omega

/-! #### All gates -/

/-- `idt_add_gate` for each vector of a list. -/
def addGates (handlers : Handlers) (entries : Nat) (s : Idt) (gates : List UInt8) : Idt :=
  gates.foldl (fun s gate => s.idtAddGate entries gate (handlers gate)) s

/-- A later gate keeps the earlier ones. -/
theorem decode_addGates {gates : List UInt8} (h : v ∈ gates ∨
      GateDescriptor.decode (s.entry entries v.toNat) = .interrupt (handlers v) 0) :
    GateDescriptor.decode ((s.addGates handlers entries gates).entry entries v.toNat) =
      .interrupt (handlers v) 0 := by
  induction gates generalizing s with
  | nil => exact h.resolve_left List.not_mem_nil
  | cons g gates ih =>
    refine ih ?_
    by_cases hv : v = g
    · subst hv
      exact .inr decode_addGate
    · refine h.imp (fun h => (List.mem_cons.mp h).resolve_left hv) fun h => ?_
      rwa [idtAddGate, entry_addGate_of_ne (mt UInt8.toNat_inj.mp hv)]

theorem idtr_addGates {gates : List UInt8} : (s.addGates handlers entries gates).idtr = s.idtr := by
  induction gates generalizing s with
  | nil => rfl
  | cons g gates ih => exact ih

theorem stored_addGates {gates : List UInt8} : (s.addGates handlers entries gates).Stored a ↔
    (∃ g ∈ gates, a ∈ (⟨entries + 16 * g.toNat, 16⟩ : Span)) ∨ s.Stored a := by
  induction gates generalizing s with
  | nil => simp [addGates]
  | cons g gates ih =>
    have h : (s.addGates handlers entries (g :: gates)).Stored a ↔ _ := ih
    rw [h, idtAddGate, stored_addGate, List.exists_mem_cons_iff, or_assoc, or_left_comm]

end
end Idt

/-! ### The whole setup -/

/-- The vectors that `idt_setup` installs. -/
def installed : List UInt8 := kernelVectors ++ [0x80]

/-- `i_entries` -/
def idtTable (iEntries : Nat) : Span := ⟨iEntries, sizeofIdtEntry * longModeIdtGates⟩

/-- What `idt_setup` is for. -/
def IdtCorrect (handlers : Handlers) (iEntries : Nat) (s : Idt) : Prop :=
  (∀ v ∈ installed, s.Reaches v (handlers v) (if v = 0x80 then 3 else 0)) ∧
    ∀ a, s.Stored a → a ∈ idtTable iEntries

section
variable {mem : Mem} {iEntries a : Nat} {handlers : Handlers} {v : UInt8}

theorem mem_kernelVectors : v ∈ kernelVectors ↔ v.toNat < 48 := by
  constructor
  · intro h
    obtain ⟨n, hn, rfl⟩ := List.mem_map.mp h
    exact (Nat.mod_le n _).trans_lt (List.mem_range.mp hn)
  · exact fun h => List.mem_map.mpr ⟨v.toNat, List.mem_range.mpr h, UInt8.ofNat_toNat⟩

theorem idtSetup_eq : idtSetup handlers iEntries mem =
    ((Idt.mk mem ⟨1023, iEntries⟩ []).addGates handlers iEntries kernelVectors).addGate 3 iEntries
      0x80 (handlers 0x80) := rfl

theorem idtr_idtSetup : (idtSetup handlers iEntries mem).idtr = ⟨1023, iEntries⟩ := by
  rw [idtSetup_eq, Idt.idtr_addGate, Idt.idtr_addGates]

/-- Every gate is stored, at the place of its vector. -/
theorem decode_idtSetup (h : v ∈ installed) :
    GateDescriptor.decode ((idtSetup handlers iEntries mem).entry iEntries v.toNat) =
      .interrupt (handlers v) (if v = 0x80 then 3 else 0) := by
  rw [idtSetup_eq]
  by_cases hv : v = 0x80
  · subst hv
    exact Idt.decode_addGate
  · rw [Idt.entry_addGate_of_ne (mt UInt8.toNat_inj.mp hv), if_neg hv]
    apply Idt.decode_addGates
    exact .inl ((List.mem_append.mp h).resolve_right (mt List.mem_singleton.mp hv))

/-- The processor looks as far as the limit. -/
theorem reaches_iff (h : v ∈ installed) : (idtSetup handlers iEntries mem).Reaches v (handlers v)
    (if v = 0x80 then 3 else 0) ↔ v.toNat < longModeIdtGates := by
  have hdecode := @decode_idtSetup mem iEntries handlers v h
  rw [Idt.Reaches, Idt.lookup, idtr_idtSetup, longModeIdtGates]
  dsimp only
  by_cases hv : 16 * v.toNat + 15 ≤ 1023
  · rw [if_pos hv]
    exact ⟨fun _ => by omega, fun _ => ⟨_, rfl, hdecode⟩⟩
  · rw [if_neg hv]
    refine ⟨?_, fun _ => by omega⟩
    rintro ⟨w, hw, -⟩
    cases hw

/-- `idt_setup` stores to the places of the vectors. -/
theorem stored_idtSetup : (idtSetup handlers iEntries mem).Stored a ↔
    ∃ v ∈ installed, a ∈ (⟨iEntries + 16 * v.toNat, 16⟩ : Span) := by
  have hnone : ¬(Idt.mk mem ⟨1023, iEntries⟩ []).Stored a := by
    rintro ⟨r, hr, -⟩
    cases hr
  rw [idtSetup_eq, Idt.stored_addGate, Idt.stored_addGates, or_iff_left hnone, or_comm, installed]
  constructor
  · rintro (⟨v, hv, ha⟩ | ha)
    · exact ⟨v, List.mem_append_left _ hv, ha⟩
    · exact ⟨0x80, List.mem_append_right _ List.mem_cons_self, ha⟩
  · rintro ⟨v, hv, ha⟩
    rcases List.mem_append.mp hv with hv | hv
    · exact .inl ⟨v, hv, ha⟩
    · rw [List.mem_singleton.mp hv] at ha
      exact .inr ha

theorem toNat_syscall : (0x80 : UInt8).toNat = 128 := rfl

/-- The table has an entry for the vectors but that of the system calls. -/
theorem lt_of_mem_installed (h : v ∈ installed) (hv : v ≠ 0x80) : v.toNat < 48 :=
  mem_kernelVectors.mp ((List.mem_append.mp h).resolve_right (mt List.mem_singleton.mp hv))

theorem syscall_mem_installed : (0x80 : UInt8) ∈ installed :=
  List.mem_append_right _ List.mem_cons_self

/-- **The interrupt table**: each vector that `idt_setup` installs reaches its handler if and only if
the table has an entry for it. The vector of the system calls has none, and its gate is stored
outside the table. -/
theorem idtSetup_reaches (handlers : Handlers) (iEntries : Nat) (mem : Mem) :
    (∀ v ∈ installed, (idtSetup handlers iEntries mem).Reaches v (handlers v)
      (if v = 0x80 then 3 else 0) ↔ v ≠ 0x80) ∧
    (∀ a, (idtSetup handlers iEntries mem).Stored a ∧ a ∉ idtTable iEntries ↔
      a ∈ (⟨iEntries + 0x800, 16⟩ : Span)) ∧
    ¬IdtCorrect handlers iEntries (idtSetup handlers iEntries mem) := by
  have houtside : ∀ a, (idtSetup handlers iEntries mem).Stored a ∧ a ∉ idtTable iEntries ↔
      a ∈ (⟨iEntries + 0x800, 16⟩ : Span) := by
    intro a
    rw [stored_idtSetup, idtTable, sizeofIdtEntry, longModeIdtGates, Span.mem_mk, Span.mem_mk]
    constructor
    · rintro ⟨⟨v, hv, ha⟩, hout⟩
      rw [Span.mem_mk] at ha
      by_cases h80 : v = 0x80
      · subst h80
        rw [toNat_syscall] at ha
        omega
      · have hlt := lt_of_mem_installed hv h80
        omega
    · rintro ⟨h1, h2⟩
      refine ⟨⟨0x80, syscall_mem_installed, ?_⟩, by omega⟩
      rw [toNat_syscall, Span.mem_mk]
      omega
  refine ⟨fun v hv => ?_, houtside, fun h => ?_⟩
  · rw [reaches_iff hv, longModeIdtGates]
    constructor
    · rintro hlt rfl
      exact absurd hlt (by decide)
    · intro h80
      have hlt := lt_of_mem_installed hv h80
      omega
  · have hreach := (reaches_iff syscall_mem_installed).mp (h.1 0x80 syscall_mem_installed)
    exact absurd hreach (by decide)

/-- The first byte of the gate of the system calls lies outside the table. -/
theorem not_idtSetup_correct : ¬∀ handlers iEntries mem,
    IdtCorrect handlers iEntries (idtSetup handlers iEntries mem) := by
  intro h
  obtain ⟨-, hstores⟩ := h (fun _ => 0xffff800000100000) 0x1000 (fun _ => 0)
  have hin := hstores 0x1800 (stored_idtSetup.mpr ⟨0x80, syscall_mem_installed, by
    rw [toNat_syscall, Span.mem_mk]
    omega⟩)
  rw [idtTable, sizeofIdtEntry, longModeIdtGates, Span.mem_mk] at hin
  omega

end

end Coronel
