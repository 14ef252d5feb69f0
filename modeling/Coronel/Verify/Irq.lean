import Coronel.Kernel.Irq
import Coronel.Verify.Keyboard
import Mathlib.Logic.Relation

/-!
# Interrupts are served

The board in motion: lines rise and fall, keys are typed, the processor takes vectors, handlers act,
exceptions cut in, in any order. `Sound`: what is in service has its end of interrupt still to come,
so that between handlers nothing is in service and a request that is there is also seen
(`Run.responsive`), and the edges of a line are those served, withdrawn and pending. `Ticking` and
`Keyed` follow the two devices that have a handler.
-/

namespace Coronel

/-! ### One controller -/

namespace Pic

variable {p : Pic} {i : Fin 8}

theorem request_eq_some : p.request = some i ↔ p.Eligible i ∧ ∀ j < i, ¬p.Eligible j := by
  simp [request]

theorem request_eq_none : p.request = none ↔ ∀ i, ¬p.Eligible i := by
  simp [request]

theorem eligible_of_isr (h : p.isr = ∅) : p.Eligible i ↔ i ∈ p.irr ∧ i ∉ p.imr := by
  simp [Eligible, h]

/-- Behind what is in service after INTA there is no higher request. -/
theorem request_acknowledge (p : Pic) : p.acknowledge.request = none := by
  cases h : p.request with
  | none => rwa [acknowledge, h]
  | some i =>
    obtain ⟨he, hmin⟩ := request_eq_some.mp h
    rw [acknowledge, h, request_eq_none]
    rintro j ⟨hj, hm, hall⟩
    have hji : j < i := hall i (Finset.mem_insert_self _ _)
    exact hmin j hji ⟨Finset.mem_of_mem_erase hj, hm,
      fun k hk => hall k (Finset.mem_insert_of_mem hk)⟩

/-- The end of interrupt, when one line at most is in service. -/
theorem isr_eoi (h : ∀ i ∈ p.isr, ∀ j ∈ p.isr, i = j) : p.eoi.isr = ∅ := by
  cases hs : p.inService with
  | none =>
    rw [eoi, hs]
    simp only [inService, Fin.find?_eq_none_iff, decide_eq_false_iff_not] at hs
    exact Finset.eq_empty_of_forall_notMem hs
  | some i =>
    rw [eoi, hs]
    simp only [inService, Fin.find?_eq_some_iff, decide_eq_true_eq] at hs
    refine Finset.eq_empty_of_forall_notMem fun j hj => ?_
    exact Finset.ne_of_mem_erase hj (h j (Finset.mem_of_mem_erase hj) i hs.1)

theorem eoi_eq (p : Pic) : p.eoi = { p with isr := p.eoi.isr } := by
  rw [eoi]
  split <;> rfl

theorem isr_acknowledge_eq (h : p.isr = ∅) : ∀ i ∈ p.acknowledge.isr, ∀ j ∈ p.acknowledge.isr,
    i = j := by
  cases hr : p.request with
  | none =>
    rw [acknowledge, hr]
    simp [h]
  | some i =>
    rw [acknowledge, hr]
    simp [h]

end Pic

/-! ### Two controllers -/

namespace Pics

variable {p : Pics} {s : Pic} {n m : Line}

/-- The line of the slave follows its requests. -/
def Wired (p : Pics) : Prop := slaveLine ∈ p.master.irr ↔ p.slave.request.isSome

theorem wired_iff : p.Wired ↔ (2 ∈ p.master.irr ↔ p.slave.request.isSome) := Iff.rfl

theorem Wired.withSlave (h : p.Wired) (s : Pic) : (p.withSlave s).Wired := by
  rw [wired_iff] at h
  rw [wired_iff, Pics.withSlave]
  cases hp : p.slave.request.isSome <;> cases hs : s.request.isSome <;> simp_all

/-- Nothing of the master but line 2 hangs on the slave. -/
theorem master_withSlave (p : Pics) (s : Pic) : ∃ irr,
    (p.withSlave s).master = { p.master with irr } ∧ ∀ i, i ≠ 2 → (i ∈ irr ↔ i ∈ p.master.irr) := by
  rw [withSlave]
  split
  · exact ⟨_, rfl, fun i hi => by simp [hi]⟩
  · exact ⟨_, rfl, fun i hi => by simp [hi]⟩
  · exact ⟨_, rfl, fun i _ => Iff.rfl⟩

/-- As `irq_remap` leaves them: the vectors from 0x20 on, the slave on line 2, no line masked. -/
structure Remapped (p : Pics) : Prop where
  stage : p.master.stage = .ready ∧ p.slave.stage = .ready
  base : p.master.base = 0x20 ∧ p.slave.base = 0x28
  cascade : p.master.cascade = 4 ∧ p.slave.cascade = 2
  imr : p.master.imr = ∅ ∧ p.slave.imr = ∅
  wired : p.Wired

/-- Only requests and what is in service may change. -/
theorem Remapped.of {p' : Pics} (h : p.Remapped)
    (hm : ∃ irr isr, p'.master = { p.master with irr, isr })
    (hs : ∃ irr isr, p'.slave = { p.slave with irr, isr }) (hw : p'.Wired) : p'.Remapped := by
  obtain ⟨irr, isr, hm⟩ := hm
  obtain ⟨irr', isr', hs⟩ := hs
  refine ⟨?_, ?_, ?_, ?_, hw⟩ <;> rw [hm, hs]
  · exact h.stage
  · exact h.base
  · exact h.cascade
  · exact h.imr

theorem Remapped.withSlave (h : p.Remapped) (hs : ∃ irr isr, s = { p.slave with irr, isr }) :
    (p.withSlave s).Remapped := by
  obtain ⟨irr, hm, -⟩ := p.master_withSlave s
  exact h.of ⟨irr, _, hm⟩ hs (h.wired.withSlave s)

theorem Remapped.raise (h : p.Remapped) (hn : n ≠ .master 2) : (p.raise n).Remapped := by
  cases n with
  | slave i => exact h.withSlave ⟨_, _, rfl⟩
  | master i =>
    have hi : i ≠ 2 := fun hi => hn (by rw [hi])
    refine h.of ⟨_, _, rfl⟩ ⟨_, _, rfl⟩ ?_
    have := h.wired
    simp only [wired_iff, Pics.raise, Finset.mem_insert, Ne.symm hi, false_or] at this ⊢
    exact this

theorem Remapped.lower (h : p.Remapped) (hn : n ≠ .master 2) : (p.lower n).Remapped := by
  cases n with
  | slave i => exact h.withSlave ⟨_, _, rfl⟩
  | master i =>
    have hi : i ≠ 2 := fun hi => hn (by rw [hi])
    refine h.of ⟨_, _, rfl⟩ ⟨_, _, rfl⟩ ?_
    have := h.wired
    simp only [wired_iff, Pics.lower, Finset.mem_erase, Ne.symm hi, ne_eq, not_false_eq_true,
      true_and] at this ⊢
    exact this

theorem Remapped.eoi_master (h : p.Remapped) : (p.outb picMaster picEoi).Remapped := by
  change Remapped { p with master := p.master.eoi }
  rw [Pic.eoi_eq]
  exact h.of ⟨_, _, rfl⟩ ⟨_, _, rfl⟩ h.wired

theorem Remapped.eoi_slave (h : p.Remapped) : (p.outb picSlave picEoi).Remapped := by
  change (p.withSlave p.slave.eoi).Remapped
  exact h.withSlave ⟨_, _, Pic.eoi_eq _⟩

theorem Remapped.cascaded_iff (h : p.Remapped) : p.Cascaded ↔ p.master.request = some 2 := by
  have hl : ∀ i, i ∈ Pic.lines 4 ↔ i = 2 := by decide
  rw [Cascaded, h.cascade.1, h.cascade.2]
  constructor
  · rintro ⟨i, hi, hm, -⟩
    rwa [(hl i).mp hm] at hi
  · intro hr
    exact ⟨2, hr, (hl 2).mpr rfl, by decide⟩

/-! ### Requests -/

theorem pending_withSlave (hm : m ≠ .master 2) :
    (p.withSlave s).Pending m ↔ match m with
      | .master i => i ∈ p.master.irr
      | .slave i => i ∈ s.irr := by
  obtain ⟨irr, heq, hirr⟩ := p.master_withSlave s
  cases m with
  | slave i => exact Iff.rfl
  | master i =>
    have hi : i ≠ 2 := fun hi => hm (by rw [hi])
    rw [Pending, heq]
    exact hirr i hi

theorem pending_raise (hm : m ≠ .master 2) : (p.raise n).Pending m ↔ m = n ∨ p.Pending m := by
  cases n with
  | master i => cases m <;> simp [raise, Pending]
  | slave i =>
    rw [raise, pending_withSlave hm]
    cases m <;> simp [Pending]

theorem pending_lower (hm : m ≠ .master 2) : (p.lower n).Pending m ↔ m ≠ n ∧ p.Pending m := by
  cases n with
  | master i => cases m <;> simp [lower, Pending]
  | slave i =>
    rw [lower, pending_withSlave hm]
    cases m <;> simp [Pending]

theorem pending_eoi_master : (p.outb picMaster picEoi).Pending m ↔ p.Pending m := by
  change Pending { p with master := p.master.eoi } m ↔ _
  rw [Pic.eoi_eq]
  cases m <;> exact Iff.rfl

theorem pending_eoi_slave (hm : m ≠ .master 2) :
    (p.outb picSlave picEoi).Pending m ↔ p.Pending m := by
  change (p.withSlave p.slave.eoi).Pending m ↔ _
  rw [pending_withSlave hm, Pic.eoi_eq]
  cases m <;> exact Iff.rfl

/-! ### INTA -/

/-- Nothing is in service. -/
def Clear (p : Pics) : Prop := p.master.isr = ∅ ∧ p.slave.isr = ∅

/-- INT is high when a line of a device has a request, and only then. -/
theorem Remapped.request_iff (h : p.Remapped) (hc : p.Clear) :
    p.master.request.isSome ↔ ∃ n, n ≠ .master 2 ∧ p.Pending n := by
  have hsome : p.slave.request.isSome ↔ ∃ i, i ∈ p.slave.irr := by
    rw [Option.isSome_iff_ne_none, ne_eq, Pic.request_eq_none]
    simp [Pic.eligible_of_isr hc.2, h.imr.2]
  rw [Option.isSome_iff_ne_none, ne_eq, Pic.request_eq_none]
  simp only [Pic.eligible_of_isr hc.1, h.imr.1, Finset.notMem_empty, not_false_eq_true, and_true,
    not_forall, not_not]
  constructor
  · rintro ⟨i, hi⟩
    by_cases h2 : i = 2
    · rw [h2] at hi
      obtain ⟨j, hj⟩ := hsome.mp (h.wired.mp hi)
      exact ⟨.slave j, by simp, hj⟩
    · exact ⟨.master i, by simp [h2], hi⟩
  · rintro ⟨n, hn, hp⟩
    cases n with
    | master i => exact ⟨i, hp⟩
    | slave j => exact ⟨2, h.wired.mpr (hsome.mpr ⟨j, hp⟩)⟩

/-- What goes into service is a line of a device, with a request. -/
theorem Remapped.next_pending (h : p.Remapped) (hn : p.next = some n) :
    n ≠ .master 2 ∧ p.Pending n := by
  rw [next] at hn
  by_cases hc : p.Cascaded
  · rw [if_pos hc, Option.map_eq_some_iff] at hn
    obtain ⟨j, hj, rfl⟩ := hn
    exact ⟨by simp, (Pic.request_eq_some.mp hj).1.1⟩
  · rw [if_neg hc, Option.map_eq_some_iff] at hn
    obtain ⟨i, hi, rfl⟩ := hn
    refine ⟨fun h2 => hc (h.cascaded_iff.mpr ?_), (Pic.request_eq_some.mp hi).1.1⟩
    rw [hi, Line.master.inj h2]

/-- INT of the master is high for a request that is there. -/
theorem Remapped.next_isSome (h : p.Remapped) (hr : p.master.request.isSome) : p.next.isSome := by
  rw [next]
  by_cases hc : p.Cascaded
  · have hirr := (Pic.request_eq_some.mp (h.cascaded_iff.mp hc)).1.1
    rw [if_pos hc, Option.isSome_map]
    exact h.wired.mp hirr
  · rwa [if_neg hc, Option.isSome_map]

/-- The vector says which line it is. When the request is gone it is that of a line 7. -/
theorem Remapped.vector_eq (h : p.Remapped) : p.vector = 0x20 + match p.next with
    | some n => n.number
    | none => if p.Cascaded then 15 else 7 := by
  have h20 : (0x20 : UInt8).toNat = 0x20 := rfl
  have h28 : (0x28 : UInt8).toNat = 0x28 := rfl
  by_cases hc : p.Cascaded
  · simp only [vector, next, if_pos hc, Pic.vector, h.base.2, h28]
    cases p.slave.request with
    | none => rfl
    | some j => simp only [Option.getD_some, Option.map_some, Line.number]; omega
  · simp only [vector, next, if_neg hc, Pic.vector, h.base.1, h20]
    cases p.master.request with
    | none => rfl
    | some j => rfl

/-- The slave has the upper half of the vectors. -/
theorem Remapped.vector_bounds (h : p.Remapped) :
    if p.Cascaded then 0x28 ≤ p.vector ∧ p.vector < 0x30 else 0x20 ≤ p.vector ∧ p.vector < 0x28 := by
  have h20 : (0x20 : UInt8).toNat = 0x20 := rfl
  have h28 : (0x28 : UInt8).toNat = 0x28 := rfl
  rw [vector]
  split
  · rw [Pic.vector, h.base.2, h28]
    omega
  · rw [Pic.vector, h.base.1, h20]
    omega

theorem acknowledge_eq (hc : ¬p.Cascaded) :
    p.acknowledge = { p with master := p.master.acknowledge } := by
  simp only [acknowledge, if_neg hc]

/-- The slave has nothing to ask for when its request went into service. -/
theorem Remapped.acknowledge_cascaded (h : p.Remapped) (hc : p.Cascaded) :
    p.acknowledge = ⟨p.master.acknowledge, p.slave.acknowledge⟩ := by
  have hr := h.cascaded_iff.mp hc
  have hirr : 2 ∈ p.master.irr := (Pic.request_eq_some.mp hr).1.1
  have hs : p.slave.request.isSome = true := h.wired.mp hirr
  have hs' : p.slave.acknowledge.request.isSome = false := by rw [Pic.request_acknowledge]; rfl
  have hnot : 2 ∉ p.master.acknowledge.irr := by
    rw [Pic.acknowledge, hr]
    exact Finset.notMem_erase 2 _
  simp only [Pics.acknowledge]
  rw [if_pos hc, Pics.withSlave]
  simp only [hs, hs']
  rw [Finset.erase_eq_of_notMem hnot]

theorem Remapped.acknowledge (h : p.Remapped) : p.acknowledge.Remapped := by
  have hack : ∀ q : Pic, ∃ irr isr, q.acknowledge = { q with irr, isr } := by
    intro q
    rw [Pic.acknowledge]
    split
    · exact ⟨_, _, rfl⟩
    · exact ⟨q.irr, q.isr, rfl⟩
  by_cases hc : p.Cascaded
  · have heq := h.acknowledge_cascaded hc
    refine h.of (by rw [heq]; exact hack _) (by rw [heq]; exact hack _) ?_
    have hr := h.cascaded_iff.mp hc
    rw [heq, wired_iff]
    simp only [Pic.request_acknowledge, Option.isSome_none, Bool.false_eq_true, iff_false]
    rw [Pic.acknowledge, hr]
    exact Finset.notMem_erase 2 _
  · have heq := acknowledge_eq hc
    refine h.of (by rw [heq]; exact hack _) (by rw [heq]; exact ⟨_, _, rfl⟩) ?_
    have hw := h.wired
    rw [wired_iff] at hw
    rw [heq, wired_iff, ← hw, Pic.acknowledge]
    cases hr : p.master.request with
    | none => exact Iff.rfl
    | some i =>
      have hi : (2 : Fin 8) ≠ i := fun hi => hc (h.cascaded_iff.mpr (hi ▸ hr))
      simp only [Finset.mem_erase, hi, ne_eq, not_false_eq_true, true_and]

theorem Remapped.pending_acknowledge (h : p.Remapped) (hm : m ≠ .master 2) :
    p.acknowledge.Pending m ↔ p.next ≠ some m ∧ p.Pending m := by
  have hack : ∀ (q : Pic) i, i ∈ q.acknowledge.irr ↔ q.request ≠ some i ∧ i ∈ q.irr := by
    intro q i
    rw [Pic.acknowledge]
    cases q.request with
    | none => simp
    | some j => simp [eq_comm]
  by_cases hc : p.Cascaded
  · have hr := h.cascaded_iff.mp hc
    rw [h.acknowledge_cascaded hc, next, if_pos hc]
    cases m with
    | master i =>
      have hi : (2 : Fin 8) ≠ i := fun hi => hm (by rw [hi])
      simp [Pending, hack, hr, hi]
    | slave i => simp [Pending, hack]
  · rw [acknowledge_eq hc, next, if_neg hc]
    cases m with
    | master i => simp [Pending, hack]
    | slave i => simp [Pending]

/-! ### What is in service -/

theorem isr_withSlave :
    (p.withSlave s).master.isr = p.master.isr ∧ (p.withSlave s).slave.isr = s.isr := by
  obtain ⟨irr, heq, -⟩ := p.master_withSlave s
  exact ⟨by rw [heq], rfl⟩

theorem isr_raise : (p.raise n).master.isr = p.master.isr ∧ (p.raise n).slave.isr = p.slave.isr := by
  cases n with
  | master i => exact ⟨rfl, rfl⟩
  | slave i => exact isr_withSlave

theorem isr_lower : (p.lower n).master.isr = p.master.isr ∧ (p.lower n).slave.isr = p.slave.isr := by
  cases n with
  | master i => exact ⟨rfl, rfl⟩
  | slave i => exact isr_withSlave

theorem isr_eoi_slave : (p.outb picSlave picEoi).master.isr = p.master.isr ∧
    (p.outb picSlave picEoi).slave.isr = p.slave.eoi.isr :=
  isr_withSlave

/-- After INTA one line of the master at most is in service, and one of the slave when it is its
line. -/
theorem Remapped.isr_acknowledge (h : p.Remapped) (hc : p.Clear) :
    (∀ i ∈ p.acknowledge.master.isr, ∀ j ∈ p.acknowledge.master.isr, i = j) ∧
    ∀ i ∈ p.acknowledge.slave.isr, p.Cascaded ∧ ∀ j ∈ p.acknowledge.slave.isr, i = j := by
  by_cases hcas : p.Cascaded
  · rw [h.acknowledge_cascaded hcas]
    exact ⟨Pic.isr_acknowledge_eq hc.1, fun i hi => ⟨hcas, Pic.isr_acknowledge_eq hc.2 i hi⟩⟩
  · rw [acknowledge_eq hcas]
    refine ⟨Pic.isr_acknowledge_eq hc.1, fun i hi => ?_⟩
    rw [hc.2] at hi
    exact absurd hi (Finset.notMem_empty i)

/-! ### irq_remap -/

theorem withSlave_quiet (hm : p.master.irr = ∅) (hs : s.irr = ∅) : p.withSlave s = ⟨p.master, s⟩ := by
  have hnone : s.request = none := Pic.request_eq_none.mpr fun i hi => by
    have := hi.1
    rw [hs] at this
    exact absurd this (Finset.notMem_empty i)
  rw [withSlave, hnone]
  cases p.slave.request with
  | none => rfl
  | some i =>
    simp only [Option.isSome_some, Option.isSome_none]
    rw [Finset.erase_eq_of_notMem (by rw [hm]; exact Finset.notMem_empty 2)]

/-- Whatever the controllers did before. -/
theorem irqRemap_eq (p : Pics) : irqRemap.foldl Pics.perform p =
    ⟨⟨.ready, false, true, 0x20, 4, 1, ∅, ∅, ∅⟩, ⟨.ready, false, true, 0x28, 2, 1, ∅, ∅, ∅⟩⟩ := by
  have hio : ∀ q : Pics, q.outb 0x80 0 = q := fun _ => rfl
  have hc1 : ∀ (q : Pics) v, q.outb 0x20 v = { q with master := q.master.command v } :=
    fun _ _ => rfl
  have hd1 : ∀ (q : Pics) v, q.outb 0x21 v = { q with master := q.master.data v } := fun _ _ => rfl
  have hc2 : ∀ (q : Pics) v, q.outb 0xA0 v = q.withSlave (q.slave.command v) := fun _ _ => rfl
  have hd2 : ∀ (q : Pics) v, q.outb 0xA1 v = q.withSlave (q.slave.data v) := fun _ _ => rfl
  have hinit : ∀ q : Pic, q.command 0x11 = ⟨.icw2, false, true, q.base, q.cascade, q.mode, ∅, ∅, ∅⟩ :=
    fun _ => rfl
  have hw : ∀ (a b c : Pic), a.irr = ∅ → c.irr = ∅ → (Pics.mk a b).withSlave c = ⟨a, c⟩ :=
    fun _ _ _ ha hc => withSlave_quiet ha hc
  simp only [irqRemap, ioWait, List.foldl_cons, List.foldl_nil, Pics.perform, hio, hc1, hc2, hinit,
    hd1, hd2, hw, Pic.data]
  rfl

end Pics

/-! ### The board -/

/-- What a handler may do. -/
def handlerActs : List Act := [.outb picSlave picEoi, .outb picMaster picEoi, .timer, .keyboard]

theorem mem_interruptHandler {v : Nat} {a : Act} (h : a ∈ interruptHandler v) : a ∈ handlerActs := by
  rw [interruptHandler, List.mem_append, List.mem_cons] at h
  rcases h with h | rfl | h
  · split at h
    · rw [List.mem_singleton.mp h]
      decide
    · exact absurd h List.not_mem_nil
  · decide
  · split at h
    · rw [List.mem_singleton.mp h]
      decide
    · split at h
      · rw [List.mem_singleton.mp h]
        decide
      · exact absurd h List.not_mem_nil

theorem eoi_master_mem (v : Nat) : .outb picMaster picEoi ∈ interruptHandler v := by
  simp [interruptHandler]

theorem eoi_slave_mem {v : Nat} (h : 0x28 ≤ v) : .outb picSlave picEoi ∈ interruptHandler v := by
  simp [interruptHandler, h]

namespace Board

section
variable (behind behindShift : Nat → UInt8)

/-- Line 2 of the master is the slave, and line 1 the keyboard's. The kernel's own code runs between
handlers; an exception may come in a handler. -/
inductive Step : Board → Board → Prop
  | raise {b n} : n ≠ .master 2 → n ≠ .master 1 → Step b (b.raise n)
  | lower {b n} : n ≠ .master 2 → n ≠ .master 1 → Step b (b.lower n)
  | key {b c} : b.buffer = none → Step b (b.key c)
  | addTimer {b frequency} : frequency ≠ 0 → b.acts = [] → b.accepted = false →
    Step b (b.addTimer frequency)
  | addKeyboard {b} : b.acts = [] → b.accepted = false → Step b b.addKeyboard
  | accept {b} : b.acts = [] → b.pics.master.request.isSome → Step b { b with accepted := true }
  | acknowledge {b} : b.accepted = true → Step b b.acknowledge
  | act {b a as} : b.acts = a :: as → Step b ({ b with acts := as }.perform behind behindShift a)
  | exception {b v} : v < 0x20 → b.accepted = false →
    Step b { b with acts := interruptHandler v ++ b.acts }

/-- The states from boot on, whatever the controllers did before. -/
inductive Run : Board → Prop
  | boot (p : Pics) (buffer : Option UInt8) : Run (boot p buffer)
  | step {b b'} : Run b → Step behind behindShift b b' → Run b'

end

/-- What is in service has its end of interrupt to come, and no edge is lost or taken twice. -/
structure Sound (b : Board) : Prop where
  remapped : b.pics.Remapped
  idle : b.accepted = true → b.acts = []
  acts : ∀ a ∈ b.acts, a ∈ handlerActs
  master : ∀ i ∈ b.pics.master.isr, .outb picMaster picEoi ∈ b.acts ∧
    ∀ j ∈ b.pics.master.isr, i = j
  slave : ∀ i ∈ b.pics.slave.isr, .outb picSlave picEoi ∈ b.acts ∧ ∀ j ∈ b.pics.slave.isr, i = j
  counted : ∀ n, n ≠ .master 2 →
    b.edges n = b.withdrawn n + b.served n + if b.pics.Pending n then 1 else 0

variable {behind behindShift : Nat → UInt8} {b b' : Board} {n : Line} {a : Act} {as : List Act}

theorem Sound.clear (H : Sound b) (h : b.acts = []) : b.pics.Clear := by
  constructor
  · exact Finset.eq_empty_of_forall_notMem fun i hi => by simpa [h] using (H.master i hi).1
  · exact Finset.eq_empty_of_forall_notMem fun i hi => by simpa [h] using (H.slave i hi).1

theorem Sound.boot (p : Pics) (buffer : Option UInt8) : Sound (boot p buffer) := by
  have heq : (Board.boot p buffer).pics = _ := Pics.irqRemap_eq p
  refine ⟨?_, nofun, nofun, ?_, ?_, fun n _ => ?_⟩
  · rw [heq]
    refine ⟨⟨rfl, rfl⟩, ⟨rfl, rfl⟩, ⟨rfl, rfl⟩, ⟨rfl, rfl⟩, ?_⟩
    rw [Pics.wired_iff]
    decide
  · rw [heq]
    exact fun i hi => absurd hi (Finset.notMem_empty i)
  · rw [heq]
    exact fun i hi => absurd hi (Finset.notMem_empty i)
  · rw [heq, if_neg]
    · rfl
    · cases n <;> exact Finset.notMem_empty _

theorem Sound.raise (H : Sound b) (hn : n ≠ .master 2) : Sound (b.raise n) := by
  obtain ⟨h1, h2⟩ := @Pics.isr_raise b.pics n
  refine ⟨H.remapped.raise hn, H.idle, H.acts, ?_, ?_, fun m hm => ?_⟩
  · simpa only [Board.raise, h1] using H.master
  · simpa only [Board.raise, h2] using H.slave
  · have hcount := H.counted m hm
    simp only [Board.raise, Pics.pending_raise hm]
    by_cases hp : b.pics.Pending n
    · by_cases hmn : m = n
      · subst hmn
        simpa [hp] using hcount
      · simpa [hp, hmn] using hcount
    · by_cases hmn : m = n
      · subst hmn
        simpa [hp] using hcount
      · simpa [hp, hmn] using hcount

theorem Sound.lower (H : Sound b) (hn : n ≠ .master 2) : Sound (b.lower n) := by
  obtain ⟨h1, h2⟩ := @Pics.isr_lower b.pics n
  refine ⟨H.remapped.lower hn, H.idle, H.acts, ?_, ?_, fun m hm => ?_⟩
  · simpa only [Board.lower, h1] using H.master
  · simpa only [Board.lower, h2] using H.slave
  · have hcount := H.counted m hm
    simp only [Board.lower, Pics.pending_lower hm]
    by_cases hmn : m = n
    · subst hmn
      by_cases hp : b.pics.Pending m
      · simp [hp] at hcount ⊢
        omega
      · simpa [hp] using hcount
    · by_cases hp : b.pics.Pending n
      · simpa [hp, hmn] using hcount
      · simpa [hp, hmn] using hcount

theorem Sound.acknowledge (H : Sound b) (ha : b.accepted = true) : Sound b.acknowledge := by
  have hc := H.clear (H.idle ha)
  obtain ⟨h1, h2⟩ := H.remapped.isr_acknowledge hc
  have hb := H.remapped.vector_bounds
  refine ⟨H.remapped.acknowledge, nofun, fun a h => mem_interruptHandler h, fun i hi => ?_,
    fun i hi => ?_, fun m hm => ?_⟩
  · exact ⟨eoi_master_mem _, h1 i hi⟩
  · obtain ⟨hcas, h2⟩ := h2 i hi
    rw [if_pos hcas] at hb
    exact ⟨eoi_slave_mem hb.1, h2⟩
  · have hcount := H.counted m hm
    simp only [Board.acknowledge, H.remapped.pending_acknowledge hm]
    cases hn : b.pics.next with
    | none => simpa using hcount
    | some n =>
      obtain ⟨-, hp⟩ := H.remapped.next_pending hn
      by_cases hmn : m = n
      · subst hmn
        simp only [hp, if_true, Function.update_self, ne_eq, not_true_eq_false, false_and,
          if_false] at hcount ⊢
        omega
      · have hmn' : n ≠ m := Ne.symm hmn
        simpa [hmn, hmn'] using hcount

theorem Sound.exception {v : Nat} (H : Sound b) (ha : b.accepted = false) :
    Sound { b with acts := interruptHandler v ++ b.acts } := by
  refine ⟨H.remapped, fun h => ?_, fun a h => ?_, fun i hi => ?_, fun i hi => ?_, H.counted⟩
  · rw [ha] at h
    exact absurd h (by decide)
  · rcases List.mem_append.mp h with h | h
    · exact mem_interruptHandler h
    · exact H.acts a h
  · exact ⟨List.mem_append_right _ (H.master i hi).1, (H.master i hi).2⟩
  · exact ⟨List.mem_append_right _ (H.slave i hi).1, (H.slave i hi).2⟩

/-- The end of interrupt of the one line that is in service. -/
theorem Sound.eoi_master (H : Sound b) (h : b.acts = .outb picMaster picEoi :: as) :
    Sound { b with acts := as, pics := b.pics.outb picMaster picEoi } := by
  have hisr : (b.pics.outb picMaster picEoi).master.isr = ∅ :=
    Pic.isr_eoi fun i hi => (H.master i hi).2
  refine ⟨H.remapped.eoi_master, fun hacc => ?_, fun a ha => H.acts a (h ▸ List.mem_cons_of_mem _ ha),
    fun i hi => ?_, fun i hi => ?_, fun m hm => ?_⟩
  · exact absurd ((H.idle hacc).symm.trans h) nofun
  · simp only at hi
    rw [hisr] at hi
    exact absurd hi (Finset.notMem_empty i)
  · obtain ⟨h1, h2⟩ := H.slave i hi
    rw [h] at h1
    rcases List.mem_cons.mp h1 with h1 | h1
    · exact absurd h1 (by decide)
    · exact ⟨h1, h2⟩
  · simpa only [Pics.pending_eoi_master] using H.counted m hm

theorem Sound.eoi_slave (H : Sound b) (h : b.acts = .outb picSlave picEoi :: as) :
    Sound { b with acts := as, pics := b.pics.outb picSlave picEoi } := by
  obtain ⟨h1, h2⟩ := @Pics.isr_eoi_slave b.pics
  rw [Pic.isr_eoi fun i hi => (H.slave i hi).2] at h2
  refine ⟨H.remapped.eoi_slave, fun hacc => ?_, fun a ha => H.acts a (h ▸ List.mem_cons_of_mem _ ha),
    fun i hi => ?_, fun i hi => ?_, fun m hm => ?_⟩
  · exact absurd ((H.idle hacc).symm.trans h) nofun
  · simp only [h1] at hi ⊢
    obtain ⟨h3, h4⟩ := H.master i hi
    rw [h] at h3
    rcases List.mem_cons.mp h3 with h3 | h3
    · exact absurd h3 (by decide)
    · exact ⟨h3, h4⟩
  · simp only at hi
    rw [h2] at hi
    exact absurd hi (Finset.notMem_empty i)
  · simpa only [Pics.pending_eoi_slave hm] using H.counted m hm

/-- An act that leaves the controllers alone. -/
theorem Sound.quiet (H : Sound b) (h : b.acts = a :: as)
    (ha : ∀ port value, a ≠ .outb port value) (hpics : b'.pics = b.pics) (hacts : b'.acts = as)
    (hacc : b'.accepted = b.accepted) (hcount : b'.edges = b.edges ∧ b'.withdrawn = b.withdrawn ∧
      b'.served = b.served) : Sound b' := by
  have hmem : ∀ port value, .outb port value ∈ b.acts → .outb port value ∈ b'.acts := by
    intro port value hm
    rw [h] at hm
    rw [hacts]
    exact (List.mem_cons.mp hm).resolve_left fun heq => ha port value heq.symm
  refine ⟨hpics ▸ H.remapped, fun hacc' => ?_, fun x hx => ?_, fun i hi => ?_, fun i hi => ?_,
    fun m hm => ?_⟩
  · exact absurd ((H.idle (hacc ▸ hacc')).symm.trans h) nofun
  · rw [hacts] at hx
    exact H.acts x (h ▸ List.mem_cons_of_mem _ hx)
  · rw [hpics] at hi ⊢
    exact ⟨hmem _ _ (H.master i hi).1, (H.master i hi).2⟩
  · rw [hpics] at hi ⊢
    exact ⟨hmem _ _ (H.slave i hi).1, (H.slave i hi).2⟩
  · rw [hcount.1, hcount.2.1, hcount.2.2, hpics]
    exact H.counted m hm

theorem Sound.act (H : Sound b) (h : b.acts = a :: as) :
    Sound ({ b with acts := as }.perform behind behindShift a) := by
  have hmem := H.acts a (h ▸ List.mem_cons_self)
  simp only [handlerActs, List.mem_cons, List.not_mem_nil, or_false] at hmem
  rcases hmem with rfl | rfl | rfl | rfl
  · exact H.eoi_slave h
  · exact H.eoi_master h
  · refine H.quiet h nofun ?_ ?_ ?_ ?_ <;> simp only [perform] <;> split <;> simp
  · refine H.quiet h nofun ?_ ?_ ?_ ?_ <;> simp only [perform] <;> split <;> simp

theorem Sound.step (H : Sound b) (h : Step behind behindShift b b') : Sound b' := by
  cases h with
  | raise h2 _ => exact H.raise h2
  | lower h2 _ => exact H.lower h2
  | key _ =>
    have := H.raise (n := .master 1) nofun
    exact ⟨this.remapped, this.idle, this.acts, this.master, this.slave, this.counted⟩
  | addTimer => exact ⟨H.remapped, H.idle, H.acts, H.master, H.slave, H.counted⟩
  | addKeyboard => exact ⟨H.remapped, H.idle, H.acts, H.master, H.slave, H.counted⟩
  | accept ha => exact ⟨H.remapped, fun _ => ha, H.acts, H.master, H.slave, H.counted⟩
  | acknowledge ha => exact H.acknowledge ha
  | act ha => exact H.act ha
  | exception _ ha => exact H.exception ha

theorem Run.sound (h : Run behind behindShift b) : Sound b := by
  induction h with
  | boot p buffer => exact .boot p buffer
  | step _ hstep ih => exact ih.step hstep

/-! ### Requests are served -/

/-- Between handlers nothing is in service and INT follows the requests; a vector is that of a line
with a request, or of a line 7 when the request is gone; the edges of a line are those served,
withdrawn and pending. -/
structure Responsive (b : Board) : Prop where
  clear : b.acts = [] → b.pics.Clear
  int : b.acts = [] →
    (b.pics.master.request.isSome ↔ ∃ n, n ≠ .master 2 ∧ b.pics.Pending n)
  vector : match b.pics.next with
    | some n => b.pics.vector = 0x20 + n.number ∧ n ≠ .master 2 ∧ b.pics.Pending n
    | none => b.pics.vector = 0x27 ∨ b.pics.vector = 0x2F
  counted : ∀ n, n ≠ .master 2 →
    b.edges n = b.withdrawn n + b.served n + if b.pics.Pending n then 1 else 0

/-- **No line is blocked.** -/
theorem Run.responsive (h : Run behind behindShift b) : Responsive b := by
  have H := h.sound
  refine ⟨H.clear, fun ha => H.remapped.request_iff (H.clear ha), ?_, H.counted⟩
  rw [H.remapped.vector_eq]
  cases hn : b.pics.next with
  | none =>
    simp only
    split
    · exact .inr rfl
    · exact .inl rfl
  | some n => exact ⟨rfl, H.remapped.next_pending hn⟩

/-- The controllers as a PC has them before. -/
def biosPics : Pics :=
  ⟨⟨.ready, false, true, 0x08, 4, 1, ∅, ∅, ∅⟩, ⟨.ready, false, true, 0x70, 2, 1, ∅, ∅, ∅⟩⟩

theorem Run.responsive_timer : Responsive ((Board.boot biosPics none).raise (.master 0)) :=
  ((@Run.boot (fun _ => 0) (fun _ => 0) biosPics none).step
    (.raise (n := .master 0) (by decide) (by decide))).responsive

/-! ### The timer -/

theorem count_interruptHandler (v : Nat) :
    (interruptHandler v).count .timer = (if v = irqTimer then 1 else 0) ∧
    (interruptHandler v).count .keyboard = if v = irqKeyboard then 1 else 0 := by
  have hne : irqKeyboard ≠ irqTimer := by decide
  rw [interruptHandler]
  by_cases h0 : v = irqTimer
  · subst h0
    decide
  · by_cases h1 : v = irqKeyboard
    · subst h1
      decide
    · rw [if_neg h0, if_neg h1, if_neg h0, if_neg h1]
      split <;> decide

/-- The lines below 7 have their vectors for themselves. -/
theorem Sound.vector_iff (H : Sound b) {i : Fin 8} (hi : i ≠ 7) :
    b.pics.vector = 0x20 + i ↔ b.pics.next = some (.master i) := by
  have hi : i.val ≠ 7 := fun h => hi (Fin.ext h)
  rw [H.remapped.vector_eq]
  cases hn : b.pics.next with
  | none =>
    simp only [reduceCtorEq, iff_false]
    split <;> omega
  | some n =>
    cases n with
    | master j => simp [Line.number, Fin.ext_iff]
    | slave j =>
      simp only [Line.number, Option.some.injEq, reduceCtorEq, iff_false]
      omega

/-- The ticks so far. -/
def ticks (b : Board) : UInt64 := b.timer.elim 0 Timer.ticks

/-- How often the timer was served: `missedTicks` went to no handler, and one may be to come. -/
def Ticking (b : Board) : Prop :=
  ∃ n, b.served .timer = b.missedTicks + b.acts.count .timer + n ∧
    b.ticks = UInt64.ofNat n

theorem ticking_iff : Ticking b ↔ ∃ n, b.served (.master 0) =
    b.missedTicks + b.acts.count .timer + n ∧ b.ticks = UInt64.ofNat n :=
  Iff.rfl

/-- Nothing of the timer is different. -/
theorem Ticking.same (h : Ticking b) (hserved : b'.served (.master 0) = b.served (.master 0))
    (hmissed : b'.missedTicks = b.missedTicks) (hcount : b'.acts.count .timer = b.acts.count .timer)
    (hticks : b'.ticks = b.ticks) : Ticking b' := by
  rwa [ticking_iff, hserved, hmissed, hcount, hticks]

theorem Ticking.acknowledge (H : Sound b) (h : Ticking b) (ha : b.accepted = true) :
    Ticking b.acknowledge := by
  obtain ⟨n, hn, ht⟩ := ticking_iff.mp h
  rw [H.idle ha, List.count_nil] at hn
  have hcount := (count_interruptHandler b.pics.vector).1
  have hiff : b.pics.vector = irqTimer ↔ _ := H.vector_iff (i := 0) (by decide)
  refine ticking_iff.mpr ⟨n, ?_, ht⟩
  simp only [Board.acknowledge, hcount, hiff]
  cases hnext : b.pics.next with
  | none => simpa using hn
  | some m =>
    by_cases hm : m = .master 0
    · subst hm
      simp only [Function.update_self, if_true]
      omega
    · have hm' : Line.master 0 ≠ m := Ne.symm hm
      simpa [hm, hm'] using hn

theorem Ticking.act (h : Ticking b) (ha : b.acts = a :: as) :
    Ticking ({ b with acts := as }.perform behind behindShift a) := by
  cases a with
  | outb port value =>
    have hcount : b.acts.count .timer = as.count .timer := by
      rw [ha]
      exact List.count_cons_of_ne (by simp)
    exact h.same rfl rfl hcount.symm rfl
  | keyboard =>
    have hcount : b.acts.count .timer = as.count .timer := by
      rw [ha, List.count_cons_of_ne (by decide)]
    simp only [perform]
    split
    · exact h.same rfl rfl hcount.symm rfl
    · exact h.same rfl rfl hcount.symm rfl
  | timer =>
    obtain ⟨n, hn, ht⟩ := h
    rw [ha, List.count_cons_self] at hn
    simp only [perform]
    split
    · next hnone =>
      refine ⟨n, ?_, ht⟩
      simp only
      omega
    · next timer hsome =>
      refine ⟨n + 1, ?_, ?_⟩
      · simp only
        omega
      · rw [ticks, hsome, Option.elim_some] at ht
        simp only [ticks, Option.elim_some, Timer.onTimer, ht, UInt64.ofNat_add]
        rfl

theorem Ticking.step (H : Sound b) (h : Ticking b) (hstep : Step behind behindShift b b') :
    Ticking b' := by
  cases hstep with
  | raise _ _ => exact h.same rfl rfl rfl rfl
  | lower _ _ => exact h.same rfl rfl rfl rfl
  | key _ => exact h.same rfl rfl rfl rfl
  | addTimer =>
    refine h.same rfl rfl rfl ?_
    rw [ticks, addTimer, ticks]
    cases b.timer <;> rfl
  | addKeyboard => exact h.same rfl rfl rfl rfl
  | accept _ => exact h.same rfl rfl rfl rfl
  | acknowledge ha => exact h.acknowledge H ha
  | act ha => exact h.act ha
  | @exception v hv _ =>
    refine h.same rfl rfl ?_ rfl
    rw [List.count_append, (count_interruptHandler v).1, if_neg (by rw [irqTimer]; omega),
      Nat.zero_add]

/-- **Ticks are interrupts of the timer.** -/
theorem Run.ticking (h : Run behind behindShift b) : Ticking b := by
  induction h with
  | boot p buffer => exact ⟨0, rfl, rfl⟩
  | step h hstep ih => exact ih.step h.sound hstep

theorem Run.ticking_timer : Ticking ((Board.boot biosPics none).addTimer 100) :=
  ((@Run.boot (fun _ => 0) (fun _ => 0) biosPics none).step
    (.addTimer (by decide) rfl rfl)).ticking

/-! ### The keyboard -/

/-- The interrupts of the keyboard that are still to be handled. -/
def keysWaiting (b : Board) : Nat :=
  b.acts.count .keyboard + if b.pics.Pending .keyboard then 1 else 0

/-- The bytes so far: those that were read, which the keyboard decoded one after the other, and the
one in the buffer. That one has its interrupt to come, unless `keyboard_handler_p` was null when it
came. -/
structure Keyed (behind behindShift : Nat → UInt8) (b : Board) : Prop where
  decoded : ∃ read, b.typed = read ++ b.buffer.toList ∧ b.keyboard.getD .new =
    Keyboard.run behind behindShift .new (read.map Keyboard.deliver)
  empty : b.buffer = none → b.keysWaiting = 0 ∧ b.missedKeys = 0
  full : b.buffer.isSome → b.keysWaiting = if b.missedKeys = 0 then 1 else 0

/-- Nothing of the keyboard is different. -/
theorem Keyed.same (h : Keyed behind behindShift b) (htyped : b'.typed = b.typed)
    (hbuffer : b'.buffer = b.buffer) (hkeyboard : b'.keyboard.getD .new = b.keyboard.getD .new)
    (hmissed : b'.missedKeys = b.missedKeys) (hwaiting : b'.keysWaiting = b.keysWaiting) :
    Keyed behind behindShift b' := by
  obtain ⟨h1, h2, h3⟩ := h
  refine ⟨?_, ?_, ?_⟩
  · rwa [htyped, hbuffer, hkeyboard]
  · rwa [hbuffer, hwaiting, hmissed]
  · rwa [hbuffer, hwaiting, hmissed]

theorem Keyed.acknowledge (H : Sound b) (h : Keyed behind behindShift b)
    (ha : b.accepted = true) : Keyed behind behindShift b.acknowledge := by
  refine h.same rfl rfl rfl rfl ?_
  have hcount := (count_interruptHandler b.pics.vector).2
  have hiff : b.pics.vector = irqKeyboard ↔ _ := H.vector_iff (i := 1) (by decide)
  have hpend := H.remapped.pending_acknowledge (m := .master 1) (by decide)
  rw [keysWaiting, keysWaiting, H.idle ha]
  simp only [Board.acknowledge, hcount, hiff, hpend, List.count_nil]
  by_cases hnext : b.pics.next = some (.master 1)
  · have := (H.remapped.next_pending hnext).2
    simp [hnext, this]
  · simp [hnext]

theorem Keyed.act (H : Sound b) (h : Keyed behind behindShift b) (ha : b.acts = a :: as) :
    Keyed behind behindShift ({ b with acts := as }.perform behind behindShift a) := by
  have hmem := H.acts a (ha ▸ List.mem_cons_self)
  simp only [handlerActs, List.mem_cons, List.not_mem_nil, or_false] at hmem
  rcases hmem with rfl | rfl | rfl | rfl
  · refine h.same rfl rfl rfl rfl ?_
    simp only [keysWaiting, perform, ha, Pics.pending_eoi_slave (m := .master 1) (by decide)]
    rw [List.count_cons_of_ne (by decide)]
  · refine h.same rfl rfl rfl rfl ?_
    simp only [keysWaiting, perform, ha, Pics.pending_eoi_master]
    rw [List.count_cons_of_ne (by decide)]
  · have hwaiting : b.keysWaiting = { b with acts := as }.keysWaiting := by
      simp only [keysWaiting, ha]
      rw [List.count_cons_of_ne (by decide)]
    simp only [perform]
    split
    · exact h.same rfl rfl rfl rfl hwaiting.symm
    · exact h.same rfl rfl rfl rfl hwaiting.symm
  · have hwaiting : b.keysWaiting = { b with acts := as }.keysWaiting + 1 := by
      simp only [keysWaiting, ha]
      rw [List.count_cons_self]
      omega
    obtain ⟨⟨read, htyped, hread⟩, hempty, hfull⟩ := h
    -- the interrupt of an empty buffer does not exist
    cases hbuffer : b.buffer with
    | none =>
      have := (hempty hbuffer).1
      omega
    | some c =>
      have hfull := hfull (by rw [hbuffer]; rfl)
      have hmissed : b.missedKeys = 0 := by
        by_contra hne
        rw [if_neg hne] at hfull
        omega
      rw [if_pos hmissed] at hfull
      simp only [perform]
      split
      · next hnone =>
        refine ⟨⟨read, hbuffer ▸ htyped, hread⟩, nofun, fun _ => ?_⟩
        · rw [if_neg (Nat.succ_ne_zero _)]
          change { b with acts := as }.keysWaiting = 0
          omega
      · next keyboard hsome =>
        refine ⟨⟨read ++ [c], ?_, ?_⟩, fun _ => ⟨?_, hmissed⟩, nofun⟩
        · rw [htyped, hbuffer]
          simp
        · have hports : Board.ports { b with acts := as } = Keyboard.deliver c := by
            funext port
            simp [Board.ports, hbuffer, Keyboard.deliver, Keyboard.dataInBuffer]
          rw [hbuffer] at hports
          rw [hsome, Option.getD_some] at hread
          rw [List.map_append, List.map_singleton, Keyboard.run_append, ← hread, hports]
          rfl
        · change { b with acts := as }.keysWaiting = 0
          omega

theorem Keyed.step (H : Sound b) (h : Keyed behind behindShift b)
    (hstep : Step behind behindShift b b') : Keyed behind behindShift b' := by
  have hm : (.master 1 : Line) ≠ .master 2 := by decide
  cases hstep with
  | raise _ hn =>
    refine h.same rfl rfl rfl rfl ?_
    simp only [keysWaiting, Board.raise, Pics.pending_raise hm, Ne.symm hn, false_or]
  | lower _ hn =>
    refine h.same rfl rfl rfl rfl ?_
    simp only [keysWaiting, Board.lower, Pics.pending_lower hm, Ne.symm hn, ne_eq,
      not_false_eq_true, true_and]
  | @key c hb =>
    obtain ⟨⟨read, htyped, hread⟩, hempty, -⟩ := h
    obtain ⟨hwaiting, hmissed⟩ := hempty hb
    refine ⟨⟨read, ?_, hread⟩, nofun, fun _ => ?_⟩
    · rw [hb] at htyped
      simp only [key, htyped]
      simp
    · rw [if_pos (by exact hmissed)]
      rw [keysWaiting] at hwaiting
      simp only [keysWaiting, key, Board.raise, Pics.pending_raise hm, true_or, if_true]
      omega
  | addTimer => exact h.same rfl rfl rfl rfl rfl
  | addKeyboard =>
    refine h.same rfl rfl ?_ rfl rfl
    rw [addKeyboard, Option.getD_some]
  | accept _ => exact h.same rfl rfl rfl rfl rfl
  | acknowledge ha => exact h.acknowledge H ha
  | act ha => exact h.act H ha
  | @exception v hv _ =>
    refine h.same rfl rfl rfl rfl ?_
    simp only [keysWaiting]
    rw [List.count_append, (count_interruptHandler v).2, if_neg (by rw [irqKeyboard]; omega),
      Nat.zero_add]

/-- **Keys are decoded once and in order.** -/
theorem Run.keyed (h : Run behind behindShift b) : Keyed behind behindShift b := by
  induction h with
  | boot p buffer =>
    have hpend : ¬(Board.boot p buffer).pics.Pending (.master 1) := by
      rw [show (Board.boot p buffer).pics = _ from Pics.irqRemap_eq p]
      exact Finset.notMem_empty 1
    have hwaiting : (Board.boot p buffer).keysWaiting = 0 := by
      rw [keysWaiting, if_neg hpend]
      rfl
    refine ⟨⟨[], rfl, rfl⟩, fun hb => ⟨hwaiting, ?_⟩, fun hb => ?_⟩
    · change buffer = none at hb
      rw [hb]
      rfl
    · rw [hwaiting]
      change buffer.isSome = true at hb
      obtain ⟨c, rfl⟩ := Option.isSome_iff_exists.mp hb
      rfl
  | step h hstep ih => exact ih.step h.sound hstep

theorem Run.keyed_key : Keyed (fun _ => 0) (fun _ => 0)
    ((Board.boot biosPics none).addKeyboard.key 0x1e) :=
  (((Run.boot biosPics none).step (.addKeyboard rfl rfl)).step (.key rfl)).keyed

/-! ### From here on -/

/-- Any number of steps. -/
abbrev Steps (behind behindShift : Nat → UInt8) : Board → Board → Prop :=
  Relation.ReflTransGen (Step behind behindShift)

theorem Sound.steps (H : Sound b) (hs : Steps behind behindShift b b') : Sound b' := by
  induction hs with
  | refl => exact H
  | tail _ hstep ih => exact ih.step hstep

theorem Run.steps (h : Run behind behindShift b) (hs : Steps behind behindShift b b') :
    Run behind behindShift b' := by
  induction hs with
  | refl => exact h
  | tail _ hstep ih => exact ih.step hstep

/-- The keyboard is as it was. -/
structure Silent (b b' : Board) : Prop where
  typed : b'.typed = b.typed
  buffer : b'.buffer = b.buffer
  keyboard : b'.keyboard.getD .new = b.keyboard.getD .new
  missed : b.missedKeys ≤ b'.missedKeys

/-- Behind a byte whose interrupt was missed no other can come, and none makes it be read. -/
theorem Keyed.silent (h : Keyed behind behindShift b) (hmissed : 0 < b.missedKeys)
    (hstep : Step behind behindShift b b') : Silent b b' := by
  have hbuffer : b.buffer ≠ none := fun hb => by
    have := (h.empty hb).2
    omega
  have hwaiting : b.keysWaiting = 0 := by
    rw [h.full (Option.isSome_iff_ne_none.mpr hbuffer), if_neg (by omega)]
  cases hstep with
  | raise | lower | addTimer | accept | acknowledge | exception => exact ⟨rfl, rfl, rfl, le_rfl⟩
  | key hb => exact absurd hb hbuffer
  | addKeyboard =>
    refine ⟨rfl, rfl, ?_, le_rfl⟩
    rw [addKeyboard, Option.getD_some]
  | @act a as ha =>
    cases a with
    | outb port value => exact ⟨rfl, rfl, rfl, le_rfl⟩
    | timer =>
      simp only [perform]
      split
      · exact ⟨rfl, rfl, rfl, le_rfl⟩
      · exact ⟨rfl, rfl, rfl, le_rfl⟩
    | keyboard =>
      rw [keysWaiting, ha, List.count_cons_self] at hwaiting
      omega

/-- **A keyboard that was not listened to is lost.** When an interrupt of it came before
`add_keyboard`, no byte arrives or is read again, whatever happens. -/
theorem Run.deaf (h : Run behind behindShift b) (hmissed : 0 < b.missedKeys)
    (hs : Steps behind behindShift b b') : Silent b b' := by
  induction hs with
  | refl => exact ⟨rfl, rfl, rfl, le_rfl⟩
  | tail hs hstep ih =>
    have R := h.steps hs
    have hnext := R.keyed.silent (by have := ih.missed; omega) hstep
    exact ⟨hnext.typed.trans ih.typed, hnext.buffer.trans ih.buffer,
      hnext.keyboard.trans ih.keyboard, ih.missed.trans hnext.missed⟩

theorem Run.deaf_boot : Silent (Board.boot biosPics (some 0xfa))
    ((Board.boot biosPics (some 0xfa)).addKeyboard) :=
  (@Run.boot (fun _ => 0) (fun _ => 0) biosPics (some 0xfa)).deaf
    (by decide) (.single (.addKeyboard rfl rfl))

/-- No line rose or fell. -/
structure Served (b b' : Board) : Prop where
  acts : b'.acts = []
  accepted : b'.accepted = false
  edges : b'.edges = b.edges
  withdrawn : b'.withdrawn = b.withdrawn

/-- The handlers in progress come to their end. -/
theorem Sound.exists_finish (behind behindShift : Nat → UInt8) (H : Sound b)
    (hacc : b.accepted = false) : ∃ b', Steps behind behindShift b b' ∧ Served b b' ∧
      ∀ m, m ≠ .master 2 → (b'.pics.Pending m ↔ b.pics.Pending m) := by
  obtain ⟨as, has⟩ : ∃ as, b.acts = as := ⟨_, rfl⟩
  induction as generalizing b with
  | nil => exact ⟨b, .refl, ⟨has, hacc, rfl, rfl⟩, fun _ _ => Iff.rfl⟩
  | cons a as ih =>
    have hstep : Step behind behindShift b ({ b with acts := as }.perform behind behindShift a) :=
      .act has
    obtain ⟨b1, hb1⟩ : ∃ b1, b1 = { b with acts := as }.perform behind behindShift a := ⟨_, rfl⟩
    rw [← hb1] at hstep
    have hmem := H.acts a (has ▸ List.mem_cons_self)
    simp only [handlerActs, List.mem_cons, List.not_mem_nil, or_false] at hmem
    have hkeep : b1.acts = as ∧ b1.accepted = b.accepted ∧ b1.edges = b.edges ∧
        b1.withdrawn = b.withdrawn ∧
        ∀ m, m ≠ .master 2 → (b1.pics.Pending m ↔ b.pics.Pending m) := by
      rw [hb1]
      rcases hmem with rfl | rfl | rfl | rfl
      · exact ⟨rfl, rfl, rfl, rfl, fun m hm => Pics.pending_eoi_slave hm⟩
      · exact ⟨rfl, rfl, rfl, rfl, fun m _ => Pics.pending_eoi_master⟩
      · simp only [perform]
        split <;> exact ⟨rfl, rfl, rfl, rfl, fun _ _ => Iff.rfl⟩
      · simp only [perform]
        split <;> exact ⟨rfl, rfl, rfl, rfl, fun _ _ => Iff.rfl⟩
    obtain ⟨h1, h2, h3, h4, h5⟩ := hkeep
    obtain ⟨b', hs, hserved, hpend⟩ := ih (H.step hstep) (h2.trans hacc) h1
    exact ⟨b', .head hstep hs, ⟨hserved.acts, hserved.accepted, hserved.edges.trans h3,
      hserved.withdrawn.trans h4⟩, fun m hm => (hpend m hm).trans (h5 m hm)⟩

/-- One request is served, from INT to `iretq`. -/
theorem Sound.exists_round (behind behindShift : Nat → UInt8) (H : Sound b) (ha : b.acts = [])
    (hr : b.pics.master.request.isSome) : ∃ b' n, Steps behind behindShift b b' ∧
      Served b b' ∧ n ≠ .master 2 ∧ b.pics.Pending n ∧
      ∀ m, m ≠ .master 2 → (b'.pics.Pending m ↔ m ≠ n ∧ b.pics.Pending m) := by
  have hstep1 : Step behind behindShift b { b with accepted := true } := .accept ha hr
  have hstep2 : Step behind behindShift { b with accepted := true }
      (Board.acknowledge { b with accepted := true }) := .acknowledge rfl
  have H2 := (H.step hstep1).step hstep2
  obtain ⟨n, hn⟩ := Option.isSome_iff_exists.mp (H.remapped.next_isSome hr)
  obtain ⟨hn2, hp⟩ := H.remapped.next_pending hn
  obtain ⟨b', hs, hserved, hpend⟩ := H2.exists_finish behind behindShift rfl
  refine ⟨b', n, .head hstep1 (.head hstep2 hs), ⟨hserved.acts, hserved.accepted, hserved.edges,
    hserved.withdrawn⟩, hn2, hp, fun m hm => (hpend m hm).trans ?_⟩
  refine (H.remapped.pending_acknowledge hm).trans (and_congr_left fun _ => ?_)
  rw [hn, ne_eq, Option.some.injEq, eq_comm]

/-- The requests on the lines `l` are served one after the other. -/
theorem Sound.exists_drained (behind behindShift : Nat → UInt8) {k : Nat} {l : List Line}
    (hl : l.length = k) (H : Sound b) (ha : b.acts = []) (hacc : b.accepted = false)
    (hmem : ∀ n, n ≠ .master 2 → b.pics.Pending n → n ∈ l) :
    ∃ b', Steps behind behindShift b b' ∧ Served b b' ∧
      ∀ n, n ≠ .master 2 → ¬b'.pics.Pending n := by
  induction k generalizing b l with
  | zero =>
    rw [List.length_eq_zero_iff.mp hl] at hmem
    exact ⟨b, .refl, ⟨ha, hacc, rfl, rfl⟩, fun n hn hp => absurd (hmem n hn hp) List.not_mem_nil⟩
  | succ k ih =>
    by_cases hr : b.pics.master.request.isSome
    · obtain ⟨c, n, hs, hserved, hn, hp, hpend⟩ := H.exists_round behind behindShift ha hr
      have hlength : (l.erase n).length = k := by
        rw [List.length_erase_of_mem (hmem n hn hp), hl, Nat.add_sub_cancel]
      obtain ⟨b', hs', hserved', hnone⟩ := ih hlength (H.steps hs) hserved.acts hserved.accepted
        fun m hm hp' => by
          obtain ⟨hne, hp'⟩ := (hpend m hm).mp hp'
          exact (List.mem_erase_of_ne hne).mpr (hmem m hm hp')
      exact ⟨b', hs.trans hs', ⟨hserved'.acts, hserved'.accepted,
        hserved'.edges.trans hserved.edges, hserved'.withdrawn.trans hserved.withdrawn⟩, hnone⟩
    · refine ⟨b, .refl, ⟨ha, hacc, rfl, rfl⟩, fun n hn hp => hr ?_⟩
      exact (H.remapped.request_iff (H.clear ha)).mpr ⟨n, hn, hp⟩

/-- **Every request can be served.** When the lines are quiet, the handlers in progress end and one
interrupt after the other serves all requests, each once. -/
theorem Run.settles (h : Run behind behindShift b) (hacc : b.accepted = false) :
    ∃ b', Steps behind behindShift b b' ∧ Served b b' ∧ ∀ n, n ≠ .master 2 →
      ¬b'.pics.Pending n ∧ b'.served n = b.served n + if b.pics.Pending n then 1 else 0 := by
  have H := h.sound
  obtain ⟨c, hs, hserved, hpend⟩ := H.exists_finish behind behindShift hacc
  obtain ⟨b', hs', hserved', hnone⟩ := (H.steps hs).exists_drained behind behindShift rfl
    hserved.acts hserved.accepted
    (l := (List.finRange 8).map .master ++ (List.finRange 8).map .slave)
    fun n _ _ => by cases n <;> simp
  have hsteps := hs.trans hs'
  refine ⟨b', hsteps, ⟨hserved'.acts, hserved'.accepted, hserved'.edges.trans hserved.edges,
    hserved'.withdrawn.trans hserved.withdrawn⟩, fun n hn => ⟨hnone n hn, ?_⟩⟩
  -- the edges of the line are all accounted for
  have h1 := H.counted n hn
  have h2 := (H.steps hsteps).counted n hn
  rw [hserved'.edges, hserved.edges, hserved'.withdrawn, hserved.withdrawn,
    if_neg (hnone n hn)] at h2
  omega

theorem Run.settles_timer : ∃ b', Served ((Board.boot biosPics none).raise (.master 0)) b' ∧
    b'.served (.master 0) = 1 := by
  have h := (@Run.boot (fun _ => 0) (fun _ => 0) biosPics none).step
    (.raise (n := .master 0) (by decide) (by decide))
  obtain ⟨b', -, hserved, hall⟩ := h.settles rfl
  refine ⟨b', hserved, (hall (.master 0) (by decide)).2.trans ?_⟩
  have hp : ((Board.boot biosPics none).raise (.master 0)).pics.Pending (.master 0) :=
    Finset.mem_insert_self _ _
  rw [if_pos hp]
  rfl

end Board
end Coronel
