import Coronel.Kernel.Interrupts

/-!
# Interrupt entry and exit

What `interrupt_handler` receives and what `iretq` restores. The exception handler loads `r15`
before it saves it, and the stubs of the exceptions without an error code push the memory at
address 0 in its place.
-/

namespace Coronel

open Theory

/-- The frame `f` shows the interrupted state `s`, and `view` of its `ds` field the segment. -/
structure Shows (view : Nat → Nat) (s : Cpu) (v : Vector) (errorCode : Nat) (f : InterruptT) :
    Prop where
  ds : view f.registers.ds = s.ds.toNat
  gpr : ∀ r, f.registers.gpr r = s.gpr r
  intNo : f.intNo = v.number
  errorCode : f.errorCode = if v.pushesErrorCode then errorCode else 0

namespace Cpu

@[simp] theorem setGpr_self (s : Cpu) (r : Gpr) (w : Nat) : (s.setGpr r w).gpr r = w :=
  Function.update_self ..

theorem setGpr_of_ne {r r' : Gpr} (s : Cpu) (w : Nat) (h : r' ≠ r) :
    (s.setGpr r w).gpr r' = s.gpr r' := Function.update_of_ne h ..

end Cpu

/-! ### Stack -/

/-- The words `ws` are on the stack `top`, which has room for `n` more; the word at address 0 is
`null`. -/
structure Stacked (top : Nat) (null : Option Nat) (s : Cpu) (ws : List Nat) (n : Nat) : Prop where
  rsp : s.rsp + 8 * ws.length = top
  holds : Holds s.mem s.rsp ws
  room : Room s.mem s.rsp n
  null : s.mem 0 = null
  low : 8 * n < s.rsp

section
variable {top n w stack errorCode : Nat} {null : Option Nat} {s s' : Cpu} {ws us : List Nat}
  {handler : Cpu → Cpu} {rs : List Gpr} {code code' : List Instr} {v : Vector}

namespace Stacked

theorem pushWord (H : Stacked top null s ws (n + 1)) (w : Nat) : ∃ s', s.pushWord w = some s' ∧
    s' = { s with rsp := s'.rsp, mem := s'.mem } ∧ Stacked top null s' (w :: ws) n := by
  obtain ⟨h1, h2⟩ := H.room 0 (by omega)
  have h3 := H.low
  have h4 := H.rsp
  refine ⟨{ s with rsp := s.rsp - 8, mem := Function.update s.mem (s.rsp - 8) (some w) }, ?_, rfl,
    ?_, H.holds.push h1, H.room.push, ?_, ?_⟩
  · rw [Cpu.pushWord, if_pos ⟨h1, Option.isSome_iff_ne_none.mpr h2⟩]
  · simp only [List.length_cons]
    omega
  · rw [← H.null]
    exact Function.update_of_ne (by omega) ..
  · simp only
    omega

theorem cli (H : Stacked top null s ws n) (h : s' = { s with rflags := s'.rflags }) :
    Stacked top null s' ws n := by
  rw [h]
  exact ⟨H.rsp, H.holds, H.room, H.null, H.low⟩

end Stacked

/-! ### Instruction sequences -/

namespace Cpu

theorem run_cons {i : Instr} (h : s.exec handler i = some s') :
    s.run handler (i :: code) = s'.run handler code := by
  rw [run, List.foldlM_cons, h]
  rfl

theorem run_append (h : s.run handler code = some s') :
    s.run handler (code ++ code') = s'.run handler code' := by
  rw [run, List.foldlM_append, ← run, h]
  rfl

theorem run_push (H : Stacked top null s ws (rs.length + n)) : ∃ s',
    s.run handler (rs.map .push) = some s' ∧ s' = { s with rsp := s'.rsp, mem := s'.mem } ∧
      Stacked top null s' ((rs.map s.gpr).reverse ++ ws) n := by
  induction rs generalizing s ws with
  | nil => exact ⟨s, rfl, rfl, by simpa using H⟩
  | cons r rs ih =>
    rw [List.length_cons, Nat.add_right_comm] at H
    obtain ⟨s1, h1, heq1, H1⟩ := H.pushWord (s.gpr r)
    obtain ⟨s2, h2, heq2, H2⟩ := ih H1
    have hgpr : s1.gpr = s.gpr := by rw [heq1]
    refine ⟨s2, ?_, by rw [heq2, heq1], ?_⟩
    · rw [List.map_cons, run_cons (by exact h1)]
      exact h2
    · rw [hgpr] at H2
      simpa using H2

theorem run_pop {g : Gpr → Nat} (h : Holds s.mem s.rsp (rs.map g ++ ws)) : ∃ s',
    s.run handler (rs.map .pop) = some s' ∧
      s' = { s with rsp := s.rsp + 8 * rs.length, gpr := s'.gpr } ∧
      (∀ r, s'.gpr r = if r ∈ rs then g r else s.gpr r) ∧ Holds s'.mem s'.rsp ws := by
  induction rs generalizing s with
  | nil => exact ⟨s, rfl, rfl, fun _ => rfl, h⟩
  | cons r rs ih =>
    obtain ⟨h1, h2⟩ := h
    obtain ⟨s1, hs1⟩ : ∃ s1, s1 = ({ s with rsp := s.rsp + 8 } : Cpu).setGpr r (g r) := ⟨_, rfl⟩
    have hexec : s.exec handler (.pop r) = some s1 := by
      rw [hs1, exec, popWord, h1]
      rfl
    obtain ⟨s2, h3, heq, hgpr, h4⟩ := ih (s := s1) (by rw [hs1]; exact h2)
    refine ⟨s2, ?_, ?_, fun r' => ?_, h4⟩
    · rw [List.map_cons, run_cons hexec]
      exact h3
    · rw [heq, hs1, setGpr, List.length_cons]
      simp only [Cpu.mk.injEq, and_true, true_and]
      omega
    · rw [hgpr]
      by_cases hr : r' ∈ rs
      · rw [if_pos hr, if_pos (List.mem_cons_of_mem r hr)]
      · rw [if_neg hr, hs1, setGpr]
        by_cases heq : r' = r
        · rw [if_pos (heq ▸ List.mem_cons_self), heq]
          exact Function.update_self ..
        · rw [if_neg (by simp [heq, hr])]
          exact Function.update_of_ne heq ..

theorem cli_run (s : Cpu) : ∃ s', s.exec handler .cli = some s' ∧
    s' = { s with rflags := s'.rflags } := ⟨_, rfl, rfl⟩

theorem iretq_run {rip cs rflags rsp ss : Nat} (h : Holds s.mem s.rsp [rip, cs, rflags, rsp, ss]) :
    ∃ s', s.exec handler .iretq = some s' ∧ s'.gpr = s.gpr ∧ s'.rip = rip ∧ s'.rsp = rsp ∧
      s'.received = s.received ∧ s'.ds = s.ds := by
  obtain ⟨h1, h2, h3, h4, h5, -⟩ := h
  refine ⟨{ s with rip, cs, rflags, rsp, ss }, ?_, rfl, rfl, rfl, rfl, rfl⟩
  simp [exec, popWord, h1, h2, h3, h4, h5]

end Cpu

/-- What the handler receives and what is left after `iretq`, when the general registers are `g`
and the error code on the stack is `err`. -/
structure Handled (s : Cpu) (v : Vector) (g : Gpr → Nat) (err : Nat) (s' : Cpu) (f : InterruptT) :
    Prop where
  received : s'.received = some f
  ds : f.registers.ds = s.gpr .rax / 2 ^ 16 * 2 ^ 16 + s.ds.toNat
  frame : ∀ r, f.registers.gpr r = g r
  intNo : f.intNo = v.number
  errorCode : f.errorCode = err
  gpr : ∀ r, s'.gpr r = g r
  rip : s'.rip = s.rip
  rsp : s'.rsp = s.rsp

/-- What is served is what was interrupted, when the general registers and the error code are. -/
theorem Handled.shows_iff {f : InterruptT} {g : Gpr → Nat} {err : Nat} {view : Nat → Nat}
    (h : Handled s v g err s' f) : (Shows view s v errorCode f ∧ (∀ r, s'.gpr r = s.gpr r) ∧
      s'.rip = s.rip ∧ s'.rsp = s.rsp) ↔ (∀ r, g r = s.gpr r) ∧
        err = (if v.pushesErrorCode then errorCode else 0) ∧
        view (s.gpr .rax / 2 ^ 16 * 2 ^ 16 + s.ds.toNat) = s.ds.toNat := by
  constructor
  · rintro ⟨hs, hg, -⟩
    exact ⟨fun r => (h.gpr r).symm.trans (hg r), h.errorCode ▸ hs.errorCode, h.ds ▸ hs.ds⟩
  · rintro ⟨hg, herr, hds⟩
    exact ⟨⟨h.ds ▸ hds, fun r => (h.frame r).trans (hg r), h.intNo, h.errorCode.trans herr⟩,
      fun r => (h.gpr r).trans (hg r), h.rip, h.rsp⟩

end

/-- A processor with 7 in every register and zeroed memory. -/
def sampleCpu : Cpu where
  gpr := fun _ => 7
  rsp := 8192
  rip := 7
  cs := 8
  rflags := 0x202
  ss := 0x10
  ds := 0x10
  mem := fun _ => some 0
  received := none

theorem room_sampleCpu : Room sampleCpu.mem (8192 / 16 * 16) 23 :=
  fun i hi => ⟨by omega, by simp [sampleCpu]⟩

end Coronel
