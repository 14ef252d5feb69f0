import Coronel.Kernel.Syscall
import Coronel.Verify.Interrupts

/-!
# The system call stub

What `syscall_handler` would be passed and what `iretq` restores. The stub loads `ds` through `ax`
before it moves `rax` to `rdi`, so the first argument has lost the low bits of the system call's
number.
-/

namespace Coronel

open Theory

/-- A function of the System V ABI: it keeps the stack of its caller and the registers that belong to
the caller. -/
structure SysV (handler : Cpu → Cpu) : Prop where
  rsp : ∀ s, (handler s).rsp = s.rsp
  stack : ∀ s, ∀ i < 21, (handler s).mem (s.rsp + 8 * i) = s.mem (s.rsp + 8 * i)
  saved : ∀ s, ∀ r ∈ [Gpr.rbx, .rbp, .r12, .r13, .r14, .r15], (handler s).gpr r = s.gpr r

/-- `p` passes the arguments of the interrupted state `s`. -/
structure Marshals (s p : Cpu) : Prop where
  rdi : p.gpr .rdi = s.gpr .rax
  rsi : p.gpr .rsi = s.gpr .rbx
  rdx : p.gpr .rdx = s.gpr .rcx
  rcx : p.gpr .rcx = s.gpr .rdx

/-- When `q` is where the call returns to, `iretq` resumes `s` with the result in `rax`. -/
def Resumes (s q : Cpu) (stack : Nat) : Prop :=
  ∃ e s', q.syscallReturn = some e ∧ e.exec id .iretq = some s' ∧
    e.rsp = stack / 16 * 16 - 40 ∧ Holds e.mem e.rsp [s.rip, s.cs, s.rflags, s.rsp, s.ss] ∧
    e.ds = s.ds ∧ (∀ r, e.gpr r = if r = .rax then q.gpr .rax else s.gpr r) ∧
    s'.rip = s.rip ∧ s'.rsp = s.rsp ∧ s'.ds = s.ds ∧
    ∀ r, s'.gpr r = if r = .rax then q.gpr .rax else s.gpr r

/-- What the stub is for. -/
def SyscallCorrect (s : Cpu) (stack : Nat) : Prop :=
  ∃ p, s.syscallPoint stack = some p ∧ Marshals s p ∧
    ∀ handler, SysV handler → Resumes s (handler p) stack

/-- The registers in the order in which the stub pushes them. -/
def pushedRegs : List Gpr := [.rax, .rbx, .rcx, .rdx, .rsi, .rdi, .rbp, .r8, .r9, .r10, .r11, .r12,
  .r13, .r14, .r15]

/-- The registers in the order in which the stub pops them. -/
def poppedRegs : List Gpr := [.r15, .r14, .r13, .r12, .r11, .r10, .r9, .r8, .rbp, .rdi, .rsi, .rdx,
  .rcx, .rbx]

/-- The loads behind the saved registers. -/
def marshal : List Instr := [.movImmAx 0x10, .movAxDs, .movEs, .mov .rdx .r8, .mov .rax .rdi,
  .mov .rbx .rsi, .mov .rcx .rdx, .mov .r8 .rcx]

theorem syscallEntry_eq : syscallEntry =
    .cli :: (pushedRegs.map .push ++ .movDsAx :: .push .rax :: marshal) := rfl

theorem syscallExit_eq : syscallExit = .pop .rbx :: .movBxDs :: .movEs ::
    (poppedRegs.map .pop ++ [.addRsp 8, .sti]) := rfl

theorem reverse_pushedRegs : pushedRegs.reverse = poppedRegs ++ [.rax] := rfl

theorem mem_poppedRegs {r : Gpr} : r ∈ poppedRegs ↔ r ≠ .rax := by cases r <;> decide

section
variable {s p q : Cpu} {stack : Nat} {handler : Cpu → Cpu}

/-! ### Entry -/

/-- The frame of the processor. -/
theorem deliverSyscall_run (hroom : Room s.mem (stack / 16 * 16) 22) : ∃ s',
    s.deliverSyscall stack = some s' ∧ s'.gpr = s.gpr ∧ s'.ds = s.ds ∧
      Stacked (stack / 16 * 16) (s.mem 0) s' [s.rip, s.cs, s.rflags, s.rsp, s.ss] 16 := by
  have hlow := (hroom 21 (by decide)).1
  have H0 : Stacked (stack / 16 * 16) (s.mem 0) { s with rsp := stack / 16 * 16 } [] 21 :=
    ⟨rfl, trivial, fun i hi => hroom i (by omega), rfl, by simp only; omega⟩
  obtain ⟨s1, r1, heq1, H1⟩ := H0.pushWord s.ss
  obtain ⟨s2, r2, heq2, H2⟩ := H1.pushWord s.rsp
  obtain ⟨s3, r3, heq3, H3⟩ := H2.pushWord s.rflags
  obtain ⟨s4, r4, heq4, H4⟩ := H3.pushWord s.cs
  obtain ⟨s5, r5, heq5, H5⟩ := H4.pushWord s.rip
  have hgpr : s5.gpr = s.gpr := by rw [heq5, heq4, heq3, heq2, heq1]
  have hds : s5.ds = s.ds := by rw [heq5, heq4, heq3, heq2, heq1]
  rw [Cpu.deliverSyscall]
  simp only [r1, r2, r3, r4, r5, Option.bind_eq_bind, Option.bind_some]
  exact ⟨_, rfl, hgpr, hds, ⟨H5.rsp, H5.holds, H5.room, H5.null, H5.low⟩⟩

/-- `ax` is loaded before `rax` is moved. -/
theorem marshal_run (s : Cpu) : ∃ p, s.run handler marshal = some p ∧ p.rsp = s.rsp ∧
    p.mem = s.mem ∧ p.gpr .rdi = s.gpr .rax / 2 ^ 16 * 2 ^ 16 + 0x10 ∧ p.gpr .rsi = s.gpr .rbx ∧
    p.gpr .rdx = s.gpr .rcx ∧ p.gpr .rcx = s.gpr .rdx := by
  refine ⟨_, rfl, rfl, rfl, ?_⟩
  simp [Cpu.setGpr, Function.update]

/-- The state at the call: the arguments are in their registers but for the low bits of the first,
and the registers and the segment are on the stack. -/
theorem syscallPoint_run (hroom : Room s.mem (stack / 16 * 16) 22) : ∃ p,
    s.syscallPoint stack = some p ∧ p.rsp + 8 * 21 = stack / 16 * 16 ∧
      Holds p.mem p.rsp ((s.gpr .rax / 2 ^ 16 * 2 ^ 16 + s.ds.toNat) ::
        (poppedRegs.map s.gpr ++ [s.gpr .rax, s.rip, s.cs, s.rflags, s.rsp, s.ss])) ∧
      p.gpr .rdi = s.gpr .rax / 2 ^ 16 * 2 ^ 16 + 0x10 ∧ p.gpr .rsi = s.gpr .rbx ∧
      p.gpr .rdx = s.gpr .rcx ∧ p.gpr .rcx = s.gpr .rdx := by
  obtain ⟨s1, r1, hgpr1, hds1, H1⟩ := deliverSyscall_run hroom
  obtain ⟨s2, r2, heq2⟩ := @Cpu.cli_run id s1
  have hgpr2 : s2.gpr = s.gpr := by rw [heq2, hgpr1]
  have hds2 : s2.ds = s.ds := by rw [heq2, hds1]
  obtain ⟨s3, r3, heq3, H3⟩ := @Cpu.run_push _ 1 _ _ _ id pushedRegs (H1.cli heq2)
  have hgpr3 : s3.gpr = s.gpr := by rw [heq3, hgpr2]
  have hds3 : s3.ds = s.ds := by rw [heq3, hds2]
  rw [hgpr2, ← List.map_reverse, reverse_pushedRegs] at H3
  -- the segment, under the upper bits of `rax`
  obtain ⟨ds, hds⟩ : ∃ ds, ds = s.gpr .rax / 2 ^ 16 * 2 ^ 16 + s.ds.toNat := ⟨_, rfl⟩
  obtain ⟨s4, hs4⟩ : ∃ s4, s4 = s3.setGpr .rax ds := ⟨_, rfl⟩
  have r4 : s3.exec id .movDsAx = some s4 := by rw [Cpu.exec, hs4, hgpr3, hds3, hds]
  have hrax4 : s4.gpr .rax = ds := by rw [hs4, Cpu.setGpr_self]
  have H4 : Stacked (stack / 16 * 16) (s.mem 0) s4
      ((poppedRegs ++ [Gpr.rax]).map s.gpr ++ [s.rip, s.cs, s.rflags, s.rsp, s.ss]) 1 := by
    rw [hs4]
    exact ⟨H3.rsp, H3.holds, H3.room, H3.null, H3.low⟩
  obtain ⟨s5, r5, heq5, H5⟩ := H4.pushWord ds
  have r5 : s4.exec id (.push .rax) = some s5 := by rw [Cpu.exec, hrax4, r5]
  obtain ⟨p, r6, hrsp, hmem, hrdi, hrsi, hrdx, hrcx⟩ := @marshal_run id s5
  have hgpr5 : s5.gpr = s4.gpr := by rw [heq5]
  have hother : ∀ r ≠ Gpr.rax, s4.gpr r = s.gpr r := fun r hr => by
    rw [hs4, Cpu.setGpr_of_ne _ _ hr, hgpr3]
  have hupper : ds / 2 ^ 16 = s.gpr .rax / 2 ^ 16 := by
    have := s.ds.toNat_lt
    omega
  refine ⟨p, ?_, ?_, ?_, ?_, ?_, ?_, ?_⟩
  · rw [Cpu.syscallPoint, r1, Option.bind_eq_bind, Option.bind_some, syscallEntry_eq,
      Cpu.run_cons r2, Cpu.run_append r3, Cpu.run_cons r4, Cpu.run_cons r5, r6]
  · rw [hrsp]
    exact H5.rsp
  · rw [hrsp, hmem, ← hds]
    have hholds := H5.holds
    rwa [List.map_append, List.append_assoc] at hholds
  · rw [hrdi, hgpr5, hrax4, hupper]
  · rw [hrsi, hgpr5, hother .rbx (by decide)]
  · rw [hrdx, hgpr5, hother .rcx (by decide)]
  · rw [hrcx, hgpr5, hother .rdx (by decide)]

/-! ### Exit -/

/-- The stub restores what it saved, with the result in `rax`. -/
theorem syscallReturn_run {ds rax : Nat} {g : Gpr → Nat} {ws : List Nat}
    (h : Holds q.mem q.rsp (ds :: (poppedRegs.map g ++ rax :: ws))) : ∃ e,
    q.syscallReturn = some e ∧ e.rsp = q.rsp + 8 * 16 ∧ Holds e.mem e.rsp ws ∧ e.ds = .ofNat ds ∧
      ∀ r, e.gpr r = if r = .rax then q.gpr .rax else g r := by
  obtain ⟨h1, h2⟩ := h
  obtain ⟨s1, hs1⟩ : ∃ s1, s1 = ({ q with rsp := q.rsp + 8 } : Cpu).setGpr .rbx ds := ⟨_, rfl⟩
  have r1 : q.exec id (.pop .rbx) = some s1 := by
    rw [Cpu.exec, Cpu.popWord, h1, hs1]
    rfl
  obtain ⟨s2, hs2⟩ : ∃ s2, s2 = { s1 with ds := .ofNat ds } := ⟨_, rfl⟩
  have r2 : s1.exec id .movBxDs = some s2 := by rw [Cpu.exec, hs2, hs1, Cpu.setGpr_self]
  have hes : s2.exec id .movEs = some s2 := rfl
  obtain ⟨s3, r3, heq3, hgpr3, h3⟩ := @Cpu.run_pop s2 (rax :: ws) id poppedRegs g (by
    rw [hs2, hs1]
    exact h2)
  -- the saved `rax` is skipped
  obtain ⟨e, he⟩ : ∃ e, e = { s3 with rsp := s3.rsp + 8, rflags := s3.rflags ||| 0x200 } :=
    ⟨_, rfl⟩
  have r4 : s3.run id [.addRsp 8, .sti] = some e := by
    rw [he]
    rfl
  refine ⟨e, ?_, ?_, ?_, ?_, fun r => ?_⟩
  · rw [Cpu.syscallReturn, syscallExit_eq, Cpu.run_cons r1, Cpu.run_cons r2,
      Cpu.run_cons hes, Cpu.run_append r3, r4]
  · rw [he, heq3, hs2, hs1]
    rfl
  · rw [he]
    exact h3.2
  · rw [he, heq3, hs2]
  · have hrax : s2.gpr .rax = q.gpr .rax := by
      rw [hs2, hs1, Cpu.setGpr_of_ne _ _ (by decide)]
    have hgpr : e.gpr r = if r ∈ poppedRegs then g r else s2.gpr r := by
      rw [he]
      exact hgpr3 r
    rw [hgpr]
    by_cases hr : r = .rax
    · rw [if_pos hr, if_neg (by rw [mem_poppedRegs, not_not]; exact hr), hr, hrax]
    · rw [if_neg hr, if_pos (mem_poppedRegs.mpr hr)]

/-- Whatever the arguments, the interrupted state is resumed. -/
theorem resumes_of_sysV (hh : SysV handler) (hrsp : p.rsp + 8 * 21 = stack / 16 * 16)
    (h : Holds p.mem p.rsp ((s.gpr .rax / 2 ^ 16 * 2 ^ 16 + s.ds.toNat) ::
      (poppedRegs.map s.gpr ++ [s.gpr .rax, s.rip, s.cs, s.rflags, s.rsp, s.ss]))) :
    Resumes s (handler p) stack := by
  have hkept := @Holds.congr _ (handler p).mem _ _ h fun i hi => hh.stack p i hi
  rw [← hh.rsp p] at hkept
  obtain ⟨e, hrun, hrspe, hframe, hds, hgpr⟩ := syscallReturn_run hkept
  obtain ⟨s', hrun', hgpr', hrip, hrsp', -, hds'⟩ := @Cpu.iretq_run _ id _ _ _ _ _ hframe
  have hsegment : e.ds = s.ds := by
    have hlt := s.ds.toNat_lt
    apply UInt16.toNat_inj.mp
    rw [hds, UInt16.toNat_ofNat']
    omega
  refine ⟨e, s', hrun, hrun', ?_, hframe, hsegment, hgpr, hrip, hrsp', hds'.trans hsegment,
    fun r => ?_⟩
  · rw [hrspe, hh.rsp, ← hrsp]
    omega
  · rw [hgpr', hgpr]

/-- **System calls** are passed on and preserved exactly when the low bits of `rax` are those that the
stub loads for `ds`. -/
theorem syscallCorrect_iff (hroom : Room s.mem (stack / 16 * 16) 22) :
    SyscallCorrect s stack ↔ s.gpr .rax % 2 ^ 16 = 0x10 := by
  obtain ⟨p, hrun, hrsp, hholds, hrdi, hrsi, hrdx, hrcx⟩ := syscallPoint_run hroom
  constructor
  · rintro ⟨p', hrun', hm, -⟩
    obtain rfl : p = p' := Option.some.inj (hrun.symm.trans hrun')
    have := hrdi.symm.trans hm.rdi
    omega
  · intro hlow
    refine ⟨p, hrun, ⟨?_, hrsi, hrdx, hrcx⟩, fun handler hh => resumes_of_sysV hh hrsp hholds⟩
    rw [hrdi]
    omega

theorem room_sampleCpu_syscall : Room sampleCpu.mem (8192 / 16 * 16) 22 :=
  fun i hi => room_sampleCpu i (by omega)

/-- System call 16. -/
theorem syscallCorrect_iff_sixteen : ∃ s : Cpu, Room s.mem (8192 / 16 * 16) 22 ∧
    s.gpr .rax = 16 ∧ SyscallCorrect s 8192 := by
  obtain ⟨s, hs⟩ : ∃ s, s = sampleCpu.setGpr .rax 16 := ⟨_, rfl⟩
  have hroom : Room s.mem (8192 / 16 * 16) 22 := by
    rw [hs]
    exact room_sampleCpu_syscall
  have hrax : s.gpr .rax = 16 := by rw [hs, Cpu.setGpr_self]
  exact ⟨s, hroom, hrax, (syscallCorrect_iff hroom).mpr (by omega)⟩

/-- System call 7 arrives as 16. -/
theorem not_syscallCorrect : ¬∀ s : Cpu, Room s.mem (s.rsp / 16 * 16) 22 → SyscallCorrect s s.rsp := by
  intro h
  obtain ⟨p, hrun, hm, -⟩ := h sampleCpu room_sampleCpu_syscall
  obtain ⟨p', hrun', -, -, hrdi, -⟩ := syscallPoint_run room_sampleCpu_syscall
  obtain rfl : p = p' := Option.some.inj (hrun.symm.trans hrun')
  exact absurd (hrdi.symm.trans hm.rdi) (by decide)

end
end Coronel
