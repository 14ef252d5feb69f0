import Coronel.Verify.BootHeap

/-!
# Placement memory and the managed frames

Boot puts the managers' objects and one node for each managed frame behind the kernel image, one
behind the other; afterwards each frame that is given back takes a node more. So the watermark is
known exactly, and with it when placement memory has run into the frames that are managed.
-/

namespace Coronel

open Theory

namespace MemoryManager

/-- Placement memory was reserved in one pile since `s₀`. -/
def Piled (s₀ s : Machine) : Prop :=
  ∃ rs, s.reserved = rs ++ s₀.reserved ∧ Laid 4096 s₀.placement rs s.placement

section
variable {bootinfo : MultibootInfo} {found : FreeMemory} {s₀ s s' s'' : Machine}
  {start len size place k n mark : Nat} {align : Bool} {handed : List Nat} {u : Unit}

/-! ### The pile -/

theorem Piled.refl (s : Machine) : Piled s s := ⟨[], rfl, .nil⟩

theorem Piled.trans (h : Piled s s') (h' : Piled s' s'') : Piled s s'' := by
  obtain ⟨rs, hrs, hl⟩ := h
  obtain ⟨rs', hrs', hl'⟩ := h'
  exact ⟨rs' ++ rs, by rw [hrs', hrs, List.append_assoc], hl.trans hl'⟩

/-- Other fields do not matter. -/
theorem Piled.congr (h : Piled s₀ s) (hr : s'.reserved = s.reserved)
    (hp : s'.placement = s.placement) : Piled s₀ s' := by
  rwa [Piled, hr, hp]

/-- A node of the free list. -/
theorem Piled.free {m : Physical} {f : Nat} (hm : s.gPhysicalManager = some m) (hf : f % 4096 = 0)
    (hlt : f < m.physicalEnd) (h : (Physical.free f).run s = (.ok (), s')) :
    Piled s s' ∧ s'.placement = s.placement + 16 ∧ s'.placement + 4095 < 2 ^ 64 ∧
      ∃ m', s'.gPhysicalManager = some m' ∧ m'.physicalEnd = m.physicalEnd := by
  have hkv := kvirtualAddress_eq
  have hgb := directMapSize_eq
  obtain ⟨p, hp, hroom, rfl⟩ := Physical.free_run_push hm hf hlt h
  have hmark : kvirtualAddress + (p + 16) = s.placement + 16 := by omega
  refine ⟨⟨[⟨s.placement, 16⟩], rfl, ?_⟩, hmark, by simp only; omega, _, rfl, rfl⟩
  simp only [hmark]
  exact Laid.nil.here 16

theorem Piled.freeFrames {m : Physical} {addr : Nat} (hm : s.gPhysicalManager = some m)
    (haddr : addr % 4096 = 0) (hend : addr + 4096 * n ≤ m.physicalEnd)
    (hwrap : s.placement + 4095 < 2 ^ 64)
    (h : (Physical.freeFrames n addr).run s = (.ok (), s')) : Piled s s' ∧
      s'.placement = s.placement + 16 * n ∧ s'.placement + 4095 < 2 ^ 64 := by
  induction n generalizing addr s m with
  | zero =>
    cases h
    exact ⟨.refl _, rfl, hwrap⟩
  | succ n ih =>
    rw [Physical.freeFrames, Prog.run_bind_eq_ok] at h
    obtain ⟨_, s1, h1, h2⟩ := h
    obtain ⟨hp1, hpl1, hw1, m1, hm1, hend1⟩ := Piled.free hm haddr (by omega) h1
    obtain ⟨hp2, hpl2, hw2⟩ := ih hm1 (by simp only [frameSize]; omega)
      (by simp only [frameSize]; omega) hw1 h2
    exact ⟨hp1.trans hp2, by omega, hw2⟩

/-- The loop of `setup`, by its bounds. -/
theorem Piled.setup_loop {m : Physical} {g first stop : Nat} (hm : s.gPhysicalManager = some m)
    (hfirst : first % 4096 = 0) (hend : g ≤ stop) (hwrap : s.placement + 4095 < 2 ^ 64)
    (h : ((do
      Physical.setManager { (← Physical.manager) with physicalEnd := stop }
      Physical.freeFrames ((g - first) / frameSize) first) : Kernel Unit).run s = (.ok (), s')) :
    Piled s s' ∧ s'.placement + 4095 < 2 ^ 64 := by
  rw [Prog.run_bind_ok (Physical.manager_run hm), Prog.run_bind_eq_ok] at h
  obtain ⟨_, s1, h1, h⟩ := h
  obtain ⟨hres, hpl, m1, hm1, hend1⟩ : s1.reserved = s.reserved ∧ s1.placement = s.placement ∧
      ∃ m, s1.gPhysicalManager = some m ∧ m.physicalEnd = stop := by
    cases h1
    exact ⟨rfl, rfl, _, rfl, rfl⟩
  have hp1 : Piled s s1 := (Piled.refl s).congr hres hpl
  obtain ⟨n, hn⟩ : ∃ n, n = (g - first) / frameSize := ⟨_, rfl⟩
  rw [← hn] at h
  rw [frameSize] at hn
  by_cases hle : first ≤ g
  · obtain ⟨h2, -, h3⟩ := Piled.freeFrames hm1 hfirst (by omega) (by rwa [hpl]) h
    exact ⟨hp1.trans h2, h3⟩
  · obtain rfl : n = 0 := by omega
    cases h
    exact ⟨hp1, by rwa [hpl]⟩

theorem Piled.setup (hm : s.gPhysicalManager = some Physical.new)
    (hend : start + len + 4095 < 2 ^ 64) (hwrap : s.placement + 4095 < 2 ^ 64)
    (h : (Physical.setup start len).run s = (.ok (), s')) : Piled s s' ∧
      s'.placement = s.placement + 16 * frameCount start len ∧ s'.placement + 4095 < 2 ^ 64 := by
  refine and_left_comm.mp ⟨setup_watermark hm hend h, ?_⟩
  have hstop : add64 start len = start + len := add64_eq (by omega)
  have hdown : alignDown (start + len) ≤ start + len := by
    rw [alignDown_eq (by omega)]
    omega
  rw [Physical.setup_eq, hstop] at h
  exact Piled.setup_loop hm (alignUp_mod start) hdown hwrap h

end
end MemoryManager
end Coronel
