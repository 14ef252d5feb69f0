import Coronel.Verify.UserRuns

/-!
# The limit of a user heap

`set_heap_limit` records a limit and refuses one below the heap. `expand_heap` compares with the end
of the user heap instead, so a request that has to grow the heap passes the limit whenever there are
pages for it.
-/

namespace Coronel

open Theory Theory.Bytes

namespace UserAllocator

/-- The states a heap reaches when limits are set and every call meets `ok`. The first index is where
the last limit that was accepted ends, at first the end of the user heap. -/
inductive LimitedRun (ok : Nat → UserAllocator → Machine → Call → Prop) (W : Nat)
    (heap₀ : UserAllocator) : Nat → List Nat → UserAllocator → Machine → List Nat → Prop
  | create {dirs s s'} : Space W dirs [] s → (new s.cr3).run s = (.ok heap₀, s') →
    s' ∈ Promise W → LimitedRun ok W heap₀ userHeapMaxAddr dirs heap₀ s' []
  | setLimit {limit dirs self s live m self'} : LimitedRun ok W heap₀ limit dirs self s live →
    m < 2 ^ 64 → self.setHeapLimit m = (true, self') →
    LimitedRun ok W heap₀ (self.heapStart + m) dirs self' s live
  | keepLimit {limit dirs self s live m self'} : LimitedRun ok W heap₀ limit dirs self s live →
    m < 2 ^ 64 → self.setHeapLimit m = (false, self') →
    LimitedRun ok W heap₀ limit dirs self' s live
  | call {limit dirs self s live call r self' s'} : LimitedRun ok W heap₀ limit dirs self s live →
    Passed live call → ok limit self s call → (self.call call).run s = (.ok (r, self'), s') →
    s' ∈ Promise W → LimitedRun ok W heap₀ limit dirs self' s' (Call.live live r call)
  | meanwhile {limit dirs dirs' self s live s'} : LimitedRun ok W heap₀ limit dirs self s live →
    Meanwhile W dirs' self live s s' → LimitedRun ok W heap₀ limit dirs' self s' live

/-- The call has to grow the heap past `limit`: it asks for bytes that no block holds. -/
def NeedsPast (limit : Nat) (self : UserAllocator) (s : Machine) (call : Call) : Prop :=
  ∃ bs n, Tiled self bs s ∧ Asks bs call n ∧ FreeList.firstFit (roundSize n) bs = none ∧
    limit < self.heapCurrent + growth n

/-- The call has to grow the heap past `limit`, and the pages stay below the end of the user heap and
can be had. -/
def GrowsPast (limit : Nat) (self : UserAllocator) (s : Machine) (call : Call) : Prop :=
  ∃ bs n, Tiled self bs s ∧ Asks bs call n ∧ FreeList.firstFit (roundSize n) bs = none ∧
    limit < self.heapCurrent + growth n ∧ self.heapCurrent + growth n ≤ userHeapMaxAddr ∧
    growth n / frameSize ≤ s.freeFrames.length

/-- The limit is kept, and a call that would have to pass it gets nothing and leaves the heap and its
list as they were. -/
structure Enforced (limit : Nat) (heap : UserAllocator) (s : Machine) (call : Call) (r : Nat)
    (heap' : UserAllocator) (s' : Machine) : Prop where
  below : heap'.heapCurrent ≤ limit
  refused : NeedsPast limit heap s call → r = 0 ∧ heap'.heapCurrent = heap.heapCurrent ∧
    ∀ bs, Tiled heap bs s → Tiled heap' bs s'

section
variable {W limit m n : Nat} {dirs : List Nat} {s s' : Machine} {heap₀ self self' : UserAllocator}
  {bs bs' : List Block} {live : List Nat} {r : Nat} {call : Call}

/-! ### Limits -/

theorem SamePlace.setHeapLimit (self : UserAllocator) (m : Nat) :
    SamePlace self (self.setHeapLimit m).2 := by
  rw [UserAllocator.setHeapLimit]
  split <;> exact ⟨rfl, rfl, rfl, rfl⟩

theorem SamePlace.of_setHeapLimit {b : Bool} (h : self.setHeapLimit m = (b, self')) :
    SamePlace self self' := by
  have := SamePlace.setHeapLimit self m
  rwa [h] at this

/-- An accepted limit does not wrap, and is not below the heap. -/
theorem setHeapLimit_true (hstart : self.heapStart ≤ self.heapCurrent)
    (hcur : self.heapCurrent ≤ userHeapMaxAddr) (hm : m < 2 ^ 64)
    (h : self.setHeapLimit m = (true, self')) :
    self.heapCurrent ≤ self.heapStart + m ∧ self.heapStart + m ≤ userHeapMaxAddr := by
  have hmax : userHeapMaxAddr = 2 ^ 30 := by decide
  rw [setHeapLimit] at h
  split at h
  · cases h
  next hno =>
    rw [add64] at hno
    omega

/-- The block list does not depend on the limit. -/
theorem Held.samePlace (h : Held W dirs self bs s live) (hp : SamePlace self self') :
    Held W dirs self' bs s live :=
  ⟨h.inv.samePlace hp, by rw [hp.pageDirectory, h.current], h.live⟩

/-! ### One call -/

/-- A call that asks for bytes and gets nothing leaves the list. -/
theorem After.list_eq {rest : List Page} {r : Nat × UserAllocator}
    (h : After W dirs self rest bs bs' call s r s') (hasks : Asks bs call n) (h0 : r.1 = 0) :
    bs' = bs := by
  have hserved : ∀ {k ptr bs''}, Served 24 k bs bs'' ptr → ptr = 0 → bs'' = bs := by
    intro k ptr bs'' hs hptr
    rcases hs.used_cases with ⟨-, h⟩ | ⟨_, c, _, -, -, hc, -⟩
    · exact h
    · omega
  obtain ⟨hn, -, hcall⟩ := hasks
  have hs := h.serves
  rw [h0] at hs
  cases hs with
  | malloc hs => exact hserved hs rfl
  | calloc hs => exact hserved hs rfl
  | reallocNull hs => exact hserved hs rfl
  | realloc hb hs =>
    cases hs with
    | freed hz => exact absurd (hcall.1.trans hz) hn
    | refused => rfl
    | moved _ _ hptr => exact absurd rfl hptr
  | freeNull => exact hcall.elim
  | free => exact hcall.elim

/-- The pages that the call needs past the limit can be had. -/
theorem growsPast_iff (ht : Tiled self bs s) : GrowsPast limit self s call ↔
    ∃ n, Asks bs call n ∧ Grows self s bs n ∧ limit < self.heapCurrent + growth n := by
  constructor
  · rintro ⟨bs', n, ht', hasks, hfit, hpast, hmax, hfree⟩
    obtain rfl := ht.eq ht'
    exact ⟨n, hasks, ⟨hasks.1, hasks.2.1, hfit, hmax, hfree⟩, hpast⟩
  · rintro ⟨n, hasks, ⟨-, -, hfit, hmax, hfree⟩, hpast⟩
    exact ⟨bs, n, ht, hasks, hfit, hpast, hmax, hfree⟩

/-- A call below the limit keeps it exactly when it does not grow the heap past it. -/
theorem Held.enforced_step_iff (h : Held W dirs self bs s live) (hlimit : self.heapCurrent ≤ limit)
    (hafter : After W dirs self [] bs bs' call s (r, self') s') :
    Enforced limit self s call r self' s' ↔ ¬GrowsPast limit self s call := by
  have htiled := h.inv.tiled h.current
  rw [growsPast_iff htiled]
  constructor
  · rintro henf ⟨n, hasks, hgrows, hpast⟩
    have hbelow := henf.below
    rcases hafter.extent n hasks with ⟨-, hcur⟩ | ⟨hno, -⟩
    · simp only at hcur
      omega
    · exact hno hgrows
  · intro hno
    refine ⟨?_, ?_⟩
    · by_cases hasks : ∃ n, Asks bs call n
      · obtain ⟨n, hasks⟩ := hasks
        rcases hafter.extent n hasks with ⟨hgrows, hcur⟩ | ⟨-, hcur, -⟩
        · by_contra hpast
          exact hno ⟨n, hasks, hgrows, by simp only at hcur; omega⟩
        · exact hcur.trans_le hlimit
      · exact (hafter.inPlace fun n hn => hasks ⟨n, hn⟩).trans_le hlimit
    · rintro ⟨bs', n, ht', hasks, hfit, hpast⟩
      obtain rfl := htiled.eq ht'
      rcases hafter.extent n hasks with ⟨hgrows, -⟩ | ⟨-, hcur, hnull⟩
      · exact absurd ⟨n, hasks, hgrows, hpast⟩ hno
      · have h0 := hnull hasks.1 hasks.2.1 hfit
        obtain rfl := hafter.list_eq hasks h0
        refine ⟨h0, hcur, fun bs hbs => ?_⟩
        obtain rfl := htiled.eq hbs
        have h' := h.step hafter
        exact h'.inv.tiled h'.current

/-- With room for the tables a request that grows the heap is served. -/
theorem Held.mallocGrown_run (h : Held W dirs self bs s live) (hg : Grows self s bs n)
    (hC : s ∈ Promise W) (hroom : s.placement + 4 * growth n ≤ kvirtualAddress + W)
    (hW : W ≤ directMapSize) :
    ∃ r self' s', (self.call (.malloc n)).run s = (.ok (r, self'), s') ∧ s' ∈ Promise W := by
  obtain ⟨h0, hsize, hfit, hcan⟩ := hg
  have hround : toUInt32 (alignUp n) = roundSize n := rfl
  have h24 : UserBlock.sizeofUserBlock = 24 := rfl
  have hmax : maxAlloc = 2 ^ 31 := by decide
  obtain ⟨-, -, hle⟩ := roundSize_eq hsize
  have hadd : toUInt32 (add64 (roundSize n) UserBlock.sizeofUserBlock) =
      roundSize n + UserBlock.sizeofUserBlock := by
    rw [add64_eq (by omega), toUInt32_eq (by omega)]
  obtain ⟨self1, s1, hrun1, hC1⟩ := h.inv.expandHeap_ok h.current (by omega) (by omega) hcan hC
    hroom hW
  obtain ⟨bs1, H1, hgrown, hmoves, -⟩ :=
    (expandHeap_safe h.inv h.current (by omega) (by omega)).ok hrun1 hC1
  obtain ⟨-, -, -, c, hc, hcs, rfl⟩ | ⟨hno, -⟩ := hgrown
  · have hup := le_alignUp (a := roundSize n + UserBlock.sizeofUserBlock) (by omega)
    have ha1 : s1.cr3 = self1.pageDirectory := by rw [hmoves.cr3, h.current, hmoves.dir]
    have hfind := H1.findFreeBlock_run ha1 (roundSize n)
    rcases hf1 : FreeList.firstFit (roundSize n) (FreeList.coalesce 24 bs c []) with
      _ | ⟨xs, b, ys⟩
    · exact absurd hf1 (firstFit_grown hc (by omega))
    · obtain ⟨-, self2, s2, hrun2, -, -, heq, -⟩ := H1.mallocFound_run ha1 hf1
      rw [hf1] at hfind
      simp only [Option.map_some, Option.getD_some] at hfind
      refine ⟨b.addr + 24, self2, s2, ?_, by rw [heq]; exact hC1⟩
      rw [call, malloc, if_neg h0, if_neg (by omega)]
      simp only [hround, hadd]
      rw [Prog.run_bind_ok (h.inv.findFreeBlock_run h.current _), hfit]
      simp only [Option.map_none, Option.getD_none, if_true]
      rw [Prog.run_bind_ok hrun1]
      simp only [Bool.not_true, Bool.false_eq_true, if_false]
      rw [Prog.run_bind_ok hfind]
      exact hrun2
  · cases hno

/-! ### Runs -/

/-- The calls that do not grow the heap past the limit. -/
abbrev Within (limit : Nat) (self : UserAllocator) (s : Machine) (call : Call) : Prop :=
  ¬GrowsPast limit self s call

/-- When every call does, the heap stays below the limit. -/
theorem LimitedRun.held (h : LimitedRun Within W heap₀ limit dirs self s live) :
    ∃ bs, Held W dirs self bs s live ∧ self.heapCurrent ≤ limit ∧ limit ≤ userHeapMaxAddr := by
  induction h with
  | create H hrun hC =>
    obtain ⟨bs, h, -⟩ := Held.new H hrun hC
    exact ⟨bs, h, h.inv.top, Nat.le_refl _⟩
  | setLimit _ hm hset ih =>
    obtain ⟨bs, h, -⟩ := ih
    have hlim := setHeapLimit_true h.inv.heapStart_le h.inv.top hm hset
    have hp := SamePlace.of_setHeapLimit hset
    exact ⟨bs, h.samePlace hp, hp.heapCurrent.trans_le hlim.1, hlim.2⟩
  | keepLimit _ _ hset ih =>
    obtain ⟨bs, h, h1, h2⟩ := ih
    have hp := SamePlace.of_setHeapLimit hset
    exact ⟨bs, h.samePlace hp, hp.heapCurrent.trans_le h1, h2⟩
  | call _ hpassed hwithin hrun hC ih =>
    obtain ⟨bs, h, h1, h2⟩ := ih
    obtain ⟨bs', hafter⟩ := (h.call_safe hpassed).ok hrun hC
    exact ⟨bs', h.step hafter, ((h.enforced_step_iff h1 hafter).mpr hwithin).below, h2⟩
  | meanwhile _ hm ih =>
    obtain ⟨bs, h, h1, h2⟩ := ih
    exact ⟨bs, h.meanwhile hm, h1, h2⟩

end
end UserAllocator
end Coronel
