import Coronel.Theory.FreeList

/-!
# Calls of a heap's client

The calls that both allocators serve, and what each does to the list of blocks. `Serves hd round bs`
is the allocator without its memory: a transition of block lists, for headers of `hd` bytes and
requests rounded by `round`. The live allocations are the pointers of the blocks in use.
-/

namespace Coronel

open Theory FreeList

/-- A call of the client; 0 is `nullptr`. -/
inductive Call
  | malloc (size : Nat)
  | calloc (num size : Nat)
  | realloc (ptr newSize : Nat)
  | free (ptr : Nat)

namespace Call

/-- The pointer that is passed. -/
def ptr : Call → Nat
  | malloc _ => 0
  | calloc _ _ => 0
  | realloc ptr _ => ptr
  | free ptr => ptr

/-- The bytes that are asked for. -/
def bytes : Call → Nat
  | malloc size => size
  | calloc num size => num * size
  | realloc _ newSize => newSize
  | free _ => 0

/-- The live allocations after a call that returned `r`. -/
def live (live : List Nat) (r : Nat) : Call → List Nat
  | malloc _ => if r = 0 then live else r :: live
  | calloc _ _ => if r = 0 then live else r :: live
  | realloc ptr newSize =>
    if r ≠ 0 then r :: live.erase ptr
    else if newSize = 0 then live.erase ptr
    else live
  | free ptr => live.erase ptr

end Call

/-- The pointers of the blocks in use, behind headers of `hd` bytes. -/
def pointers (hd : Nat) (bs : List Block) : List Nat := (used bs).map fun b => b.addr + hd

/-- A request of `k` bytes is refused, or a block is taken: from the list, or from the list that
has grown by a free block at its end. -/
inductive Served (hd k : Nat) (bs : List Block) : List Block → Nat → Prop
  | refused : Served hd k bs bs 0
  | found {xs b ys} : firstFit k bs = some (xs, b, ys) →
    Served hd k bs (xs ++ take hd 16 k b ++ ys) (b.addr + hd)
  | grown {c xs b ys} : firstFit k bs = none → c.free = true → 0 < c.size →
    firstFit k (coalesce hd bs c []) = some (xs, b, ys) →
    Served hd k bs (xs ++ take hd 16 k b ++ ys) (b.addr + hd)

/-- `realloc` of the block `b` to `k` bytes: the block is freed, kept as it is, cut, or freed when
another one has been taken. -/
inductive Resized (hd k newSize : Nat) (bs : List Block) (b : Block) : List Block → Nat → Prop
  | freed {xs ys} : newSize = 0 → bs = xs ++ b :: ys →
    Resized hd k newSize bs b (coalesce hd xs ⟨b.addr, b.size, true⟩ ys) 0
  | refused : newSize ≠ 0 → Resized hd k newSize bs b bs 0
  | kept : newSize ≠ 0 → Resized hd k newSize bs b bs (b.addr + hd)
  | cut {xs ys} : newSize ≠ 0 → k + (hd + 16) < b.size → bs = xs ++ b :: ys →
    Resized hd k newSize bs b (xs ++ split hd 16 k b ++ ys) (b.addr + hd)
  | moved {bs' ptr xs ys} : newSize ≠ 0 → Served hd k bs bs' ptr → ptr ≠ 0 → bs' = xs ++ b :: ys →
    Resized hd k newSize bs b (coalesce hd xs ⟨b.addr, b.size, true⟩ ys) ptr

/-- What a call with a null or live pointer does to the list, and what it returns. -/
inductive Serves (hd : Nat) (round : Nat → Nat) (bs : List Block) :
    Call → List Block → Nat → Prop
  | malloc {size bs' r} : Served hd (round size) bs bs' r → Serves hd round bs (.malloc size) bs' r
  | calloc {num size bs' r} : Served hd (round (num * size)) bs bs' r →
    Serves hd round bs (.calloc num size) bs' r
  | reallocNull {newSize bs' r} : Served hd (round newSize) bs bs' r →
    Serves hd round bs (.realloc 0 newSize) bs' r
  | realloc {b newSize bs' r} : b ∈ used bs → Resized hd (round newSize) newSize bs b bs' r →
    Serves hd round bs (.realloc (b.addr + hd) newSize) bs' r
  | freeNull : Serves hd round bs (.free 0) bs 0
  | free {xs b ys} : bs = xs ++ b :: ys → b.free = false →
    Serves hd round bs (.free (b.addr + hd)) (coalesce hd xs ⟨b.addr, b.size, true⟩ ys) 0

/-- The call looks for a block of `k` bytes. -/
def Call.Requests (hd : Nat) (round : Nat → Nat) (bs : List Block) : Call → Nat → Prop
  | .malloc size, k => size ≠ 0 ∧ k = round size
  | .calloc num size, k => num * size ≠ 0 ∧ num * size < 2 ^ 64 ∧ k = round (num * size)
  | .realloc ptr newSize, k => newSize ≠ 0 ∧ k = round newSize ∧
    ∀ b ∈ used bs, ptr = b.addr + hd → b.size < k
  | .free _, _ => False

/-- The call is not served by a block with bytes to spare. -/
def Call.FitsExactly (hd : Nat) (round : Nat → Nat) (bs : List Block) (call : Call) : Prop :=
  ∀ k, call.Requests hd round bs k → Theory.FitsExactly hd 16 k bs

/-- `realloc` does not cut a block in front of a free contiguous one. -/
def Call.CutsApart (hd : Nat) (round : Nat → Nat) (bs : List Block) : Call → Prop
  | .realloc ptr newSize => newSize ≠ 0 → ∀ xs b y ys, bs = xs ++ b :: y :: ys → b.free = false →
    ptr = b.addr + hd → round newSize + (hd + 16) < b.size →
      ¬(y.free = true ∧ b.addr + hd + b.size = y.addr)
  | _ => True

section
variable {hd k p ptr newSize r : Nat} {round : Nat → Nat} {bs bs' xs ys : List Block}
  {ls : List Nat} {b c e : Block} {call : Call}

theorem used_of_pointer (hp : p ∈ pointers hd bs) : ∃ e ∈ used bs, p = e.addr + hd := by
  obtain ⟨e, he, rfl⟩ := List.mem_map.mp hp
  exact ⟨e, he, rfl⟩

theorem pointers_erase (hl : ls.Perm (pointers hd bs)) (he : e ∈ used bs) :
    (ls.erase (e.addr + hd)).Perm (((used bs).erase e).map fun b => b.addr + hd) := by
  have h1 : (pointers hd bs).Perm ((e.addr + hd) :: ((used bs).erase e).map fun b => b.addr + hd) :=
    (List.perm_cons_erase he).map fun b : Block => b.addr + hd
  have h2 := (hl.trans h1).erase (e.addr + hd)
  rwa [List.erase_cons_head] at h2

/-- A null pointer is not live. -/
theorem erase_zero (hpos : 0 < hd) (hl : ls.Perm (pointers hd bs)) : ls.erase 0 = ls :=
  List.erase_of_not_mem fun h => by
    obtain ⟨e, -, he⟩ := used_of_pointer (hl.subset h)
    omega

/-- The blocks in use when `b` is freed. -/
theorem used_free (hb : b.free = false) :
    (used (coalesce hd xs ⟨b.addr, b.size, true⟩ ys)).Perm ((used (xs ++ b :: ys)).erase b) := by
  rw [used_coalesce rfl]
  exact (used_erase_perm hb).symm

namespace Served

/-- The blocks in use: none is added, or one. -/
theorem used_cases (h : Served hd k bs bs' ptr) : ptr = 0 ∧ bs' = bs ∨
    ∃ us c vs, used bs = us ++ vs ∧ used bs' = us ++ c :: vs ∧ ptr = c.addr + hd ∧ k ≤ c.size := by
  have htake : ∀ {bs xs ys b}, firstFit k bs = some (xs, b, ys) →
      ∃ us c vs, used bs = us ++ vs ∧ used (xs ++ take hd 16 k b ++ ys) = us ++ c :: vs ∧
        b.addr + hd = c.addr + hd ∧ k ≤ c.size := by
    intro bs xs ys b hfit
    obtain ⟨rfl, hfree, hk, -⟩ := firstFit_eq_some hfit
    refine ⟨used xs, _, used ys, ?_, used_take, rfl, ?_⟩
    · rw [used_append, used_cons_of_free hfree]
    · simp only at hk ⊢
      split <;> omega
  cases h with
  | refused => exact .inl ⟨rfl, rfl⟩
  | found h => exact .inr (htake h)
  | grown _ hc _ h =>
    have := htake h
    rw [used_coalesce hc, used_nil, List.append_nil] at this
    exact .inr this

theorem used_subset (h : Served hd k bs bs' ptr) : used bs ⊆ used bs' := by
  rcases h.used_cases with ⟨-, rfl⟩ | ⟨us, c, vs, h1, h2, -⟩
  · exact List.Subset.refl _
  · rw [h1, h2]
    exact fun e he => by simpa using (List.mem_append.mp he).imp_right .inr

theorem live_perm (h : Served hd k bs bs' ptr) (hpos : 0 < hd) (hl : ls.Perm (pointers hd bs)) :
    (if ptr = 0 then ls else ptr :: ls).Perm (pointers hd bs') := by
  rcases h.used_cases with ⟨rfl, rfl⟩ | ⟨us, c, vs, h1, h2, rfl, -⟩
  · rwa [if_pos rfl]
  · rw [if_neg (by omega)]
    have h3 : (pointers hd bs').Perm ((c.addr + hd) :: pointers hd bs) := by
      rw [pointers, pointers, h1, h2]
      exact List.perm_middle.map fun b : Block => b.addr + hd
    exact (hl.cons _).trans h3.symm

/-- The block that was handed out. -/
theorem exists_block (h : Served hd k bs bs' ptr) (h0 : ptr ≠ 0) :
    ∃ c, ptr = c.addr + hd ∧ k ≤ c.size ∧ (used bs').Perm (c :: used bs) := by
  rcases h.used_cases with ⟨h, -⟩ | ⟨us, c, vs, h1, h2, rfl, hk⟩
  · exact absurd h h0
  · refine ⟨c, rfl, hk, ?_⟩
    rw [h2, h1]
    exact List.perm_middle

theorem keepsCoalesced (h : Served hd k bs bs' ptr) (H : Coalesced hd bs) : Coalesced hd bs' := by
  have htake : ∀ {bs xs ys b}, Coalesced hd bs → firstFit k bs = some (xs, b, ys) →
      Coalesced hd (xs ++ take hd 16 k b ++ ys) := by
    intro bs xs ys b H hfit
    obtain ⟨rfl, hfree, -, -⟩ := firstFit_eq_some hfit
    exact H.take hfree
  cases h with
  | refused => exact H
  | found h => exact htake H h
  | grown _ hc _ h => exact htake (H.coalesce List.isChain_nil hc) h

theorem backed (h : Served hd k bs bs' ptr) (H : Backed hd bs) : Backed hd bs' := by
  have htake : ∀ {bs xs ys b}, Backed hd bs → firstFit k bs = some (xs, b, ys) →
      Backed hd (xs ++ take hd 16 k b ++ ys) := by
    intro bs xs ys b H hfit
    obtain ⟨rfl, -⟩ := firstFit_eq_some hfit
    exact H.take (by decide)
  cases h with
  | refused => exact H
  | found h => exact htake H h
  | grown _ _ hc h => exact htake (H.snoc hc).coalesce h

end Served

/-- A heap that has grown by enough has a block that fits. -/
theorem firstFit_grown (hc : c.free = true) (hk : k ≤ c.size) :
    firstFit k (coalesce hd bs c []) ≠ none := by
  rw [Ne, firstFit_eq_none]
  rcases joinPrev_cases hd bs c [] with ⟨h, -⟩ | ⟨xs, p, -, hp, -, h⟩
  · have hc' : c ∈ coalesce hd bs c [] := by
      rw [coalesce, joinNext, h]
      simp
    exact fun H => H c hc' ⟨hc, hk⟩
  · have hp' : ⟨p.addr, p.size + hd + c.size, p.free⟩ ∈ coalesce hd bs c [] := by
      rw [coalesce, joinNext, h]
      simp
    exact fun H => H _ hp' ⟨hp, by simp only; omega⟩

/-- The block found in a heap that has grown holds what was added. -/
theorem le_firstFit_grown (hf : firstFit k bs = none)
    (h : firstFit k (coalesce hd bs c []) = some (xs, b, ys)) : c.size ≤ b.size := by
  have hnone := firstFit_eq_none.mp hf
  obtain ⟨heq, hb, hk, -⟩ := firstFit_eq_some h
  have hmem : b ∈ coalesce hd bs c [] := by rw [heq]; simp
  rw [coalesce, joinNext] at hmem
  rcases joinPrev_cases hd bs c [] with ⟨h', -⟩ | ⟨zs, p, rfl, -, -, h'⟩ <;> rw [h'] at hmem
  · rcases List.mem_append.mp hmem with hm | hm
    · exact absurd ⟨hb, hk⟩ (hnone b hm)
    · rw [List.mem_singleton.mp hm]
  · rcases List.mem_append.mp hmem with hm | hm
    · exact absurd ⟨hb, hk⟩ (hnone b (by simp [hm]))
    · rw [List.mem_singleton.mp hm]
      simp only
      omega

/-- A block taken before another one is freed. -/
theorem erase_cons_perm {α : Type} [DecidableEq α] {a b : α} {l : List α} (hb : b ∈ l) :
    ((a :: l).erase b).Perm (a :: l.erase b) := by
  by_cases hab : a = b
  · subst hab
    rw [List.erase_cons_head]
    exact List.perm_cons_erase hb
  · rw [List.erase_cons_tail (by simpa using hab)]

namespace Resized

theorem used_subset (h : Resized hd k newSize bs b bs' ptr) (hb : b ∈ used bs) :
    (used bs).erase b ⊆ used bs' := by
  have hfree := (mem_used.mp hb).2
  have herase : (used bs).erase b ⊆ used bs := List.erase_subset
  cases h with
  | freed _ hbs => exact hbs ▸ (used_free hfree).symm.subset
  | refused => exact herase
  | kept => exact herase
  | cut _ _ hbs =>
    subst hbs
    rw [used_split hfree]
    refine List.Subset.trans (used_erase_perm hfree).subset fun e he => ?_
    simpa using (List.mem_append.mp he).imp_right .inr
  | moved _ hs h0 hbs =>
    subst hbs
    obtain ⟨c, -, -, hperm⟩ := hs.exists_block h0
    have h1 := (hperm.erase b).trans (erase_cons_perm hb)
    exact List.Subset.trans (List.subset_cons_self c _)
      (h1.symm.trans (used_free hfree).symm).subset

theorem live_perm (h : Resized hd k newSize bs b bs' ptr) (hpos : 0 < hd) (hb : b ∈ used bs)
    (hl : ls.Perm (pointers hd bs)) :
    (Call.live ls ptr (.realloc (b.addr + hd) newSize)).Perm (pointers hd bs') := by
  have hfree := (mem_used.mp hb).2
  have herase := pointers_erase hl hb
  simp only [Call.live]
  cases h with
  | freed h0 hbs =>
    subst hbs
    rw [if_neg (not_not.mpr rfl), if_pos h0]
    exact herase.trans ((used_free hfree).map fun b : Block => b.addr + hd).symm
  | refused h0 => rwa [if_neg (not_not.mpr rfl), if_neg h0]
  | kept =>
    rw [if_pos (by omega)]
    exact (herase.cons _).trans ((List.perm_cons_erase hb).map fun b : Block => b.addr + hd).symm
  | @cut xs ys _ _ hbs =>
    subst hbs
    rw [if_pos (by omega), pointers, used_split hfree]
    have h1 : ((used (xs ++ b :: ys)).erase b).Perm (used xs ++ used ys) := used_erase_perm hfree
    refine ((herase.trans (h1.map _)).cons _).trans ?_
    rw [List.map_append, List.map_append, List.map_cons]
    exact List.perm_middle.symm
  | moved _ hs h0 hbs =>
    subst hbs
    rw [if_pos h0]
    obtain ⟨c, rfl, -, hperm⟩ := hs.exists_block h0
    have h1 := ((hperm.erase b).trans (erase_cons_perm hb)).map fun b : Block => b.addr + hd
    exact (herase.cons _).trans
      (h1.symm.trans ((used_free hfree).map fun b : Block => b.addr + hd).symm)

/-- A list stays coalesced, unless a block is cut in front of a free one. -/
theorem keepsCoalesced (h : Resized hd k newSize bs b bs' ptr) (hb : b ∈ used bs)
    (H : Coalesced hd bs) (hcut : newSize ≠ 0 → k + (hd + 16) < b.size →
      ∀ xs y ys, bs = xs ++ b :: y :: ys →
        ¬(y.free = true ∧ b.addr + hd + b.size = y.addr)) : Coalesced hd bs' := by
  have hfree := (mem_used.mp hb).2
  cases h with
  | freed _ hbs =>
    subst hbs
    obtain ⟨hx, hy, -⟩ := Coalesced.append_cons.mp H
    exact hx.coalesce hy rfl
  | refused => exact H
  | kept => exact H
  | cut h0 hk hbs =>
    subst hbs
    refine H.split hfree fun _ y hy => ?_
    obtain ⟨ys, rfl⟩ := List.head?_eq_some_iff.mp hy
    exact hcut h0 hk _ y ys rfl
  | moved _ hs _ hbs =>
    have H' := hs.keepsCoalesced H
    subst hbs
    obtain ⟨hx, hy, -⟩ := Coalesced.append_cons.mp H'
    exact hx.coalesce hy rfl

theorem backed (h : Resized hd k newSize bs b bs' ptr) (H : Backed hd bs) : Backed hd bs' := by
  cases h with
  | freed _ hbs => exact (hbs ▸ H).mark.coalesce
  | refused => exact H
  | kept => exact H
  | cut _ _ hbs => exact (hbs ▸ H).split (by decide)
  | moved _ hs _ hbs => exact (hbs ▸ hs.backed H).mark.coalesce

end Resized

namespace Serves

theorem backed (h : Serves hd round bs call bs' r) (H : Backed hd bs) : Backed hd bs' := by
  cases h with
  | malloc h => exact h.backed H
  | calloc h => exact h.backed H
  | reallocNull h => exact h.backed H
  | realloc _ h => exact h.backed H
  | freeNull => exact H
  | free hbs _ => exact (hbs ▸ H).mark.coalesce

/-- The other blocks in use stay in use. -/
theorem mem_used (h : Serves hd round bs call bs' r) (he : e ∈ used bs)
    (hne : e.addr + hd ≠ call.ptr) : e ∈ used bs' := by
  cases h with
  | malloc h => exact h.used_subset he
  | calloc h => exact h.used_subset he
  | reallocNull h => exact h.used_subset he
  | realloc hb h =>
    exact h.used_subset hb ((List.mem_erase_of_ne fun hc => hne (by rw [hc]; rfl)).mpr he)
  | freeNull => exact he
  | free hbs hfree =>
    subst hbs
    exact (used_free hfree).symm.subset
      ((List.mem_erase_of_ne fun hc => hne (by rw [hc]; rfl)).mpr he)

/-- The live allocations are the pointers of the blocks in use. -/
theorem live_perm (h : Serves hd round bs call bs' r) (hpos : 0 < hd)
    (hl : ls.Perm (pointers hd bs)) : (call.live ls r).Perm (pointers hd bs') := by
  cases h with
  | malloc h => exact h.live_perm hpos hl
  | calloc h => exact h.live_perm hpos hl
  | reallocNull h =>
    have h := h.live_perm hpos hl
    rw [Call.live, erase_zero hpos hl]
    split
    · next h0 => rwa [if_neg h0] at h
    · next h0 =>
      rw [if_pos (not_not.mp h0)] at h
      split <;> exact h
  | realloc hb h => exact h.live_perm hpos hb hl
  | freeNull => rwa [Call.live, erase_zero hpos hl]
  | free hbs hfree =>
    subst hbs
    refine (pointers_erase hl (Theory.mem_used.mpr ⟨by simp, hfree⟩)).trans ?_
    exact ((used_free hfree).map fun b : Block => b.addr + hd).symm

theorem keepsCoalesced (h : Serves hd round bs call bs' r) (H : Coalesced hd bs)
    (hcut : call.CutsApart hd round bs) : Coalesced hd bs' := by
  cases h with
  | malloc h => exact h.keepsCoalesced H
  | calloc h => exact h.keepsCoalesced H
  | reallocNull h => exact h.keepsCoalesced H
  | realloc hb h =>
    exact h.keepsCoalesced hb H fun h0 hk xs y ys hbs =>
      hcut h0 xs _ y ys hbs (Theory.mem_used.mp hb).2 rfl hk
  | freeNull => exact H
  | free hbs _ =>
    subst hbs
    obtain ⟨hx, hy, -⟩ := Coalesced.append_cons.mp H
    exact hx.coalesce hy rfl

end Serves
end
end Coronel
