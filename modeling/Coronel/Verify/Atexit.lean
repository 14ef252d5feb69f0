import Coronel.Kernel.Atexit

/-!
# How often a destructor is called

`__cxa_finalize` with a function calls the entries of that function and clears them, so that they are
called once. Without one it calls all entries and clears none: every such call is made again by the
next. `calls_exact` counts them over whole runs.
-/

namespace Coronel

namespace Atexit

variable {s : Atexit} {e : AtexitFuncEntry} {f g i n objptr dso : Nat} {cs cs' : List Call} {c : Call}

/-- The calls of the entry at place `i`. -/
def callsAt (s : Atexit) (i : Nat) : List (Nat × AtexitFuncEntry) := s.calls.filter (·.1 = i)

/-- How often an entry of `f` is called, when the calls `cs` come after its registration: by each
`__cxa_finalize(0)` up to the first `__cxa_finalize(f)`, and by that one. -/
def callsOf (f : Nat) (cs : List Call) : Nat :=
  if f = 0 then 0
  else (cs.takeWhile (· ≠ .finalize f)).count (.finalize 0) + if .finalize f ∈ cs then 1 else 0

/-! ### One call -/

theorem callsAt_call (s : Atexit) (i j : Nat) (e : AtexitFuncEntry) :
    (s.call j e).callsAt i = s.callsAt i ++ if j = i then [(j, e)] else [] := by
  rw [callsAt, call, List.filter_append]
  by_cases h : j = i <;> simp [h, callsAt]

theorem length_finalizeAt : (finalizeAt f i s).funcs.length = s.funcs.length := by
  simp only [finalizeAt]
  split
  · split <;> rfl
  · split
    · exact List.length_set
    · rfl

theorem length_finalizeFrom : (finalizeFrom f n s).funcs.length = s.funcs.length := by
  induction n generalizing s with
  | zero => rfl
  | succ n ih =>
    rw [finalizeFrom, ih, length_finalizeAt]

/-- The entry is called. -/
def Hit (f : Nat) (e : AtexitFuncEntry) : Prop :=
  e.destructorFunc ≠ 0 ∧ (f = 0 ∨ e.destructorFunc = f)

instance decidableHit (f : Nat) (e : AtexitFuncEntry) : Decidable (Hit f e) :=
  inferInstanceAs (Decidable (_ ∧ _))

/-- What is left of an entry. -/
def after (f : Nat) (e : AtexitFuncEntry) : AtexitFuncEntry :=
  if f ≠ 0 ∧ e.destructorFunc = f then { e with destructorFunc := 0 } else e

theorem finalizeAt_self (h : s.funcs[i]? = some e) :
    (finalizeAt f i s).funcs[i]? = some (after f e) ∧
    (finalizeAt f i s).callsAt i = s.callsAt i ++ if Hit f e then [(i, e)] else [] := by
  have hlt : i < s.funcs.length := (List.getElem?_eq_some_iff.mp h).1
  have he : s.funcs.getD i ⟨0, 0, 0⟩ = e := by rw [List.getD_eq_getElem?_getD, h, Option.getD_some]
  have hcall : (s.call i e).callsAt i = s.callsAt i ++ [(i, e)] := by
    rw [callsAt_call, if_pos rfl]
  simp only [finalizeAt, he]
  by_cases hf : f = 0
  · by_cases hd : e.destructorFunc = 0
    · simp [hf, hd, h, after, Hit]
    · simp only [hf, hd, after, Hit, ne_eq, not_true_eq_false, not_false_eq_true, true_or,
        and_self, if_true, if_false]
      exact ⟨h, hcall⟩
  · by_cases hd : e.destructorFunc = f
    · simp only [hf, hd, after, Hit, ne_eq, not_false_eq_true, or_true, and_self, if_true, if_false]
      exact ⟨List.getElem?_set_self hlt, hcall⟩
    · simp [hf, hd, h, after, Hit]

theorem finalizeAt_other {j : Nat} (h : j ≠ i) : (finalizeAt f j s).funcs[i]? = s.funcs[i]? ∧
    (finalizeAt f j s).callsAt i = s.callsAt i := by
  simp only [finalizeAt]
  split
  · split
    · exact ⟨rfl, by rw [callsAt_call, if_neg h, List.append_nil]⟩
    · exact ⟨rfl, rfl⟩
  · split
    · refine ⟨List.getElem?_set_ne h, ?_⟩
      have hc := callsAt_call s i j (s.funcs.getD j ⟨0, 0, 0⟩)
      rwa [if_neg h, List.append_nil] at hc
    · exact ⟨rfl, rfl⟩

/-- The loop comes to each place below its bound once. -/
theorem finalizeFrom_spec (h : s.funcs[i]? = some e) :
    (finalizeFrom f n s).funcs[i]? = some (if i < n then after f e else e) ∧
    (finalizeFrom f n s).callsAt i = s.callsAt i ++ if i < n ∧ Hit f e then [(i, e)] else [] := by
  induction n generalizing s e with
  | zero => simp [finalizeFrom, h]
  | succ n ih =>
    rw [finalizeFrom]
    by_cases hn : n = i
    · subst hn
      obtain ⟨h1, h2⟩ := finalizeAt_self (f := f) h
      obtain ⟨h3, h4⟩ := ih h1
      rw [h3, h4, h2]
      simp only [Nat.lt_irrefl, false_and, if_false, Nat.lt_succ_self, true_and, if_true,
        List.append_nil, and_self]
    · obtain ⟨h1, h2⟩ := finalizeAt_other (f := f) (s := s) hn
      obtain ⟨h3, h4⟩ := ih (h1.trans h)
      have hlt : i < n + 1 ↔ i < n := by omega
      rw [h3, h4, h2]
      simp only [hlt, true_and]

/-! ### Whole runs -/

theorem length_step : s.funcs.length ≤ (s.step c).funcs.length := by
  cases c with
  | finalize f => exact length_finalizeFrom.ge
  | atexit f objptr dso =>
    simp only [step, cxaAtexit]
    split
    · exact le_rfl
    · simp

/-- The table holds what it has room for. -/
theorem length_run (cs : List Call) : (run cs).funcs.length ≤ atexitMaxFuncs := by
  induction cs using List.reverseRecOn with
  | nil => exact Nat.zero_le _
  | append_singleton cs c ih =>
    rw [run, List.foldl_append, ← run]
    cases c with
    | finalize f => exact length_finalizeFrom.trans_le ih
    | atexit f objptr dso =>
      simp only [List.foldl_cons, List.foldl_nil, step, cxaAtexit]
      split
      · exact ih
      · rw [List.length_append]
        simp only [List.length_singleton]
        omega

/-- What is not there is not called. -/
theorem callsAt_of_length (h : s.funcs.length ≤ i) (hs : s.callsAt i = []) (n : Nat)
    (hn : n ≤ s.funcs.length) : (finalizeFrom f n s).callsAt i = [] := by
  induction n generalizing s with
  | zero => exact hs
  | succ n ih =>
    rw [finalizeFrom]
    have hne : n ≠ i := by omega
    obtain ⟨-, h2⟩ := finalizeAt_other (f := f) (s := s) hne
    exact ih (length_finalizeAt.trans_le h) (h2.trans hs) (by rw [length_finalizeAt]; omega)

theorem callsAt_run_of_length (h : (run cs).funcs.length ≤ i) : (run cs).callsAt i = [] := by
  induction cs using List.reverseRecOn with
  | nil => rfl
  | append_singleton cs c ih =>
    rw [run, List.foldl_append, ← run] at h ⊢
    have hle : (run cs).funcs.length ≤ i := length_step.trans h
    cases c with
    | finalize f => exact callsAt_of_length hle (ih hle) _ le_rfl
    | atexit f objptr dso =>
      simp only [List.foldl_cons, List.foldl_nil, step, cxaAtexit]
      split <;> exact ih hle

theorem callsOf_atexit : callsOf f (.atexit g objptr dso :: cs) = callsOf f cs := by
  simp [callsOf]

theorem callsOf_finalize (hf : f ≠ 0) : callsOf f (.finalize g :: cs) =
    if g = 0 then callsOf f cs + 1 else if g = f then 1 else callsOf f cs := by
  by_cases h0 : g = 0
  · have hne : g ≠ f := by omega
    subst h0
    simp [callsOf, hf, hne, Nat.add_right_comm]
  · by_cases h : g = f
    · simp [callsOf, hf, h]
    · have h' : f ≠ g := Ne.symm h
      have h0' : ¬g = 0 := h0
      simp [callsOf, hf, h, h', h0']

/-- The calls of an entry that is there. -/
theorem callsAt_foldl (h : s.funcs[i]? = some e) (cs : List Call) :
    (cs.foldl step s).callsAt i =
      s.callsAt i ++ List.replicate (callsOf e.destructorFunc cs) (i, e) := by
  have hlt : ∀ {s : Atexit} {e}, s.funcs[i]? = some e → i < s.funcs.length :=
    fun h => (List.getElem?_eq_some_iff.mp h).1
  induction cs generalizing s e with
  | nil => simp [callsOf]
  | cons c cs ih =>
    rw [List.foldl_cons]
    cases c with
    | atexit g objptr dso =>
      have hkeep : (s.step (.atexit g objptr dso)).funcs[i]? = some e := by
        simp only [step, cxaAtexit]
        split
        · exact h
        · rw [List.getElem?_append_left (hlt h), h]
      have hcalls : (s.step (.atexit g objptr dso)).callsAt i = s.callsAt i := by
        simp only [step, cxaAtexit]
        split <;> rfl
      rw [ih hkeep, hcalls, callsOf_atexit]
    | finalize g =>
      obtain ⟨h1, h2⟩ := finalizeFrom_spec (f := g) (n := s.funcs.length) h
      simp only [hlt h, if_true, true_and] at h1 h2
      have hstep : s.step (.finalize g) = finalizeFrom g s.funcs.length s := rfl
      rw [hstep, ih h1, h2, List.append_assoc]
      congr 1
      by_cases h0 : e.destructorFunc = 0
      · have hafter : after g e = e := if_neg fun hg => hg.1 (hg.2.symm.trans h0)
        have hhit : ¬Hit g e := fun hh => hh.1 h0
        rw [hafter, if_neg hhit, callsOf, callsOf, if_pos h0, if_pos h0]
        rfl
      · rw [callsOf_finalize h0]
        by_cases hg : g = 0
        · have hafter : after g e = e := if_neg fun hh => hh.1 hg
          have hhit : Hit g e := ⟨h0, .inl hg⟩
          rw [hafter, if_pos hhit, if_pos hg, List.replicate_succ]
          rfl
        · by_cases hf : e.destructorFunc = g
          · have hafter : (after g e).destructorFunc = 0 := by rw [after, if_pos ⟨hg, hf⟩]
            have hhit : Hit g e := ⟨h0, .inr hf⟩
            rw [if_pos hhit, if_neg hg, if_pos hf.symm, callsOf, if_pos hafter]
            rfl
          · have hafter : after g e = e := if_neg fun hh => hf hh.2
            have hhit : ¬Hit g e := fun hh => hh.2.elim hg hf
            rw [hafter, if_neg hhit, if_neg hg, if_neg (Ne.symm hf)]
            rfl

/-- **Each destructor is called so many times.** Over every run, the entry of a registration is called
with its function and its object by every `__cxa_finalize(0)` until it is finalized by its function,
and by that call; a registration that finds the table full is never called. -/
theorem calls_exact (cs cs' : List Call) (f objptr dso : Nat) :
    (run (cs ++ .atexit f objptr dso :: cs')).callsAt (run cs).funcs.length =
      if (run cs).funcs.length < atexitMaxFuncs then
        List.replicate (callsOf f cs') ((run cs).funcs.length, ⟨f, objptr, dso⟩)
      else [] := by
  have hrun : run (cs ++ .atexit f objptr dso :: cs') =
      cs'.foldl step ((run cs).step (.atexit f objptr dso)) := by
    rw [run, List.foldl_append, ← run, List.foldl_cons]
  have hnone : (run cs).callsAt (run cs).funcs.length = [] := callsAt_run_of_length le_rfl
  by_cases hroom : (run cs).funcs.length < atexitMaxFuncs
  · have hstep : (run cs).step (.atexit f objptr dso) =
        { run cs with funcs := (run cs).funcs ++ [⟨f, objptr, dso⟩] } := by
      simp only [step, cxaAtexit]
      rw [if_neg (Nat.not_le_of_lt hroom)]
    have hentry : ((run cs).step (.atexit f objptr dso)).funcs[(run cs).funcs.length]? =
        some ⟨f, objptr, dso⟩ := by
      rw [hstep]
      exact List.getElem?_concat_length
    rw [if_pos hroom, hrun, callsAt_foldl hentry, hstep]
    simp only [callsAt] at hnone ⊢
    rw [hnone, List.nil_append]
  · rw [if_neg hroom]
    apply callsAt_run_of_length
    exact (length_run _).trans (Nat.le_of_not_lt hroom)

end Atexit
end Coronel
