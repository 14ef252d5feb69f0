import Coronel.Verify.Screen

/-!
# Colors

Each character of a text is paired with the color it was printed in; the buffer is seen through the
upper byte of its cells. The character is a `char`, whose sign fills the upper byte when it is 128 or
more, so the colors are as asked if and only if no such character is printed.
-/

namespace Coronel

open Theory

namespace Screen

/-- A call that the text and its colors are made of. -/
inductive Drawing
  | clear
  | setColor (color : Color)
  | printc (c : UInt8)
  | prints (s : List UInt8)

def draw (self : Screen) : Drawing → Screen
  | .clear => clear self
  | .setColor color => setColor self color
  | .printc c => printc self c
  | .prints s => prints self s

/-- A call as a sequence of the others: `prints` prints one character at a time. -/
def Drawing.steps : Drawing → List Drawing
  | .prints s => (untilNul s).map .printc
  | drawing => [drawing]

/-- The characters that a call prints. -/
def Drawing.text : Drawing → List UInt8
  | .printc c => [c]
  | .prints s => untilNul s
  | _ => []

/-! ### What was asked for -/

/-- A character and the color that was current, or none in a cell without a character. -/
abbrev Printed := Option (UInt8 × Color)

/-- The current color and what was printed since the last `clear`. -/
structure Painting where
  color : Color
  text : TextLayout Printed

namespace Painting

/-- After `clear`. -/
def cleared : Painting := { color := .gray, text := .empty }

/-- The character breaks its row. -/
def breaksRow (a : Printed) : Bool := a.any fun printed => breaks printed.1

def step (self : Painting) : Drawing → Painting
  | .clear => cleared
  | .setColor color => { self with color }
  | .printc c => { self with text := self.text.append width breaksRow (some (c, self.color)) }
  | .prints s => (untilNul s).foldl (fun self c =>
      { self with text := self.text.append width breaksRow (some (c, self.color)) }) self

end Painting

/-- The attribute byte of a cell. -/
def attributeByte (cell : Nat) : Nat := cell / 2 ^ 8

/-- The attribute of a character: its color, or that of a blank. -/
def asked (a : Printed) : Nat := a.elim (attributeByte blank) fun printed => printed.2.ctorIdx

/-- Every cell has the attribute that was asked for. -/
def Colored (s : Screen) (painting : Painting) : Prop := ∀ y < height, ∀ x < width,
  attributeByte (s.video (y * width + x)) = asked (painting.text.cell height none y x)

/-- A cell as it is written. -/
def cellOf (a : Printed) : Nat := a.elim blank fun printed => charCell printed.1 printed.2

section
variable {β : Type} {view : Nat → β} {f : Printed → β} {s : Screen} {painting : Painting}
  {drawing : Drawing} {calls p : List Drawing} {c : UInt8} {color : Color} {text : List UInt8}

/-! ### Calls in steps -/

theorem draw_steps (s : Screen) (calls : List Drawing) :
    (calls.flatMap Drawing.steps).foldl draw s = calls.foldl draw s := by
  induction calls generalizing s with
  | nil => rfl
  | cons drawing calls ih =>
    rw [List.flatMap_cons, List.foldl_append, ih, List.foldl_cons]
    congr 1
    cases drawing with
    | prints text =>
      rw [draw, prints_eq, Drawing.steps, List.foldl_map]
      rfl
    | _ => rfl

/-- The characters of the steps are those of the calls. -/
theorem mem_text_of_mem_steps {step call : Drawing} (hstep : step ∈ call.steps) (hc : c ∈ step.text) :
    c ∈ call.text := by
  cases call with
  | prints text =>
    obtain ⟨c', hc', rfl⟩ := List.mem_map.mp hstep
    rw [Drawing.text, List.mem_singleton] at hc
    rw [hc]
    exact hc'
  | _ =>
    rw [List.mem_singleton.mp hstep] at hc
    exact hc

theorem printc_mem_steps {call : Drawing} (hc : c ∈ call.text) : .printc c ∈ call.steps := by
  cases call with
  | printc c' =>
    rw [Drawing.text, List.mem_singleton] at hc
    rw [hc]
    exact List.mem_cons_self
  | prints text => exact List.mem_map_of_mem hc
  | _ => exact absurd hc List.not_mem_nil

/-! ### The attribute of a character -/

theorem ctorIdx_lt (color : Color) : color.ctorIdx < 16 := by
  cases color <;> decide

theorem attributeByte_charCell (c : UInt8) (color : Color) : attributeByte (charCell c color) =
    if c < 0x80 then color.ctorIdx else 0xff := by
  have hcolor : color.ctorIdx <<< 8 / 2 ^ 8 = color.ctorIdx := by
    rw [Nat.shiftLeft_eq, Nat.mul_div_cancel _ (by decide)]
  have hlt := ctorIdx_lt color
  have hdiv : attributeByte (charCell c color) = (signExtend c / 2 ^ 8 ||| color.ctorIdx) % 2 ^ 8 := by
    rw [attributeByte, charCell, toUInt16, ← hcolor, ← Nat.or_div_two_pow, hcolor]
    omega
  have hsign : signExtend c / 2 ^ 8 = if c < 0x80 then 0 else 2 ^ 24 - 1 := by
    have hc := c.toNat_lt
    have hlow : c < 0x80 ↔ c.toNat < 128 := UInt8.lt_iff_toNat_lt
    simp only [signExtend, hlow]
    split <;> omega
  rw [hdiv, hsign]
  split
  · rw [Nat.zero_or]
    omega
  · rw [Nat.or_mod_two_pow]
    cases color <;> rfl

/-! ### Runs -/

theorem printc_color (s : Screen) (c : UInt8) : (printc s c).currentColor = s.currentColor := by
  have hnext : ∀ s : Screen, (nextLine s).currentColor = s.currentColor := by
    intro s
    rw [nextLine]
    dsimp only
    split
    · obtain ⟨s1, h1, h2⟩ := scrollDown_eq { s with col := 0, lin := toUInt8 (s.lin + 1) }
      rw [h1]
      exact h2.color
    · rfl
  by_cases hb : breaks c = true
  · rw [printc_of_breaks hb, hnext]
  · rw [printc_of_not_breaks hb]
    split
    · rw [hnext]
      rfl
    · rfl

/-- The buffer shows the painting, and the two agree on the current color. -/
structure Paints (view : Nat → β) (f : Printed → β) (s : Screen) (painting : Painting) : Prop where
  shows : View view f none s painting.text
  color : s.currentColor = painting.color

theorem Paints.printc (hempty : view blank = f none)
    (hc : ∀ color, view (charCell c color) = f (some (c, color))) (h : Paints view f s painting) :
    Paints view f (s.draw (.printc c)) (painting.step (.printc c)) := by
  constructor
  · apply printc_view hempty _ _ h.shows
    · rfl
    · rw [hc, h.color]
  · rw [draw, printc_color, h.color]
    rfl

theorem Paints.cleared (hempty : view blank = f none) (s : Screen) :
    Paints view f (clear s) .cleared := by
  refine ⟨clear_view hempty s, ?_⟩
  obtain ⟨s1, h1, h2⟩ := clear_eq s
  rw [h1]
  exact h2.color

theorem Paints.step (hempty : view blank = f none)
    (hc : ∀ c ∈ drawing.text, ∀ color, view (charCell c color) = f (some (c, color)))
    (h : Paints view f s painting) : Paints view f (s.draw drawing) (painting.step drawing) := by
  cases drawing with
  | clear => exact Paints.cleared hempty s
  | setColor color => exact ⟨⟨h.shows.cells, h.shows.lin, h.shows.col, h.shows.short⟩, rfl⟩
  | printc c => exact h.printc hempty (hc c List.mem_cons_self)
  | prints text =>
    rw [Drawing.text] at hc
    rw [draw, prints_eq, Painting.step]
    generalize untilNul text = text at hc
    induction text generalizing s painting with
    | nil => exact h
    | cons c text ih =>
      have hprintc := h.printc hempty (hc c List.mem_cons_self)
      exact ih hprintc fun c' hc' => hc c' (List.mem_cons_of_mem _ hc')

theorem Paints.run (hempty : view blank = f none)
    (hc : ∀ drawing ∈ p, ∀ c ∈ drawing.text, ∀ color, view (charCell c color) = f (some (c, color)))
    (h : Paints view f s painting) :
    Paints view f (p.foldl draw s) (p.foldl Painting.step painting) := by
  induction p generalizing s painting with
  | nil => exact h
  | cons drawing p ih =>
    refine ih (fun d hd => hc d (List.mem_cons_of_mem _ hd)) ?_
    exact h.step hempty (hc drawing List.mem_cons_self)

/-- A character of 128 or more shows with the wrong attribute as soon as it is printed. -/
theorem not_colored_printc (h : Paints id cellOf s painting) (hc : ¬c < 0x80) :
    ¬Colored (s.draw (.printc c)) (painting.step (.printc c)) := by
  intro hcolored
  have hnext : Paints id cellOf (s.draw (.printc c)) (painting.step (.printc c)) :=
    h.printc rfl fun _ => rfl
  have hb : ¬Painting.breaksRow (some (c, painting.color)) = true := by
    intro hb
    change breaks c = true at hb
    rw [breaks, Bool.or_eq_true, beq_iff_eq, beq_iff_eq] at hb
    rcases hb with rfl | rfl
    · exact hc (by decide)
    · exact hc (by decide)
  obtain ⟨y, hy, x, hx, hcell⟩ :=
    @TextLayout.exists_cell_append _ height none _ _ _ _ (by decide) h.shows.short hb
  have hvideo := hnext.shows.cells y hy x hx
  have hasked := hcolored y hy x hx
  rw [Painting.step] at hvideo hasked
  rw [hcell] at hvideo hasked
  rw [id] at hvideo
  rw [hvideo] at hasked
  have hattribute := (attributeByte_charCell c painting.color).symm.trans hasked
  rw [if_neg hc] at hattribute
  have hlt := ctorIdx_lt painting.color
  exact absurd hattribute (by change 0xff ≠ painting.color.ctorIdx; omega)

/-- **Colors.** From `clear` on, every cell has the attribute that was asked for in every state, if
and only if every character that is printed is below 128. -/
theorem colored_iff (s : Screen) (calls : List Drawing) :
    (∀ p, p <+: calls.flatMap Drawing.steps →
      Colored (p.foldl draw (clear s)) (p.foldl Painting.step .cleared)) ↔
    ∀ call ∈ calls, ∀ c ∈ call.text, c < 0x80 := by
  constructor
  · intro h call hcall c hc
    by_contra hge
    have hstep : .printc c ∈ calls.flatMap Drawing.steps :=
      List.mem_flatMap.mpr ⟨call, hcall, printc_mem_steps hc⟩
    obtain ⟨p, q, hpq⟩ := List.append_of_mem hstep
    have hcolored := h (p ++ [.printc c]) ⟨q, by rw [hpq, List.append_assoc]; rfl⟩
    have hcleared : Paints id cellOf (clear s) .cleared := Paints.cleared rfl s
    have hrun := hcleared.run (p := p) rfl fun _ _ _ _ _ => rfl
    rw [List.foldl_append, List.foldl_append] at hcolored
    exact not_colored_printc hrun hge hcolored
  · intro h p hp
    have hcleared : Paints attributeByte asked (clear s) .cleared := Paints.cleared rfl s
    have hrun := hcleared.run (p := p) rfl fun drawing hd c hc color => ?_
    · exact hrun.shows.cells
    · obtain ⟨call, hcall, hstep⟩ := List.mem_flatMap.mp (hp.subset hd)
      have hc := mem_text_of_mem_steps hstep hc
      exact (attributeByte_charCell c color).trans (if_pos (h call hcall c hc))

/-- The attribute of the byte 128 is 255, in any color. -/
theorem not_colored_high : ¬∀ (s : Screen) (calls : List Drawing), ∀ p, p <+: calls.flatMap Drawing.steps →
    Colored (p.foldl draw (clear s)) (p.foldl Painting.step .cleared) := by
  intro hall
  have h := hall (new fun _ => 0) [.printc 0x80] [.printc 0x80] (List.prefix_refl _)
  rw [List.foldl_cons, List.foldl_nil, List.foldl_cons, List.foldl_nil] at h
  have hcleared : Paints id cellOf (clear (new fun _ => 0)) .cleared := Paints.cleared rfl _
  exact not_colored_printc hcleared (by decide) h

end
end Screen
end Coronel
