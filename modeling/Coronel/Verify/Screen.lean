import Coronel.Kernel.Screen
import Coronel.Theory.Terminal

/-!
# The screen is a window on a text

`Shows s t`: the glyphs of the buffer are what a window of 25 rows shows of the text `t`, and the
cursor is where its next character goes. `clear` shows the empty text and `printc` appends to it,
whatever made the row end. The setters of the cursor let it past the last cell, and a character
that is printed there is stored outside the buffer.
-/

namespace Coronel

open Theory

namespace Screen

/-! ### Calls -/

/-- A call that prints. -/
inductive Output
  | printc (c : UInt8)
  | prints (s : List UInt8)
  | printd (d : Int)
  | printx (x : Nat)

inductive Call
  | clear
  | print (output : Output)
  | column (col : Nat)
  | line (lin : Nat)
  | setColor (color : Color)

def print (self : Screen) : Output → Screen
  | .printc c => printc self c
  | .prints s => prints self s
  | .printd d => printd self d
  | .printx x => printx self x

def call (self : Screen) : Call → Screen
  | .clear => clear self
  | .print output => print self output
  | .column col => column self col
  | .line lin => line self lin
  | .setColor color => setColor self color

/-- The bytes before the terminating one. -/
def untilNul (s : List UInt8) : List UInt8 := s.takeWhile (· ≠ 0)

/-- The bytes that are printed. -/
def Output.text : Output → List UInt8
  | .printc c => [c]
  | .prints s => untilNul s
  | .printd d => untilNul (itoa d 10)
  | .printx x => [48, 120] ++
    untilNul (itoa (if x < 2 ^ 63 then (x : Int) else (x : Int) - 2 ^ 64) 16)

def Call.text : Call → List UInt8
  | .print output => output.text
  | _ => []

/-! ### What it is for -/

/-- The character in a cell. -/
def glyph (cell : Nat) : Nat := cell % 2 ^ 8

/-- `' '` -/
def space : UInt8 := 0x20

/-- A text in the rows of a screen. -/
def layout (text : List UInt8) : TextLayout UInt8 := text.foldl (·.append width breaks) .empty

/-- The buffer shows the last rows of `t`, and the cursor is at its end. -/
structure Shows (s : Screen) (t : TextLayout UInt8) : Prop where
  cells : ∀ y < height, ∀ x < width,
    glyph (s.video (y * width + x)) = (t.cell height space y x).toNat
  lin : s.lin = t.line height
  col : s.col = t.current.length
  short : t.current.length < width

/-- The cursor is past the last cell: on line 25, or in column 80 of line 24. -/
def Past (s : Screen) : Prop := width * height ≤ s.lin * width + s.col

/-- The call does not print a character past the last cell: it prints nothing there, or a line
break first. -/
def Fits (s : Screen) (call : Call) : Prop := Past s → ∀ c ∈ call.text.head?, breaks c = true

section
variable {s s' : Screen} {body : Nat → Screen → Screen} {c : UInt8} {n i v : Nat}
  {t : TextLayout UInt8} {text : List UInt8}

/-! ### Loops -/

/-- What the body of a loop preserves holds behind it. -/
theorem loop_induct {P : Nat → Screen → Prop} (h : P i s)
    (hbody : ∀ j s, i ≤ j → j < i + n → P j s → P (j + 1) (body j s)) :
    P (i + n) (loop body n i s) := by
  induction n generalizing i s with
  | zero => exact h
  | succ n ih =>
    rw [← Nat.add_assoc, Nat.add_right_comm]
    exact ih (hbody i s (Nat.le_refl _) (by omega) h) fun j s h1 h2 => hbody j s (by omega) (by omega)

/-- From `s` to `s'` only cells changed, by stores inside the buffer. -/
structure Wrote (video : Nat → Nat) (s s' : Screen) : Prop where
  video : s'.video = video
  color : s'.currentColor = s.currentColor
  col : s'.col = s.col
  lin : s'.lin = s.lin
  stores : ∃ is, s'.stores = is ++ s.stores ∧ ∀ i ∈ is, i < width * height

theorem Wrote.refl (s : Screen) : Wrote s.video s s := ⟨rfl, rfl, rfl, rfl, [], rfl, by simp⟩

theorem Wrote.store {video : Nat → Nat} (h : Wrote video s s') (hi : i < width * height) :
    Wrote (Function.update video i v) s (s'.store i v) := by
  obtain ⟨h1, h2, h3, h4, is, h5, h6⟩ := h
  refine ⟨by rw [Screen.store, h1], h2, h3, h4, i :: is, by rw [Screen.store, h5]; rfl, ?_⟩
  intro j hj
  rcases List.mem_cons.mp hj with rfl | hj
  · exact hi
  · exact h6 j hj

theorem Wrote.congr {video video' : Nat → Nat} (h : Wrote video s s')
    (hv : ∀ k, video' k = video k) : Wrote video' s s' := by
  obtain rfl : video' = video := funext hv
  exact h

/-- A row is filled with `v`. -/
theorem fillRow_wrote {y : Nat} {video : Nat → Nat} (hy : y < height) (h : Wrote video s s') :
    Wrote (fun k => if y * width ≤ k ∧ k < y * width + width then v else video k) s
      (loop (fun x self => self.store (y * width + x) v) width 0 s') := by
  have hrun := @loop_induct s' (fun x self => self.store (y * width + x) v) width 0 (fun x s'' =>
      Wrote (fun k => if y * width ≤ k ∧ k < y * width + x then v else video k) s s'')
      (h.congr fun k => if_neg (by omega)) fun x s'' _ hx hw => ?_
  · rwa [Nat.zero_add] at hrun
  · unfold width height at *
    refine (hw.store (i := y * 80 + x) (v := v) (by unfold width height; omega)).congr fun k => ?_
    by_cases hk : k = y * 80 + x
    · rw [hk, Function.update_self, if_pos (by omega)]
    · rw [Function.update_of_ne hk]
      refine if_congr ?_ rfl rfl
      omega

/-- A row is copied to the row above it. -/
theorem copyRow_wrote {y : Nat} {video : Nat → Nat} (h0 : 0 < y) (hy : y < height)
    (h : Wrote video s s') :
    Wrote (fun k => if (y - 1) * width ≤ k ∧ k < y * width then video (k + width) else video k) s
      (loop (fun x self => self.store ((y - 1) * width + x) (self.video (y * width + x)))
        width 0 s') := by
  have hrun := @loop_induct s'
      (fun x self => self.store ((y - 1) * width + x) (self.video (y * width + x))) width 0
      (fun x s'' =>
      Wrote (fun k => if (y - 1) * width ≤ k ∧ k < (y - 1) * width + x then video (k + width)
        else video k) s s'') (h.congr fun k => if_neg (by omega)) fun x s'' _ hx hw => ?_
  · unfold width at hrun ⊢
    rwa [Nat.zero_add, show (y - 1) * 80 + 80 = y * 80 by omega] at hrun
  · unfold width height at *
    refine (hw.store (i := (y - 1) * 80 + x) (by unfold width height; omega)).congr fun k => ?_
    by_cases hk : k = (y - 1) * 80 + x
    · -- the cell that is read has not been written
      rw [hk, Function.update_self, if_pos (by omega), hw.video]
      simp only
      rw [if_neg (by omega), show (y - 1) * 80 + x + 80 = y * 80 + x by omega]
    · rw [Function.update_of_ne hk]
      refine if_congr ?_ rfl rfl
      omega

/-- `scroll_down` moves the text up by a row. -/
theorem scrollDown_eq (s : Screen) : ∃ s1, scrollDown s = { s1 with lin := height - 1 } ∧
    Wrote (fun k => if k < (height - 1) * width then s.video (k + width)
      else if k < height * width then blank else s.video k) s s1 := by
  refine ⟨_, rfl, ?_⟩
  have hcopy := @loop_induct s (fun y self =>
    loop (fun x self => self.store ((y - 1) * width + x) (self.video (y * width + x))) width 0 self)
      (height - 1) 1 (fun y s'' =>
      Wrote (fun k => if k < (y - 1) * width then s.video (k + width) else s.video k) s s'')
      ((Wrote.refl s).congr fun k => if_neg (by omega)) fun y s'' h1 h2 hw => ?_
  · refine (fillRow_wrote (y := height - 1) (by decide) hcopy).congr fun k => ?_
    unfold width height
    split_ifs <;> first | rfl | omega
  · unfold height at h2
    refine (copyRow_wrote (by omega) (by unfold height; omega) hw).congr fun k => ?_
    unfold width
    split_ifs <;> first | rfl | omega

/-- `clear` blanks the buffer. -/
theorem clear_eq (s : Screen) : ∃ s1, clear s = { s1 with lin := 0, col := 0 } ∧
    Wrote (fun k => if k < height * width then blank else s.video k)
      { s with currentColor := .gray } s1 := by
  refine ⟨_, rfl, ?_⟩
  have hfill := @loop_induct { s with currentColor := .gray }
      (fun y self => loop (fun x self => self.store (y * width + x) blank) width 0 self) height 0
      (fun y s'' => Wrote (fun k => if k < y * width then blank else s.video k)
      { s with currentColor := .gray } s'') ((Wrote.refl _).congr fun k => if_neg (by omega))
      fun y s'' _ h2 hw => ?_
  · rwa [Nat.zero_add] at hfill
  · refine (fillRow_wrote (by omega) hw).congr fun k => ?_
    unfold width
    split_ifs <;> first | rfl | omega

/-! ### Printing -/

theorem prints_eq (s : Screen) (text : List UInt8) :
    prints s text = (untilNul text).foldl printc s := by
  induction text generalizing s with
  | nil => rfl
  | cons c text ih =>
    rw [prints, untilNul, List.takeWhile_cons]
    by_cases hc : c = 0
    · simp [hc]
    · rw [if_neg hc, if_pos (by simpa using hc), List.foldl_cons, ih, untilNul]

theorem print_eq (s : Screen) (output : Output) : print s output = output.text.foldl printc s := by
  cases output with
  | printc c => rfl
  | prints text => exact prints_eq s text
  | printd d => exact prints_eq s _
  | printx x =>
    rw [print, printx, prints_eq, prints_eq, Output.text, List.foldl_append]
    rfl

theorem glyph_blank : glyph blank = space.toNat := by decide

/-- The color and the sign of a `char` lie above its glyph. -/
theorem glyph_charCell (c : UInt8) (color : Color) : glyph (charCell c color) = c.toNat := by
  have h1 : signExtend c % 2 ^ 8 = c.toNat := by
    have := c.toNat_lt
    unfold signExtend
    split <;> omega
  have h2 : color.ctorIdx <<< 8 % 2 ^ 8 = 0 := by
    rw [Nat.shiftLeft_eq]
    exact Nat.mul_mod_left ..
  rw [glyph, charCell, toUInt16, Nat.mod_mod_of_dvd _ (by decide), Nat.or_mod_two_pow, h1, h2,
    Nat.or_zero]

/-! ### What the buffer shows -/

section
variable {α β : Type} {view : Nat → β} {f : α → β} {a empty : α} {brk : α → Bool} {t : TextLayout α}

/-- Seen through `view`, the buffer shows the last rows of `t`, whose characters look as `f` says. -/
structure View (view : Nat → β) (f : α → β) (empty : α) (s : Screen) (t : TextLayout α) : Prop where
  cells : ∀ y < height, ∀ x < width,
    view (s.video (y * width + x)) = f (t.cell height empty y x)
  lin : s.lin = t.line height
  col : s.col = t.current.length
  short : t.current.length < width

/-- A row is closed: the next one is below, or the text moves up. -/
theorem nextLine_view (hempty : view blank = f empty) (hcells : ∀ y < height, ∀ x < width,
      view (s.video (y * width + x)) = f (t.cell height empty y x))
    (hlin : s.lin = t.line height) : View view f empty (nextLine s) t.close := by
  have hlt : t.line height < height := TextLayout.line_lt (by decide)
  have hline := TextLayout.line_close (t := t) (h := height) (by decide)
  have hnext : toUInt8 (s.lin + 1) = t.line height + 1 := by
    unfold toUInt8 height at *
    omega
  unfold nextLine
  simp only [hnext]
  by_cases hfull : height ≤ t.line height + 1
  · rw [if_pos hfull]
    rw [if_neg (by omega)] at hline
    obtain ⟨s1, h1, h2⟩ := scrollDown_eq { s with col := 0, lin := t.line height + 1 }
    rw [h1]
    refine ⟨fun y hy x hx => ?_, ?_, h2.col, Nat.zero_lt_succ _⟩
    · have hcell : t.close.cell height empty y x = t.cell height empty (y + 1) x := by
        rw [TextLayout.cell_close, if_neg (by omega)]
      simp only [h2.video, hcell]
      unfold width height at *
      by_cases hlast : y + 1 < 25
      · rw [if_pos (by omega), ← hcells (y + 1) hlast x hx]
        congr 2
        omega
      · rw [if_neg (by omega), if_pos (by omega), TextLayout.cell_of_le (by omega), hempty]
    · rw [hline]
      simp only
      omega
  · rw [if_neg hfull]
    rw [if_pos (by omega)] at hline
    refine ⟨fun y hy x hx => ?_, hline.symm, rfl, Nat.zero_lt_succ _⟩
    rw [TextLayout.cell_close, if_pos (by omega)]
    exact hcells y hy x hx

/-- The screen after the store of `printc`. -/
def written (s : Screen) (c : UInt8) : Screen :=
  { s.store (s.lin * width + s.col) (charCell c s.currentColor) with col := toUInt8 (s.col + 1) }

theorem printc_of_breaks (h : breaks c = true) : printc s c = nextLine s := if_pos h

theorem printc_of_not_breaks (h : ¬breaks c = true) : printc s c =
    if width ≤ (written s c).col then nextLine (written s c) else written s c := if_neg h

/-- A character appears where the cursor is. -/
theorem written_cells (h : View view f empty s t) (ha : view (charCell c s.currentColor) = f a) :
    ∀ y < height, ∀ x < width,
      view ((written s c).video (y * width + x)) = f ((t.put a).cell height empty y x) := by
  intro y hy x hx
  have hshort := h.short
  rw [TextLayout.cell_put hy]
  simp only [written, store]
  by_cases hyx : y = t.line height ∧ x = t.current.length
  · rw [if_pos hyx, hyx.1, hyx.2, h.lin, h.col, Function.update_self, ha]
  · rw [if_neg hyx, Function.update_of_ne, h.cells y hy x hx]
    rw [h.lin, h.col]
    unfold width at *
    omega

theorem printc_view (hempty : view blank = f empty) (hbrk : brk a = breaks c)
    (ha : view (charCell c s.currentColor) = f a) (h : View view f empty s t) :
    View view f empty (printc s c) (t.append width brk a) := by
  have hcells := written_cells h ha
  have hlin : (written s c).lin = (t.put a).line height := by
    rw [TextLayout.line_put]
    exact h.lin
  have hlen : (t.put a).current.length = t.current.length + 1 := by simp [TextLayout.put]
  have hcol : (written s c).col = (t.put a).current.length := by
    have := h.short
    simp only [hlen, written, h.col, toUInt8]
    unfold width at this
    omega
  unfold TextLayout.append
  rw [hbrk]
  by_cases hb : breaks c = true
  · rw [printc_of_breaks hb, if_pos hb]
    exact nextLine_view hempty h.cells h.lin
  rw [printc_of_not_breaks hb, if_neg hb, hcol]
  by_cases hfull : (t.put a).current.length = width
  · rw [if_pos hfull.ge, if_pos hfull]
    exact nextLine_view hempty hcells hlin
  · have hlt : (t.put a).current.length < width := by
      have := h.short
      omega
    rw [if_neg (by omega), if_neg hfull]
    exact ⟨hcells, hlin, hcol, hlt⟩

/-- A cleared screen shows the empty text. -/
theorem clear_view (hempty : view blank = f empty) (s : Screen) :
    View view f empty (clear s) .empty := by
  obtain ⟨s1, h1, h2⟩ := clear_eq s
  rw [h1]
  refine ⟨fun y hy x hx => ?_, rfl, rfl, Nat.zero_lt_succ _⟩
  simp only [h2.video]
  rw [TextLayout.cell_empty]
  unfold width height at *
  rw [if_pos (by omega), hempty]

end

theorem shows_iff : Shows s t ↔ View glyph UInt8.toNat space s t :=
  ⟨fun h => ⟨h.cells, h.lin, h.col, h.short⟩, fun h => ⟨h.cells, h.lin, h.col, h.short⟩⟩

theorem printc_shows (h : Shows s t) : Shows (printc s c) (t.append width breaks c) :=
  shows_iff.mpr (printc_view glyph_blank rfl (glyph_charCell c _) (shows_iff.mp h))

theorem text_shows (h : Shows s t) :
    Shows (text.foldl printc s) (text.foldl (·.append width breaks) t) := by
  induction text generalizing s t with
  | nil => exact h
  | cons c text ih => exact ih (printc_shows h)

theorem clear_shows (s : Screen) : Shows (clear s) .empty :=
  shows_iff.mpr (clear_view glyph_blank s)

/-- **A screen is a terminal.** After `clear`, whatever is printed, the screen shows the last rows
of the text, and its cursor is where the next character goes. -/
theorem run_shows (s : Screen) (outputs : List Output) :
    Shows (outputs.foldl print (clear s)) (layout (outputs.flatMap Output.text)) := by
  have hrun : outputs.foldl print (clear s) = (outputs.flatMap Output.text).foldl printc (clear s) := by
    generalize clear s = s
    induction outputs generalizing s with
    | nil => rfl
    | cons output outputs ih =>
      rw [List.foldl_cons, ih, print_eq, List.flatMap_cons, List.foldl_append]
  rw [hrun]
  exact text_shows (clear_shows s)

/-! ### Stores -/

/-- The cursor that the setters and `printc` leave. -/
structure Valid (s : Screen) : Prop where
  lin : s.lin ≤ height
  col : s.col ≤ width

end
end Screen
end Coronel
