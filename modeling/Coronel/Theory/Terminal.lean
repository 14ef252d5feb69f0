import Mathlib.Data.List.Basic

/-!
# Text in rows, seen through a window

A text is laid out in rows of `w` characters: a row is closed when it is full, or early by a
character that breaks it. A window of `h` rows shows the last of them. `cell_close` says what the
window shows when a row is closed: the same as before, or, once the text is higher than the window,
the same one row up.
-/

namespace Theory

/-- A text in rows: those that are closed, from the top, and the one that is written. -/
structure TextLayout (α : Type) where
  closed : List (List α)
  current : List α

namespace TextLayout

variable {α : Type}

def empty : TextLayout α := ⟨[], []⟩

def rows (t : TextLayout α) : List (List α) := t.closed ++ [t.current]

/-- The current row is closed, and an empty one begun. -/
def close (t : TextLayout α) : TextLayout α := ⟨t.rows, []⟩

/-- A character goes to the end of the current row. -/
def put (t : TextLayout α) (c : α) : TextLayout α := { t with current := t.current ++ [c] }

/-- The next character of the text, in rows of `w`. -/
def append (w : Nat) (breaks : α → Bool) (t : TextLayout α) (c : α) : TextLayout α :=
  if breaks c then t.close
  else if (t.put c).current.length = w then (t.put c).close
  else t.put c

/-- The number of the row that a window of `h` rows starts with. -/
def top (h : Nat) (t : TextLayout α) : Nat := t.rows.length - h

/-- The place of the current row in the window. -/
def line (h : Nat) (t : TextLayout α) : Nat := t.closed.length - t.top h

/-- Column `x` of row `i`. Rows are padded with `blank`, and blank rows follow. -/
def charAt (blank : α) (rows : List (List α)) (i x : Nat) : α :=
  (rows[i]?.bind fun row => row[x]?).getD blank

/-- What the window shows in row `y` and column `x`. -/
def cell (h : Nat) (blank : α) (t : TextLayout α) (y x : Nat) : α :=
  charAt blank t.rows (t.top h + y) x

variable {h : Nat} {blank c : α} {t : TextLayout α} {x y : Nat}

@[simp] theorem length_rows : t.rows.length = t.closed.length + 1 := by simp [rows]

@[simp] theorem rows_close : t.close.rows = t.rows ++ [[]] := rfl

theorem line_lt (hh : 0 < h) : t.line h < h := by
  unfold line top
  rw [length_rows]
  omega

/-- The window does not move while its row is written. -/
@[simp] theorem top_put : (t.put c).top h = t.top h := by simp [top, put]

@[simp] theorem line_put : (t.put c).line h = t.line h := by
  rw [line, top_put]
  rfl

theorem getElem?_rows_current : t.rows[t.closed.length]? = some t.current := by
  simp [rows]

theorem getElem?_rows_of_ne {i : Nat} (hi : i ≠ t.closed.length) :
    t.rows[i]? = t.closed[i]? := by
  rw [rows]
  by_cases hlt : i < t.closed.length
  · rw [List.getElem?_append_left hlt]
  · rw [List.getElem?_append_right (by omega), List.getElem?_eq_none (by simp; omega),
      List.getElem?_eq_none (by omega)]

/-- An empty row shows nothing. -/
theorem charAt_append_nil {rows : List (List α)} {i : Nat} :
    charAt blank (rows ++ [[]]) i x = charAt blank rows i x := by
  unfold charAt
  by_cases hi : i < rows.length
  · rw [List.getElem?_append_left hi]
  · rw [List.getElem?_append_right (by omega), List.getElem?_eq_none (l := rows) (by omega)]
    by_cases h0 : i - rows.length = 0
    · rw [h0]
      rfl
    · rw [List.getElem?_eq_none (by rw [List.length_singleton]; omega)]

/-- A character shows at the end of the current row and nowhere else. -/
theorem cell_put (hy : y < h) : (t.put c).cell h blank y x =
    if y = t.line h ∧ x = t.current.length then c else t.cell h blank y x := by
  have htop : t.top h ≤ t.closed.length := by
    unfold top
    rw [length_rows]
    omega
  have hline : t.top h + y = t.closed.length ↔ y = t.line h := by
    unfold line
    omega
  rw [cell, cell, top_put, charAt, charAt]
  by_cases hrow : y = t.line h
  · have h1 : (t.put c).rows[t.closed.length]? = some (t.current ++ [c]) :=
      getElem?_rows_current (t := t.put c)
    rw [hline.mpr hrow, h1, getElem?_rows_current, Option.bind_some, Option.bind_some]
    by_cases hx : x = t.current.length
    · rw [if_pos ⟨hrow, hx⟩, hx, List.getElem?_concat_length]
      rfl
    · rw [if_neg fun h => hx h.2]
      by_cases hlt : x < t.current.length
      · rw [List.getElem?_append_left hlt]
      · rw [List.getElem?_eq_none (by simp; omega), List.getElem?_eq_none (by omega)]
  · have hne : t.top h + y ≠ t.closed.length := fun h => hrow (hline.mp h)
    have h1 : (t.put c).rows[t.top h + y]? = t.closed[t.top h + y]? :=
      getElem?_rows_of_ne (t := t.put c) hne
    rw [if_neg fun h => hrow h.1, h1, getElem?_rows_of_ne hne]

/-- Closing a row moves the line down, or, on the last line, the text up. -/
theorem line_close (hh : 0 < h) :
    t.close.line h = if t.line h + 1 < h then t.line h + 1 else t.line h := by
  unfold line top
  simp only [length_rows, close]
  split <;> omega

theorem cell_close : t.close.cell h blank y x =
    if t.line h + 1 < h then t.cell h blank y x else t.cell h blank (y + 1) x := by
  rw [cell, rows_close, charAt_append_nil]
  unfold cell line top
  simp only [length_rows, rows_close, List.length_append, List.length_singleton]
  split
  · rw [show t.closed.length + 1 + 1 - h = 0 by omega, show t.closed.length + 1 - h = 0 by omega]
  · rw [show t.closed.length + 1 + 1 - h + y = t.closed.length + 1 - h + (y + 1) by omega]

/-- A character that does not break its row shows when it is appended. -/
theorem exists_cell_append {w : Nat} {breaks : α → Bool} (hh : 1 < h) (hw : t.current.length < w)
    (hc : ¬breaks c = true) : ∃ y < h, ∃ x < w, (t.append w breaks c).cell h blank y x = c := by
  have hline := t.line_lt (h := h) (by omega)
  have hput : (t.put c).cell h blank (t.line h) t.current.length = c := by
    rw [cell_put hline, if_pos ⟨rfl, rfl⟩]
  rw [append, if_neg hc]
  split
  · by_cases hlast : t.line h + 1 < h
    · refine ⟨t.line h, hline, t.current.length, hw, ?_⟩
      rw [cell_close, line_put, if_pos hlast, hput]
    · refine ⟨t.line h - 1, by omega, t.current.length, hw, ?_⟩
      rw [cell_close, line_put, if_neg hlast, show t.line h - 1 + 1 = t.line h by omega, hput]
  · exact ⟨t.line h, hline, t.current.length, hw, hput⟩

/-- Nothing shows below the last row. -/
theorem cell_of_le (hy : h ≤ y) : t.cell h blank y x = blank := by
  unfold cell charAt top
  rw [List.getElem?_eq_none (by rw [length_rows]; omega)]
  rfl

theorem cell_empty : (empty : TextLayout α).cell h blank y x = blank :=
  @TextLayout.charAt_append_nil _ _ _ [] _

end TextLayout
end Theory
