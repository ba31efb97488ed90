import Mathlib.Logic.Function.Basic
import Mathlib.Order.Basic

/-!
# Terminals of unbounded height

A TERMINAL is a grid of so many columns that goes down for ever, and a cursor.
A key fills the cell at the cursor or moves the cursor; a cursor past the last
column goes on in the next row. It never goes up, so the rows below it are
empty. A screen of bounded height SHOWS the last rows down to the cursor's, or
the first ones while they suffice.
-/

namespace DevOS.Lib

/-- What a terminal is sent. -/
inductive Key (α : Type) where
  | put (a : α)
  | newline
  | carriageReturn
  | tab
deriving DecidableEq, Repr

/-- The cells, by row and column, and the cursor. -/
structure Terminal (α : Type) where
  cell : Nat → Nat → Option α
  row : Nat
  col : Nat

namespace Terminal

variable {α : Type}

/-- Nothing has been written. -/
def empty : Terminal α := ⟨fun _ _ => none, 0, 0⟩

/-- The effect of a key, before the cursor wraps. -/
def press (tabWidth : Nat) (t : Terminal α) : Key α → Terminal α
  | .put a =>
      { t with
        cell := Function.update t.cell t.row (Function.update (t.cell t.row) t.col (some a))
        col := t.col + 1 }
  | .newline => { t with row := t.row + 1, col := 0 }
  | .carriageReturn => { t with col := 0 }
  | .tab => { t with col := (t.col / tabWidth + 1) * tabWidth }

/-- A cursor past the last column goes on in the next row. -/
def wrap (width : Nat) (t : Terminal α) : Terminal α :=
  if width ≤ t.col then { t with row := t.row + 1, col := 0 } else t

/-- A key. -/
def feed (width tabWidth : Nat) (t : Terminal α) (k : Key α) : Terminal α :=
  (t.press tabWidth k).wrap width

/-- The first row that a screen of so many rows shows. -/
def top (height : Nat) (t : Terminal α) : Nat := t.row + 1 - height

/-- **The last rows**, as a screen shows them. -/
def shown (height : Nat) (t : Terminal α) (i j : Nat) : Option α := t.cell (t.top height + i) j

variable {width tabWidth height : Nat} {t : Terminal α} {k : Key α}

/-! ## The cursor -/

theorem press_row (hwidth : 0 < width) (tabWidth : Nat) (t : Terminal α) (k : Key α) :
    (t.press tabWidth k).row = t.row ∨
      (t.press tabWidth k).row = t.row + 1 ∧ (t.press tabWidth k).col < width := by
  cases k with
  | put a => exact .inl rfl
  | newline => exact .inr ⟨rfl, hwidth⟩
  | carriageReturn => exact .inl rfl
  | tab => exact .inl rfl

/-- The cursor stays in its row or goes to the next one. -/
theorem feed_row (hwidth : 0 < width) (tabWidth : Nat) (t : Terminal α) (k : Key α) :
    (t.feed width tabWidth k).row = t.row ∨ (t.feed width tabWidth k).row = t.row + 1 := by
  have hrow := press_row hwidth tabWidth t k
  rw [feed, wrap]
  split
  · rename_i hpast
    rcases hrow with hrow | ⟨-, hcol⟩
    · exact .inr (by rw [hrow])
    · exact absurd hpast (Nat.not_le.mpr hcol)
  · rcases hrow with hrow | ⟨hrow, -⟩
    · exact .inl hrow
    · exact .inr hrow

theorem feed_col_lt (hwidth : 0 < width) : (t.feed width tabWidth k).col < width := by
  rw [feed, wrap]
  split
  · exact hwidth
  · rename_i hcol
    exact Nat.lt_of_not_le hcol

/-! ## The cells -/

theorem wrap_cell : (t.wrap width).cell = t.cell := by
  rw [wrap]
  split
  · rfl
  · rfl

theorem feed_cell : (t.feed width tabWidth k).cell = (t.press tabWidth k).cell := wrap_cell

/-- A key leaves the rows other than the cursor's as they are. -/
theorem feed_frame {r : Nat} (h : r ≠ t.row) : (t.feed width tabWidth k).cell r = t.cell r := by
  rw [feed_cell]
  cases k with
  | put a => exact Function.update_of_ne h _ _
  | newline => rfl
  | carriageReturn => rfl
  | tab => rfl

theorem feed_put_cell (a : α) : (t.feed width tabWidth (.put a)).cell t.row t.col = some a := by
  have hrow : (t.press tabWidth (.put a)).cell t.row =
      Function.update (t.cell t.row) t.col (some a) := Function.update_self ..
  rw [feed_cell, hrow, Function.update_self]

/-- Everything that has been written has the property. -/
def Holds (P : α → Prop) (t : Terminal α) : Prop := ∀ r j a, t.cell r j = some a → P a

theorem holds_empty (P : α → Prop) : (empty : Terminal α).Holds P := fun _ _ _ h => nomatch h

theorem Holds.feed {P : α → Prop} (h : t.Holds P) (hk : ∀ a, k = .put a → P a) :
    (t.feed width tabWidth k).Holds P := by
  intro r j b hcell
  rw [feed_cell] at hcell
  cases k with
  | put a =>
      simp only [press] at hcell
      by_cases hr : r = t.row
      · rw [hr, Function.update_self] at hcell
        by_cases hj : j = t.col
        · rw [hj, Function.update_self] at hcell
          exact hk b (congrArg Key.put (Option.some.inj hcell))
        · rw [Function.update_of_ne hj] at hcell
          exact h _ _ _ hcell
      · rw [Function.update_of_ne hr] at hcell
        exact h _ _ _ hcell
  | newline => exact h _ _ _ hcell
  | carriageReturn => exact h _ _ _ hcell
  | tab => exact h _ _ _ hcell

/-- The rows below the cursor are empty. -/
def Fresh (t : Terminal α) : Prop := ∀ r j, t.row < r → t.cell r j = none

theorem fresh_empty : (empty : Terminal α).Fresh := fun _ _ _ => rfl

/-- So is the row that the cursor comes to. -/
theorem Fresh.feed_below (h : t.Fresh) {r : Nat} (hr : t.row < r) (j : Nat) :
    (t.feed width tabWidth k).cell r j = none := by
  rw [feed_frame (by omega), h r j hr]

theorem Fresh.feed (h : t.Fresh) (hwidth : 0 < width) : (t.feed width tabWidth k).Fresh := by
  intro r j hr
  have hrow := feed_row hwidth tabWidth t k
  exact h.feed_below (by omega) j

/-! ## The screen -/

/-- The screen moves down with the cursor, by one row at most. -/
theorem feed_top (hwidth : 0 < width) (tabWidth height : Nat) (t : Terminal α) (k : Key α) :
    (t.feed width tabWidth k).top height = t.top height ∨
    (t.feed width tabWidth k).top height = t.top height + 1 ∧
      (t.feed width tabWidth k).row = t.top height + height := by
  have hrow := feed_row hwidth tabWidth t k
  simp only [top]
  omega

/-- **What is put is shown**, on any screen of two rows or more. -/
theorem feed_put_shown (hwidth : 0 < width) (hheight : 2 ≤ height) (tabWidth : Nat)
    (t : Terminal α) (a : α) :
    ∃ i < height, (t.feed width tabWidth (.put a)).shown height i t.col = some a := by
  have hrow := feed_row hwidth tabWidth t (.put a)
  have htop : (t.feed width tabWidth (.put a)).top height ≤ t.row := by
    rw [top]
    omega
  refine ⟨t.row - (t.feed width tabWidth (.put a)).top height, ?_, ?_⟩
  · simp only [top]
    omega
  · rw [shown, Nat.add_sub_cancel' htop, feed_put_cell]

end Terminal

end DevOS.Lib
