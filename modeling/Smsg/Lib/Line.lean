/-
A line of text with a cursor in it.

This is what a line editor is for, without a buffer: the text is a list, and the cursor
stands between two of its elements or at an end, which the type says.
-/
import Mathlib.Data.List.Basic
import Mathlib.Tactic.Common

namespace Lines

/-- A text, and how much of it is in front of the cursor. -/
structure Line (α : Type*) where
  text : List α
  cursor : Nat
  inside : cursor ≤ text.length

namespace Line

variable {α : Type*}

theorem ext {l m : Line α} (ht : l.text = m.text) (hc : l.cursor = m.cursor) : l = m := by
  cases l; cases m; simp_all

/-- Nothing has been written. -/
def empty : Line α := ⟨[], 0, Nat.le_refl 0⟩

/-- What is in front of the cursor. -/
def before (l : Line α) : List α := l.text.take l.cursor

/-- What is behind it. -/
def behind (l : Line α) : List α := l.text.drop l.cursor

/-- Writing at the cursor, which ends up behind what was written. -/
def insert (l : Line α) (data : List α) : Line α where
  text := l.before ++ (data ++ l.behind)
  cursor := l.cursor + data.length
  inside := by
    have := l.inside
    simp only [before, behind, List.length_append, List.length_take, List.length_drop]
    omega

/-- Writing over what is behind the cursor; the line becomes longer when that is too short. -/
def overwrite (l : Line α) (data : List α) : Line α where
  text := l.before ++ (data ++ l.text.drop (l.cursor + data.length))
  cursor := l.cursor + data.length
  inside := by
    have := l.inside
    simp only [before, List.length_append, List.length_take, List.length_drop]
    omega

/-- Taking away the element behind the cursor, if there is one. -/
def delete (l : Line α) : Line α where
  text := l.text.eraseIdx l.cursor
  cursor := l.cursor
  inside := by
    have := l.inside
    rw [List.length_eraseIdx]
    split <;> omega

/-- One to the left. -/
def left (l : Line α) : Line α := ⟨l.text, l.cursor - 1, Nat.le_trans (Nat.sub_le _ _) l.inside⟩

/-- One to the right. -/
def right (l : Line α) : Line α := ⟨l.text, min (l.cursor + 1) l.text.length, Nat.min_le_right _ _⟩

/-- To the front. -/
def home (l : Line α) : Line α := ⟨l.text, 0, Nat.zero_le _⟩

/-- To the end. -/
def toEnd (l : Line α) : Line α := ⟨l.text, l.text.length, Nat.le_refl _⟩

/-- Taking away the element in front of the cursor, if there is one. -/
def backspace (l : Line α) : Line α := if l.cursor = 0 then l else l.left.delete

theorem length_insert (l : Line α) (data : List α) :
    (l.insert data).text.length = l.text.length + data.length := by
  have := l.inside
  simp only [insert, before, behind, List.length_append, List.length_take, List.length_drop]
  omega

theorem length_overwrite (l : Line α) (data : List α) :
    (l.overwrite data).text.length = max l.text.length (l.cursor + data.length) := by
  have := l.inside
  simp only [overwrite, before, List.length_append, List.length_take, List.length_drop]
  omega

/-- At the end of the line there is nothing to delete. -/
theorem delete_end {l : Line α} (h : l.cursor = l.text.length) : l.delete = l :=
  ext (List.eraseIdx_of_length_le (Nat.le_of_eq h.symm)) rfl

theorem length_delete {l : Line α} (h : l.cursor < l.text.length) :
    l.delete.text.length = l.text.length - 1 := by
  rw [delete, List.length_eraseIdx, if_pos h]

/-- At the end of the line, inserting and overwriting are the same. -/
theorem insert_end {l : Line α} (h : l.cursor = l.text.length) (data : List α) :
    l.insert data = l.overwrite data := by
  refine ext ?_ rfl
  show l.before ++ (data ++ l.behind) = l.before ++ (data ++ l.text.drop (l.cursor + data.length))
  rw [behind, List.drop_of_length_le (by omega), List.drop_of_length_le (by omega)]

end Line

end Lines
