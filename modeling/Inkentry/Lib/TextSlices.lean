/-
  Inkentry.Lib.TextSlices

  The rows of a part of a text.  A row that begins and ends inside the part is
  a row of the whole, as far down as there are line feeds before the part
  (`getElem?_lines_slice`).
-/

import Inkentry.Lib.TextLines

namespace TextLines

/-! ## Pieces of an appended list -/

section Pieces

variable {α : Type*} [DecidableEq α] {sep : α}

theorem splitOn_cons_self (text : List α) : (sep :: text).splitOn sep = [] :: text.splitOn sep := by
  rw [List.splitOn_cons_eq_if_modifyHead, if_pos (beq_self_eq_true sep)]

theorem splitOn_cons_of_ne {a : α} (h : a ≠ sep) (text : List α) :
    (a :: text).splitOn sep = (text.splitOn sep).modifyHead (List.cons a) := by
  rw [List.splitOn_cons_eq_if_modifyHead, if_neg (by simpa using h)]

theorem length_splitOn (text : List α) : (text.splitOn sep).length = text.count sep + 1 := by
  induction text with
  | nil => rfl
  | cons a text ih =>
    by_cases ha : a = sep
    · subst ha
      rw [splitOn_cons_self, List.length_cons, ih, List.count_cons_self]
    · rw [splitOn_cons_of_ne ha, List.length_modifyHead, ih, List.count_cons_of_ne ha]

theorem getElem?_splitOn_append_left (front text : List α) (k : Nat) :
    ((front ++ text).splitOn sep)[front.count sep + (k + 1)]? = (text.splitOn sep)[k + 1]? := by
  induction front with
  | nil => rw [List.nil_append, List.count_nil, Nat.zero_add]
  | cons a front ih =>
    by_cases ha : a = sep
    · subst ha
      rw [List.cons_append, splitOn_cons_self, List.count_cons_self,
        show front.count a + 1 + (k + 1) = front.count a + (k + 1) + 1 by omega,
        List.getElem?_cons_succ, ih]
    · rw [List.cons_append, splitOn_cons_of_ne ha, List.count_cons_of_ne ha, ← ih,
        ← Nat.add_assoc, List.getElem?_modifyHead_succ]

theorem getElem?_splitOn_append_right {text : List α} (back : List α) {k : Nat}
    (hk : k < text.count sep) :
    ((text ++ back).splitOn sep)[k]? = (text.splitOn sep)[k]? := by
  induction text generalizing k with
  | nil => exact absurd hk (by simp)
  | cons a text ih =>
    by_cases ha : a = sep
    · subst ha
      rw [List.cons_append, splitOn_cons_self, splitOn_cons_self]
      cases k with
      | zero => rfl
      | succ k =>
        rw [List.count_cons_self] at hk
        rw [List.getElem?_cons_succ, List.getElem?_cons_succ, ih (by omega)]
    · rw [List.count_cons_of_ne ha] at hk
      rw [List.cons_append, splitOn_cons_of_ne ha, splitOn_cons_of_ne ha]
      cases k with
      | zero => rw [List.getElem?_modifyHead_zero, List.getElem?_modifyHead_zero, ih hk]
      | succ k => rw [List.getElem?_modifyHead_succ, List.getElem?_modifyHead_succ, ih hk]

end Pieces

/-! ## Rows -/

theorem getElem?_lines {text : List Char} {k : Nat} (hk : k < text.count '\n') :
    (lines text)[k]? = ((text.splitOn '\n')[k]?).map stripCr := by
  have hlength := @length_splitOn _ _ '\n' text
  have hended : ((text.splitOn '\n').dropLast.map stripCr)[k]?
      = ((text.splitOn '\n')[k]?).map stripCr := by
    rw [List.getElem?_map, List.getElem?_dropLast, if_pos (by omega)]
  have hin : k < ((text.splitOn '\n').dropLast.map stripCr).length := by
    rw [List.length_map, List.length_dropLast]
    omega
  rw [lines]
  split
  · split
    · exact hended
    · rw [List.getElem?_append_left hin, hended]
  · exact hended

theorem length_lines_le (text : List Char) : (lines text).length ≤ text.count '\n' + 1 := by
  have hlength := @length_splitOn _ _ '\n' text
  rw [lines]
  split
  · split
    · rw [List.length_map, List.length_dropLast]
      omega
    · rw [List.length_append, List.length_map, List.length_dropLast, List.length_singleton]
      omega
  · rw [List.length_map, List.length_dropLast]
    omega

/-- A row that begins and ends inside a part of a text is a row of the whole. -/
theorem getElem?_lines_slice (front : List Char) {text : List Char} (back : List Char) {k : Nat}
    (hk : k + 1 < text.count '\n') :
    (lines (front ++ text ++ back))[front.count '\n' + (k + 1)]? = (lines text)[k + 1]? := by
  have hcount : front.count '\n' + (k + 1) < (front ++ text).count '\n' := by
    rw [List.count_append]
    omega
  rw [getElem?_lines hk, getElem?_lines (by rw [List.count_append]; omega),
    getElem?_splitOn_append_right back hcount, getElem?_splitOn_append_left]

end TextLines
