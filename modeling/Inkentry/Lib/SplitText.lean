/-
  Inkentry.Lib.SplitText

  Text cut at every occurrence of a separator, read from the left, occurrences
  not overlapping.

  An element that the separator does not contain is a place no occurrence
  straddles: what is cut before it and what is cut after it are cut apart
  (`split_append_cons`).
-/

import Mathlib.Data.List.Infix
import Mathlib.Data.List.Basic

namespace SplitText

variable {α : Type*}

/-! ## Cutting -/

section Cut

variable [DecidableEq α] (sep : List α)

/-- The pieces of a text of which `k` elements are still to be passed over. -/
def splitFrom : Nat → List α → List (List α)
  | _, [] => [[]]
  | k + 1, _ :: text => splitFrom k text
  | 0, c :: text =>
    if sep <+: c :: text then [] :: splitFrom (sep.length - 1) text
    else (splitFrom 0 text).modifyHead (c :: ·)

def split (text : List α) : List (List α) := splitFrom sep 0 text

end Cut

/-- Joins the last of some pieces to the first of others. -/
def glue : List (List α) → List (List α) → List (List α)
  | [], pieces => pieces
  | [piece], pieces => pieces.modifyHead (piece ++ ·)
  | piece :: piece' :: rest, pieces => piece :: glue (piece' :: rest) pieces

theorem glue_modifyHead (c : α) {pieces : List (List α)} (h : pieces ≠ []) (rest : List (List α)) :
    glue (pieces.modifyHead (c :: ·)) rest = (glue pieces rest).modifyHead (c :: ·) := by
  cases pieces with
  | nil => exact absurd rfl h
  | cons piece pieces =>
    cases pieces with
    | nil => cases rest <;> rfl
    | cons piece' pieces => rfl

theorem glue_nil_singleton (pieces : List (List α)) : glue [[]] pieces = pieces := by
  cases pieces <;> rfl

/-- What does not contain an element is a prefix across it only when it is one before it. -/
theorem prefix_append_cons_iff {s x : List α} {z : α} (hz : z ∉ s) (y : List α) :
    s <+: x ++ z :: y ↔ s <+: x := by
  constructor
  · intro h
    rcases List.prefix_or_prefix_of_prefix h (List.prefix_append x (z :: y)) with hx | hx
    · exact hx
    · -- otherwise the prefix reaches past `x`
      obtain ⟨t, rfl⟩ := hx
      rw [List.prefix_append_right_inj] at h
      cases t with
      | nil =>
        rw [List.append_nil]
      | cons t ts =>
        rw [List.cons_prefix_cons] at h
        rw [← h.1] at hz
        exact absurd (List.mem_append_right x List.mem_cons_self) hz
  · exact fun h => h.trans (List.prefix_append x (z :: y))

/-! ## Cut apart -/

variable [DecidableEq α] {sep : List α}

theorem splitFrom_ne_nil (k : Nat) (text : List α) : splitFrom sep k text ≠ [] := by
  induction text generalizing k with
  | nil => cases k <;> exact List.cons_ne_nil _ _
  | cons c text ih =>
    cases k with
    | succ k => exact ih k
    | zero =>
      rw [splitFrom]
      split
      · exact List.cons_ne_nil _ _
      · obtain ⟨piece, rest, h⟩ := List.exists_cons_of_ne_nil (ih 0)
        rw [h]
        exact List.cons_ne_nil _ _

theorem split_ne_nil (text : List α) : split sep text ≠ [] := splitFrom_ne_nil 0 text

theorem splitFrom_append_cons {z : α} (hz : z ∉ sep) (hne : sep ≠ []) (y : List α) {x : List α}
    {k : Nat} (hk : k ≤ x.length) :
    splitFrom sep k (x ++ z :: y) = glue (splitFrom sep k x) (split sep (z :: y)) := by
  induction x generalizing k with
  | nil =>
    obtain rfl : k = 0 := by simpa using hk
    rw [List.nil_append, splitFrom, glue_nil_singleton, split]
  | cons c x ih =>
    cases k with
    | succ k => exact ih (by simpa using hk)
    | zero =>
      have hiff : sep <+: c :: (x ++ z :: y) ↔ sep <+: c :: x :=
        @prefix_append_cons_iff α sep (c :: x) z hz y
      rw [List.cons_append, splitFrom, splitFrom]
      by_cases h : sep <+: c :: x
      · have hlen : sep.length - 1 ≤ x.length := by
          have hle := h.length_le
          simp only [List.length_cons] at hle
          omega
        rw [if_pos (hiff.mpr h), if_pos h, ih hlen]
        obtain ⟨piece, rest, hpieces⟩ :=
          List.exists_cons_of_ne_nil (@splitFrom_ne_nil α _ sep (sep.length - 1) x)
        rw [hpieces]
        rfl
      · rw [if_neg (hiff.not.mpr h), if_neg h, ih (Nat.zero_le _),
          glue_modifyHead c (splitFrom_ne_nil 0 x)]

/-- No occurrence straddles an element the separator does not contain. -/
theorem split_append_cons {z : α} (hz : z ∉ sep) (hne : sep ≠ []) (x y : List α) :
    split sep (x ++ z :: y) = glue (split sep x) (split sep (z :: y)) :=
  splitFrom_append_cons hz hne y (Nat.zero_le _)

theorem split_cons {z : α} (hz : z ∉ sep) (hne : sep ≠ []) (y : List α) :
    split sep (z :: y) = (split sep y).modifyHead (z :: ·) := by
  rw [split, splitFrom, if_neg]
  · rfl
  · intro h
    obtain ⟨c, s, rfl⟩ := List.exists_cons_of_ne_nil hne
    rw [List.cons_prefix_cons] at h
    exact hz (h.1 ▸ List.mem_cons_self)

theorem split_sep_append (hne : sep ≠ []) (y : List α) : split sep (sep ++ y) = [] :: split sep y := by
  have hskip : ∀ (s : List α) (k : Nat), k = s.length →
      splitFrom sep k (s ++ y) = splitFrom sep 0 y := by
    intro s
    induction s with
    | nil =>
      rintro k rfl
      rfl
    | cons c s ih =>
      rintro k rfl
      exact ih s.length rfl
  obtain ⟨c, s, hsep⟩ := List.exists_cons_of_ne_nil hne
  have hfirst : split sep (c :: (s ++ y)) = [] :: splitFrom sep (sep.length - 1) (s ++ y) := by
    rw [split, splitFrom, if_pos]
    rw [hsep, ← List.cons_append]
    exact List.prefix_append _ _
  have hlen : sep.length - 1 = s.length := by rw [hsep, List.length_cons, Nat.add_sub_cancel]
  have happ : sep ++ y = c :: (s ++ y) := by rw [hsep, List.cons_append]
  rw [happ, hfirst, hskip s _ hlen, split]

/-! ## Pieces -/

theorem mem_of_mem_splitFrom {k : Nat} {text piece : List α} {c : α}
    (hpiece : piece ∈ splitFrom sep k text) (hc : c ∈ piece) : c ∈ text := by
  induction text generalizing k piece with
  | nil =>
    have hnil : piece = [] := by cases k <;> simpa [splitFrom] using hpiece
    rw [hnil] at hc
    cases hc
  | cons b text ih =>
    cases k with
    | succ k => exact List.mem_cons_of_mem b (ih hpiece hc)
    | zero =>
      rw [splitFrom] at hpiece
      split at hpiece
      · rcases List.mem_cons.mp hpiece with rfl | hmem
        · cases hc
        · exact List.mem_cons_of_mem b (ih hmem hc)
      · obtain ⟨first, rest, hpieces⟩ := List.exists_cons_of_ne_nil (@splitFrom_ne_nil α _ sep 0 text)
        rw [hpieces, List.modifyHead_cons, List.mem_cons] at hpiece
        rcases hpiece with rfl | hmem
        · rcases List.mem_cons.mp hc with rfl | hc
          · exact List.mem_cons_self
          · exact List.mem_cons_of_mem b (ih (by rw [hpieces]; exact List.mem_cons_self) hc)
        · exact List.mem_cons_of_mem b (ih (by rw [hpieces]; exact List.mem_cons_of_mem _ hmem) hc)

theorem mem_of_mem_split {text piece : List α} {c : α} (hpiece : piece ∈ split sep text)
    (hc : c ∈ piece) : c ∈ text := mem_of_mem_splitFrom hpiece hc

theorem split_of_not_infix {text : List α} (h : ¬ sep <:+: text) : split sep text = [text] := by
  induction text with
  | nil => rfl
  | cons c text ih =>
    rw [List.infix_cons_iff, not_or] at h
    have hrest := ih h.2
    rw [split] at hrest
    rw [split, splitFrom, if_neg h.1, hrest, List.modifyHead_cons]

/-- Of other text the first piece ends where the separator first occurs. -/
theorem exists_prefix_of_infix {text : List α} (h : sep <:+: text) (hne : sep ≠ []) :
    ∃ piece rest, split sep text = piece :: rest ∧ rest ≠ [] ∧ piece ++ sep <+: text := by
  induction text with
  | nil => exact absurd (List.infix_nil.mp h) hne
  | cons c text ih =>
    by_cases hfirst : sep <+: c :: text
    · refine ⟨[], splitFrom sep (sep.length - 1) text, ?_, splitFrom_ne_nil _ _, hfirst⟩
      rw [split, splitFrom, if_pos hfirst]
    · obtain ⟨piece, rest, hsplit, hrest, hprefix⟩ :=
        ih ((List.infix_cons_iff.mp h).resolve_left hfirst)
      refine ⟨c :: piece, rest, ?_, hrest, ?_⟩
      · rw [split] at hsplit
        rw [split, splitFrom, if_neg hfirst, hsplit, List.modifyHead_cons]
      · rw [List.cons_append, List.cons_prefix_cons]
        exact ⟨rfl, hprefix⟩

end SplitText
