/-
  Inkentry.Lib.JoinedText

  A list of texts joined by a separator into one text, and read back by cutting
  at the separator, trimming, and dropping what is blank.

  Each text is cut on its own, wherever it stands (`items_join`), so a list is
  read back as it was exactly when each of its texts is (`items_join_eq_iff`).
-/

import Inkentry.Lib.TextLines

namespace JoinedText

open TextLines

variable {sep : Char}

def isBlank (text : List Char) : Bool := trim text = []

/-- The texts read from a joined text. -/
def items (sep : Char) (text : List Char) : List (List Char) :=
  ((text.splitOn sep).map trim).filter fun item => !isBlank item

def join (sep : Char) : List (List Char) → List Char
  | [] => []
  | [text] => text
  | text :: text' :: rest => text ++ sep :: join sep (text' :: rest)

/-- Text that joining and reading back leave as it is. -/
def Plain (sep : Char) (text : List Char) : Prop := sep ∉ text ∧ trim text = text

instance decidablePlain (sep : Char) (text : List Char) : Decidable (Plain sep text) :=
  inferInstanceAs (Decidable (sep ∉ text ∧ trim text = text))

/-! ## Reading -/

variable {text : List Char}

theorem items_nil : items sep [] = [] := by
  rw [items, List.splitOn_nil]
  rfl

theorem items_append_sep (x y : List Char) : items sep (x ++ sep :: y) = items sep x ++ items sep y := by
  rw [items, List.splitOn_append_cons_self, List.map_append, List.filter_append, items, items]

theorem plain_of_mem_items {text item : List Char} (h : item ∈ items sep text) :
    Plain sep item ∧ isBlank item = false := by
  obtain ⟨hmem, hblank⟩ := List.mem_filter.mp h
  obtain ⟨piece, hpiece, rfl⟩ := List.mem_map.mp hmem
  refine ⟨⟨?_, trim_trim piece⟩, by simpa using hblank⟩
  intro hsep
  exact not_mem_of_mem_splitOn hpiece (mem_of_mem_trim hsep)

theorem items_of_not_mem (h : sep ∉ text) :
    items sep text = if isBlank text then [] else [trim text] := by
  have hblank : isBlank (trim text) = isBlank text := by rw [isBlank, isBlank, trim_trim]
  rw [items, List.splitOn_eq_singleton h, List.map_singleton]
  cases hb : isBlank text with
  | true => rw [List.filter_cons_of_neg (by simp [hblank, hb]), List.filter_nil, if_pos rfl]
  | false => rw [List.filter_cons_of_pos (by simp [hblank, hb]), List.filter_nil, if_neg (by simp)]

theorem items_of_plain (h : Plain sep text) (hblank : isBlank text = false) :
    items sep text = [text] := by
  rw [items_of_not_mem h.1, if_neg (by simp [hblank]), h.2]

theorem items_of_blank (hsep : isWhitespace sep = false)
    (hblank : isBlank text = true) : items sep text = [] := by
  have hmem : sep ∉ text := by
    intro hmem
    rw [isBlank, decide_eq_true_eq, trim_eq_nil_iff] at hblank
    rw [hblank sep hmem] at hsep
    cases hsep
  rw [items_of_not_mem hmem, if_pos hblank]

/-! ## Joining -/

variable {texts : List (List Char)}

theorem items_join (texts : List (List Char)) : items sep (join sep texts) = texts.flatMap (items sep) := by
  induction texts with
  | nil => exact items_nil
  | cons text texts ih =>
    cases texts with
    | nil => rw [join, List.flatMap_cons, List.flatMap_nil, List.append_nil]
    | cons text' texts =>
      rw [join, items_append_sep, ih]
      exact List.flatMap_cons.symm

theorem flatMap_items_of_plain
    (h : ∀ text ∈ texts, Plain sep text ∧ isBlank text = false)
    : texts.flatMap (items sep) = texts := by
  induction texts with
  | nil => rfl
  | cons text texts ih =>
    obtain ⟨hplain, hblank⟩ := h text List.mem_cons_self
    rw [List.flatMap_cons, items_of_plain hplain hblank,
      ih fun t ht => h t (List.mem_cons_of_mem text ht), List.singleton_append]

/-- A list is read back, blank texts aside, exactly when every other text is plain. -/
theorem items_join_eq_iff (hsep : isWhitespace sep = false) (texts : List (List Char)) :
    items sep (join sep texts) = texts.filter (fun text => !isBlank text)
      ↔ ∀ text ∈ texts, isBlank text = false → Plain sep text := by
  rw [items_join]
  constructor
  · intro h text htext hblank
    have hmem : text ∈ texts.flatMap (items sep) := by
      rw [h]
      exact List.mem_filter.mpr ⟨htext, by simp [hblank]⟩
    obtain ⟨t, -, ht⟩ := List.mem_flatMap.mp hmem
    exact (plain_of_mem_items ht).1
  · intro h
    induction texts with
    | nil => rfl
    | cons text texts ih =>
      have hrest := ih fun t ht => h t (List.mem_cons_of_mem text ht)
      rw [List.flatMap_cons, hrest]
      cases hblank : isBlank text with
      | true =>
        rw [items_of_blank hsep hblank, List.filter_cons_of_neg (by simp [hblank]), List.nil_append]
      | false =>
        rw [items_of_plain (h text List.mem_cons_self hblank) hblank,
          List.filter_cons_of_pos (by simp [hblank]), List.singleton_append]

theorem join_concat (h : texts ≠ []) (text : List Char) :
    join sep (texts ++ [text]) = join sep texts ++ sep :: text := by
  induction texts with
  | nil => exact absurd rfl h
  | cons first texts ih =>
    cases texts with
    | nil => rfl
    | cons second texts =>
      rw [List.cons_append, List.cons_append, join, ← List.cons_append, ih (List.cons_ne_nil _ _),
        join, List.append_assoc, List.cons_append]

theorem join_eq_intercalate (sep : Char) (texts : List (List Char)) :
    join sep texts = [sep].intercalate texts := by
  induction texts with
  | nil => rfl
  | cons text texts ih =>
    cases texts with
    | nil => simp [join]
    | cons text' texts => rw [join, ih, List.intercalate_cons_cons, List.append_assoc, List.singleton_append]

theorem splitOn_join (hne : texts ≠ []) (hsep : ∀ text ∈ texts, sep ∉ text) :
    (join sep texts).splitOn sep = texts := by
  rw [join_eq_intercalate, List.splitOn_intercalate sep hsep hne]

theorem mem_join {c : Char} (h : c ∈ join sep texts) : c = sep ∨ ∃ text ∈ texts, c ∈ text := by
  induction texts with
  | nil => exact absurd h List.not_mem_nil
  | cons text texts ih =>
    cases texts with
    | nil => exact .inr ⟨text, List.mem_cons_self, h⟩
    | cons text' texts =>
      rcases List.mem_append.mp h with hfirst | hrest
      · exact .inr ⟨text, List.mem_cons_self, hfirst⟩
      · rcases List.mem_cons.mp hrest with rfl | hrest
        · exact .inl rfl
        · exact (ih hrest).imp_right fun ⟨t, ht, hc⟩ => ⟨t, List.mem_cons_of_mem _ ht, hc⟩

theorem length_join_cons (text : List Char) (texts : List (List Char)) :
    (join sep texts).length ≤ (join sep (text :: texts)).length := by
  cases texts with
  | nil => exact Nat.zero_le _
  | cons text' texts =>
    rw [join, List.length_append, List.length_cons]
    omega

theorem length_join_le {texts texts' : List (List Char)} (h : texts.Sublist texts') :
    (join sep texts).length ≤ (join sep texts').length := by
  induction h with
  | slnil => exact le_refl _
  | cons text _ ih => exact ih.trans (length_join_cons text _)
  | cons_cons text h ih =>
    rename_i texts texts'
    cases texts with
    | nil =>
      cases texts' with
      | nil => exact le_refl _
      | cons text' texts' =>
        rw [join, join, List.length_append]
        exact Nat.le_add_right _ _
    | cons first texts =>
      obtain ⟨first', texts', rfl⟩ := List.exists_cons_of_ne_nil (List.ne_nil_of_mem
        (h.subset List.mem_cons_self))
      rw [join, join, List.length_append, List.length_append, List.length_cons, List.length_cons]
      omega

end JoinedText
