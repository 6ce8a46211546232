/-
  Inkentry.Lib.TextLines

  Text by lines.  `lines` ends a line at a line feed, with the carriage return
  in front of it if there is one, and has no line after the last line feed;
  splitting at line feeds alone keeps the carriage returns and the empty lines.
  What reads lines through `trim` sees no difference (`filterMap_lines`).
-/

import Mathlib.Data.List.DropRight

namespace TextLines

/-- The Unicode property White_Space. -/
def isWhitespace (c : Char) : Bool :=
  let n := c.toNat
  9 ≤ n && n ≤ 13 || n == 0x20 || n == 0x85 || n == 0xA0 || n == 0x1680
    || 0x2000 ≤ n && n ≤ 0x200A || n == 0x2028 || n == 0x2029 || n == 0x202F || n == 0x205F
    || n == 0x3000

def trim (text : List Char) : List Char := (text.rdropWhile isWhitespace).dropWhile isWhitespace

/-- The text without the line feeds at its end. -/
def trimEndLf (text : List Char) : List Char := text.rdropWhile (· == '\n')

/-- A line without a carriage return at its end. -/
def stripCr (line : List Char) : List Char :=
  if line.getLast? = some '\r' then line.dropLast else line

def lines (text : List Char) : List (List Char) :=
  let segments := text.splitOn '\n'
  let ended := segments.dropLast.map stripCr
  match segments.getLast? with
  | some last => if last = [] then ended else ended ++ [last]
  | none => ended

/-! ## Trimming -/

variable {text : List Char} {c : Char}

theorem trim_stripCr (line : List Char) : trim (stripCr line) = trim line := by
  unfold stripCr
  split
  case isTrue h =>
    obtain ⟨front, rfl⟩ : ∃ front, line = front ++ ['\r'] := by
      obtain ⟨front, hfront⟩ := List.getLast?_eq_some_iff.mp h
      exact ⟨front, hfront⟩
    rw [List.dropLast_concat, trim, trim, List.rdropWhile_concat_pos _ _ _ (by decide)]
  case isFalse => rfl

theorem trim_eq_nil_iff : trim text = [] ↔ ∀ c ∈ text, isWhitespace c = true := by
  induction text using List.reverseRecOn with
  | nil => simp [trim]
  | append_singleton text c ih =>
    by_cases hc : isWhitespace c = true
    · rw [trim, List.rdropWhile_concat_pos _ _ _ hc]
      refine ih.trans ⟨fun h x hx => ?_, fun h x hx => h x (List.mem_append_left _ hx)⟩
      rcases List.mem_append.mp hx with hmem | hmem
      · exact h x hmem
      · rwa [List.mem_singleton.mp hmem]
    · rw [trim, List.rdropWhile_concat_neg _ _ _ hc, List.dropWhile_eq_nil_iff]

@[simp] theorem trim_nil : trim [] = [] := rfl

theorem trim_eq_self {first last : Char} (middle : List Char) (hfirst : isWhitespace first = false)
    (hlast : isWhitespace last = false) :
    trim (first :: (middle ++ [last])) = first :: (middle ++ [last]) := by
  rw [trim, ← List.cons_append, List.rdropWhile_concat_neg _ _ _ (by simp [hlast]),
    List.cons_append, List.dropWhile_cons_of_neg (by simp [hfirst])]

theorem mem_of_mem_trim (h : c ∈ trim text) : c ∈ text :=
  (List.rdropWhile_prefix isWhitespace text).subset ((List.dropWhile_suffix isWhitespace).subset h)

theorem trim_trim (text : List Char) : trim (trim text) = trim text := by
  have hend : (trim text).rdropWhile isWhitespace = trim text := by
    rw [List.rdropWhile_eq_self_iff]
    intro hne
    have hsuffix : trim text <:+ text.rdropWhile isWhitespace := List.dropWhile_suffix isWhitespace
    have hne' : text.rdropWhile isWhitespace ≠ [] := by
      intro hnil
      rw [trim, hnil] at hne
      exact hne rfl
    rw [hsuffix.getLast hne]
    exact List.rdropWhile_last_not _ _ hne'
  rw [trim, hend, trim, List.dropWhile_idempotent]

/-- What ends in another character keeps it and all that is in front of it. -/
theorem rdropWhile_append {p : Char → Bool} {last : Char} (hlast : p last = false)
    (front text : List Char) :
    (front ++ last :: text).rdropWhile p = front ++ last :: text.rdropWhile p := by
  induction text using List.reverseRecOn with
  | nil => exact List.rdropWhile_concat_neg _ _ _ (by simp [hlast])
  | append_singleton text c ih =>
    have happ : front ++ last :: (text ++ [c]) = (front ++ last :: text) ++ [c] := by
      rw [List.append_assoc, List.cons_append]
    by_cases hc : p c = true
    · rw [happ, List.rdropWhile_concat_pos _ _ _ hc, ih, List.rdropWhile_concat_pos _ _ _ hc]
    · rw [happ, List.rdropWhile_concat_neg _ _ _ hc, List.rdropWhile_concat_neg _ _ _ hc, ← happ]

theorem count_dropWhile {p : Char → Bool} (hc : p c = false) (text : List Char) :
    (text.dropWhile p).count c = text.count c := by
  induction text with
  | nil => rfl
  | cons d text ih =>
    by_cases hd : p d = true
    · have hne : d ≠ c := by
        rintro rfl
        rw [hc] at hd
        cases hd
      rw [List.dropWhile_cons_of_pos hd, ih, List.count_cons_of_ne hne]
    · rw [List.dropWhile_cons_of_neg hd]

theorem count_trim (hc : isWhitespace c = false) (text : List Char) :
    (trim text).count c = text.count c := by
  rw [trim, count_dropWhile hc, List.rdropWhile, List.count_reverse, count_dropWhile hc,
    List.count_reverse]

/-! ## Splitting -/

/-- What reads a line as its trim is read, and an empty line as nothing, reads the same
    from the lines as from the text between line feeds. -/
theorem filterMap_lines {β : Type*} {read : List Char → Option β}
    (hread : ∀ line, read (stripCr line) = read line) (hnil : read [] = none) (text : List Char) :
    (lines text).filterMap read = (text.splitOn '\n').filterMap read := by
  have hne : text.splitOn '\n' ≠ [] := List.splitOn_ne_nil _ _
  have hlast := List.getLast?_eq_some_getLast hne
  have hsplit := List.dropLast_append_getLast hne
  have hended : ((text.splitOn '\n').dropLast.map stripCr).filterMap read
      = (text.splitOn '\n').dropLast.filterMap read := by
    rw [List.filterMap_map]
    exact List.filterMap_congr fun line _ => hread line
  rw [lines]
  simp only [hlast]
  split
  case isTrue hempty =>
    rw [hended]
    conv_rhs => rw [← hsplit, hempty]
    rw [List.filterMap_append]
    simp [hnil]
  case isFalse =>
    rw [List.filterMap_append, hended, ← List.filterMap_append, hsplit]

theorem splitOn_replicate (n : Nat) :
    (List.replicate n '\n').splitOn '\n' = List.replicate (n + 1) [] := by
  induction n with
  | zero => rfl
  | succ n ih =>
    have hcons : ([] ++ '\n' :: List.replicate n '\n').splitOn '\n'
        = [] :: (List.replicate n '\n').splitOn '\n' :=
      List.splitOn_append_cons_self_of_not_mem (by simp) _
    rw [List.nil_append] at hcons
    rw [List.replicate_succ, hcons, ih, ← List.replicate_succ]

theorem splitOn_append_replicate (text : List Char) (n : Nat) :
    (text ++ List.replicate n '\n').splitOn '\n'
      = text.splitOn '\n' ++ List.replicate n [] := by
  cases n with
  | zero => simp
  | succ n =>
    rw [List.replicate_succ, List.splitOn_append_cons_of_beq _ _ (beq_self_eq_true '\n'),
      splitOn_replicate]

theorem exists_eq_trimEndLf_append (text : List Char) :
    ∃ n, text = trimEndLf text ++ List.replicate n '\n' := by
  induction text using List.reverseRecOn with
  | nil => exact ⟨0, rfl⟩
  | append_singleton text c ih =>
    by_cases hc : c = '\n'
    · subst hc
      obtain ⟨n, hn⟩ := ih
      refine ⟨n + 1, ?_⟩
      rw [trimEndLf, List.rdropWhile_concat_pos _ _ _ (by simp), List.replicate_succ',
        ← List.append_assoc]
      exact congrArg (· ++ ['\n']) hn
    · refine ⟨0, ?_⟩
      rw [trimEndLf, List.rdropWhile_concat_neg _ _ _ (by simpa using hc)]
      simp

/-- The lines of a text that has a line put after it, in place of the line feeds at its
    end. -/
theorem splitOn_trimEndLf_append (text : List Char) {line : List Char} (hline : '\n' ∉ line) :
    ∃ n, text.splitOn '\n' = (trimEndLf text).splitOn '\n' ++ List.replicate n []
      ∧ (trimEndLf text ++ '\n' :: line).splitOn '\n' = (trimEndLf text).splitOn '\n' ++ [line] := by
  obtain ⟨n, hn⟩ := exists_eq_trimEndLf_append text
  refine ⟨n, ?_, ?_⟩
  · conv_lhs => rw [hn]
    exact splitOn_append_replicate _ n
  · rw [List.splitOn_append_cons_of_beq _ _ (beq_self_eq_true '\n'), List.splitOn_eq_singleton hline]

/-- The lines that trim to something. -/
def visibleLines (text : List Char) : List (List Char) :=
  (text.splitOn '\n').filter fun line => trim line ≠ []

theorem mem_of_mem_splitOn {α : Type*} [DecidableEq α] {sep : α} {text piece : List α} {c : α}
    (hpiece : piece ∈ text.splitOn sep) (hc : c ∈ piece) : c ∈ text := by
  induction hn : text.length using Nat.strongRecOn generalizing text with
  | ind n ih =>
    by_cases hsep : sep ∈ text
    · obtain ⟨front, back, rfl, hfront⟩ := List.eq_append_cons_of_mem hsep
      rw [List.splitOn_append_cons_self_of_not_mem hfront] at hpiece
      rcases List.mem_cons.mp hpiece with rfl | hmem
      · exact List.mem_append_left _ hc
      · have hback := ih back.length (by simp at hn; omega) hmem rfl
        exact List.mem_append_right _ (List.mem_cons_of_mem _ hback)
    · rw [List.splitOn_eq_singleton hsep, List.mem_singleton] at hpiece
      rwa [← hpiece]

theorem not_mem_of_mem_splitOn {α : Type*} [DecidableEq α] {sep : α} {text piece : List α}
    (h : piece ∈ text.splitOn sep) : sep ∉ piece := by
  induction hn : text.length using Nat.strongRecOn generalizing text with
  | ind n ih =>
    by_cases hsep : sep ∈ text
    · obtain ⟨front, back, rfl, hfront⟩ := List.eq_append_cons_of_mem hsep
      rw [List.splitOn_append_cons_self_of_not_mem hfront] at h
      rcases List.mem_cons.mp h with rfl | hmem
      · exact hfront
      · exact ih back.length (by simp at hn; omega) hmem rfl
    · rw [List.splitOn_eq_singleton hsep, List.mem_singleton] at h
      rwa [h]

theorem visibleLines_eq_nil (h : trim text = []) : visibleLines text = [] := by
  rw [visibleLines, List.filter_eq_nil_iff]
  intro line hline
  have hws : ∀ c ∈ line, isWhitespace c = true := fun c hc =>
    trim_eq_nil_iff.mp h c (mem_of_mem_splitOn hline hc)
  simpa using trim_eq_nil_iff.mpr hws

/-! ## Lines joined again -/

theorem mem_of_mem_stripCr {line : List Char} (h : c ∈ stripCr line) : c ∈ line := by
  unfold stripCr at h
  split at h
  · exact (List.dropLast_sublist line).subset h
  · exact h

theorem lf_not_mem_of_mem_lines {text line : List Char} (h : line ∈ lines text) : '\n' ∉ line := by
  have hended : ∀ l ∈ ((text.splitOn '\n').dropLast.map stripCr), '\n' ∉ l := by
    intro l hl hlf
    obtain ⟨piece, hpiece, rfl⟩ := List.mem_map.mp hl
    exact not_mem_of_mem_splitOn ((List.dropLast_sublist _).subset hpiece) (mem_of_mem_stripCr hlf)
  unfold lines at h
  dsimp only at h
  split at h
  · next last hlast =>
    split at h
    · exact hended line h
    · rcases List.mem_append.mp h with hmem | hmem
      · exact hended line hmem
      · rw [List.mem_singleton.mp hmem]
        exact not_mem_of_mem_splitOn (List.mem_of_getLast? hlast)
  · exact hended line h

/-- Lines that are joined and read again are the same but for carriage returns, and but for an
    empty line at the end. -/
theorem lines_intercalate {ls : List (List Char)} (hne : ls ≠ []) (hlf : ∀ l ∈ ls, '\n' ∉ l) :
    lines (['\n'].intercalate ls)
      = ls.dropLast.map stripCr ++ (if ls.getLast hne = [] then [] else [ls.getLast hne]) := by
  rw [lines, List.splitOn_intercalate '\n' hlf hne, List.getLast?_eq_some_getLast hne]
  dsimp only
  split
  · rw [List.append_nil]
  · rfl

end TextLines
