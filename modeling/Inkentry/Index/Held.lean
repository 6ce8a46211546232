/-
  Inkentry.Index.Held

  When a chunk holds a line of the source: it shows the line, and its own text
  has what the line says at that place.  The windows of a text hold the lines
  that the text has, and no others (`exists_holds_slidingWindow_iff`).
-/

import Inkentry.Index.Markdown

namespace Inkentry
namespace Index

open TextLines OverlapWindows

/-- The chunk shows the line, and its text has it there, but for white space around it. -/
def Chunk.Holds (c : Chunk) (i : ℕ) (line : List Char) : Prop :=
  c.Shows i ∧ ∃ l, (TextLines.lines c.content.toList)[i - c.startLine]? = some l
    ∧ trim line <:+: trim l

/-- The chunk's docstring has the line. -/
def Chunk.Documents (c : Chunk) (line : List Char) : Prop :=
  ∃ d, c.docstring = some d ∧ trim line <:+: d.toList

/-- A chunk moved down. -/
def Chunk.movedDown (c : Chunk) (rows : ℕ) : Chunk :=
  { c with startLine := c.startLine + rows, endLine := c.endLine + rows }

theorem movedDown_holds_iff {c : Chunk} {rows i : ℕ} {line : List Char} :
    (c.movedDown rows).Holds (i + rows) line ↔ c.Holds i line := by
  have hplace : i + rows - (c.movedDown rows).startLine = i - c.startLine :=
    Nat.add_sub_add_right i rows c.startLine
  have hshows : (c.movedDown rows).Shows (i + rows) ↔ c.Shows i :=
    and_congr Nat.add_le_add_iff_right Nat.add_le_add_iff_right
  rw [Chunk.Holds, Chunk.Holds, hplace, hshows]
  rfl

/-! ## Lines of joined lines -/

section Joined

variable {ls : List (List Char)}

/-- A line that is read of joined lines says what the line in its place does. -/
theorem exists_of_lines_joinLines (hne : ls ≠ []) (hlf : ∀ l ∈ ls, '\n' ∉ l) {k : ℕ}
    {l : List Char} (hl : (TextLines.lines (joinLines ls).toList)[k]? = some l) :
    ∃ l', ls[k]? = some l' ∧ trim l' = trim l := by
  have hk := (List.getElem?_eq_some_iff.mp hl).choose
  have hin : k < ls.length := hk.trans_le (length_lines_joinLines_le hne hlf)
  refine ⟨ls[k], List.getElem?_eq_getElem hin, ?_⟩
  obtain ⟨hearly, hlast⟩ := getElem?_lines_joinLines hne hlf (List.getElem?_eq_getElem hin)
  rcases Nat.lt_or_ge (k + 1) ls.length with hlt | hge
  · rw [hearly hlt] at hl
    rw [← Option.some.inj hl, trim_stripCr]
  · by_cases hempty : ls[k] = []
    · -- an empty last line is not read at all
      exfalso
      have hread := lines_joinLines hne hlf
      have hlastEq : ls.getLast hne = [] := by
        rw [List.getLast_eq_getElem, ← hempty]
        congr 1
        omega
      rw [hread, hlastEq, if_pos rfl, List.append_nil, List.length_map, List.length_dropLast] at hk
      omega
    · rw [hlast (by omega) hempty] at hl
      rw [← Option.some.inj hl]

theorem exists_lines_joinLines (hne : ls ≠ []) (hlf : ∀ l ∈ ls, '\n' ∉ l) {k : ℕ} {l : List Char}
    (hl : ls[k]? = some l) (hblank : trim l ≠ []) :
    ∃ l', (TextLines.lines (joinLines ls).toList)[k]? = some l' ∧ trim l' = trim l := by
  have hin := (List.getElem?_eq_some_iff.mp hl).choose
  obtain ⟨hearly, hlast⟩ := getElem?_lines_joinLines hne hlf hl
  rcases Nat.lt_or_ge (k + 1) ls.length with hlt | hge
  · exact ⟨_, hearly hlt, trim_stripCr l⟩
  · refine ⟨l, hlast (by omega) ?_, rfl⟩
    rintro rfl
    exact hblank rfl

end Joined

/-! ## Windows -/

section Windows

variable {cap : ℕ} {text : String} {name docstring parent : Option String}

theorem lines_no_lf (text : List Char) : ∀ l ∈ TextLines.lines text, '\n' ∉ l := fun _ hl =>
  lf_not_mem_of_mem_lines hl

theorem trim_ne_nil_of_within {line l : List Char} (hne : trim line ≠ [])
    (h : trim line <:+: trim l) : trim l ≠ [] := by
  intro hnil
  rw [hnil, List.infix_nil] at h
  exact hne h

theorem exists_holds_slidingWindow_iff {i : ℕ} (hi : 1 ≤ i) {line : List Char}
    (hne : trim line ≠ []) :
    (∃ c ∈ slidingWindow cap text name docstring parent, c.Holds i line)
      ↔ ∃ l, (TextLines.lines text.toList)[i - 1]? = some l ∧ trim line <:+: trim l := by
  constructor
  · rintro ⟨c, hc, ⟨hstart, hend⟩, l, hl, hinfix⟩
    obtain ⟨w, hw, rfl⟩ := List.mem_map.mp hc
    have hlines := ne_nil_of_mem_windowsOf hw
    obtain ⟨hlt, hle, -⟩ := of_mem_windowsOf hlines hw
    change w.1 + 1 ≤ i at hstart
    change i ≤ w.2 at hend
    have hlength := @length_linesBetween _ w.1 w.2 hle
    have hbetween : linesBetween (TextLines.lines text.toList) w.1 w.2 ≠ [] :=
      List.ne_nil_of_length_pos (by omega)
    -- joining and splitting may trim the ends of a window, not a line in it
    obtain ⟨l', hl', htrim⟩ := exists_of_lines_joinLines hbetween
      (fun l hl => lines_no_lf _ l (mem_of_mem_linesBetween hl)) hl
    refine ⟨l', ?_, htrim ▸ hinfix⟩
    change (linesBetween (TextLines.lines text.toList) w.1 w.2)[i - (w.1 + 1)]? = some l' at hl'
    rw [getElem?_linesBetween (by omega), show w.1 + (i - (w.1 + 1)) = i - 1 by omega] at hl'
    exact hl'
  · rintro ⟨l, hl, hinfix⟩
    have hin := (List.getElem?_eq_some_iff.mp hl).choose
    -- the windows overlap or meet, so one of them has the line
    obtain ⟨w, hw, hstart, hend⟩ := @exists_mem_windowsOf cap _ _ hin
    have hlines : TextLines.lines text.toList ≠ [] := List.ne_nil_of_length_pos (by omega)
    obtain ⟨hlt, hle, -⟩ := of_mem_windowsOf hlines hw
    have hlength := @length_linesBetween _ w.1 w.2 hle
    have hbetween : linesBetween (TextLines.lines text.toList) w.1 w.2 ≠ [] :=
      List.ne_nil_of_length_pos (by omega)
    have hplace : (linesBetween (TextLines.lines text.toList) w.1 w.2)[i - (w.1 + 1)]?
        = some l := by
      rw [getElem?_linesBetween (by omega), show w.1 + (i - (w.1 + 1)) = i - 1 by omega]
      exact hl
    obtain ⟨l', hl', htrim⟩ := exists_lines_joinLines hbetween
      (fun l hl => lines_no_lf _ l (mem_of_mem_linesBetween hl)) hplace
      (trim_ne_nil_of_within hne hinfix)
    refine ⟨_, List.mem_map_of_mem hw, ⟨?_, ?_⟩, l', hl', htrim ▸ hinfix⟩
    · show w.1 + 1 ≤ i
      omega
    · show i ≤ w.2
      omega

theorem endLine_le_of_mem_slidingWindow {c : Chunk}
    (hc : c ∈ slidingWindow cap text name docstring parent) :
    1 ≤ c.startLine ∧ c.endLine ≤ (TextLines.lines text.toList).length := by
  obtain ⟨w, hw, rfl⟩ := List.mem_map.mp hc
  exact ⟨Nat.succ_pos _, (of_mem_windowsOf (ne_nil_of_mem_windowsOf hw) hw).2.1⟩

end Windows

end Index
end Inkentry
