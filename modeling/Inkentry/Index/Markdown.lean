/-
  Inkentry.Index.Markdown

  A Markdown document cut into sections at its headings.  A heading is
  recognised line by line, and fenced code blocks are not looked at.

  The sections tile the document (`tiles_markdownSections`), so they are
  disjoint, in order and complete whatever the document is.  They begin at the
  headings exactly where no line inside a fence looks like one, and their text
  is the document's unless a section that is windowed has a stray carriage
  return (`markdownLaw_iff`).
-/

import Inkentry.Index.Chunker
import Inkentry.Tokens

namespace Inkentry
namespace Index

open OverlapWindows TextLines

/-! ## The code -/

/-- The text of an ATX heading line, one to six `#` followed by a space or by nothing. -/
def atxHeading (line : List Char) : Option (List Char) :=
  let stripped := line.dropWhile (· == '#')
  let hashes := line.length - stripped.length
  if hashes = 0 ∨ hashes > 6 then none
  else if stripped ≠ [] ∧ stripped.head? ≠ some ' ' then none
  else some (trim stripped)

/-- A run of lines to be flushed: from `start` up to the one before `finish`. -/
structure MdSection where
  start : ℕ
  finish : ℕ
  title : Option (List Char)
  deriving DecidableEq, Repr

/-- The open section, the lines before the first heading, and what was flushed. -/
structure MdState where
  openSection : Option (ℕ × List Char)
  preamble : List ℕ
  flushed : List MdSection
  deriving DecidableEq, Repr

/-- Closes what is open at a line. -/
def MdState.close (s : MdState) (i : ℕ) : List MdSection :=
  match s.openSection with
  | some (start, title) => s.flushed ++ [⟨start, i, some title⟩]
  | none => match s.preamble with
    | start :: _ => s.flushed ++ [⟨start, i, none⟩]
    | [] => s.flushed

def mdLine (s : MdState) (i : ℕ) (line : List Char) : MdState :=
  match atxHeading line with
  | some heading =>
    { openSection := some (i, heading)
      preamble := if s.openSection.isSome then s.preamble else []
      flushed := s.close i }
  | none => if s.openSection.isNone then { s with preamble := s.preamble ++ [i] } else s

/-- The lines in turn, counted from `i`. -/
def mdLines : ℕ → List (List Char) → MdState → MdState
  | _, [], s => s
  | i, line :: rest, s => mdLines (i + 1) rest (mdLine s i line)

/-- Everything that is flushed, in order. -/
def markdownSections (lines : List (List Char)) : List MdSection :=
  (mdLines 0 lines ⟨none, [], []⟩).close lines.length

/-- What a section is flushed as: nothing if it is blank, windows if it is too large. -/
def flush (cap : ℕ) (lines : List (List Char)) (sec : MdSection) : List Chunk :=
  let content := joinLines (linesBetween lines sec.start sec.finish)
  if trim content.toList = [] then []
  else if estimateTokens content > cap then
    (slidingWindow cap content (sec.title.map String.ofList) none none).map fun sub =>
      { sub with startLine := sub.startLine + sec.start, endLine := sub.endLine + sec.start }
  else
    [{ kind := .section
       name := sec.title.map String.ofList
       startLine := sec.start + 1
       endLine := sec.finish
       content := content
       docstring := none
       parentScope := none
       summary := none
       inTestCode := false }]

def parseMarkdown (cap : ℕ) (source : String) : List Chunk :=
  let lines := TextLines.lines source.toList
  let chunks := (markdownSections lines).flatMap (flush cap lines)
  if chunks.isEmpty then slidingWindow cap source none none none else chunks

/-! ## Headings and fences -/

/-- The line after at most three spaces. -/
def unindented (line : List Char) : Option (List Char) :=
  let spaces := line.takeWhile (· == ' ')
  if spaces.length ≤ 3 then some (line.drop spaces.length) else none

def BACKTICK : Char := Char.ofNat 96

/-- The fence a line opens: its character and its length.  The info string after backticks has
    none. -/
def fenceOpened (line : List Char) : Option (Char × ℕ) :=
  match unindented line with
  | some rest =>
    let ticks := rest.takeWhile (· == BACKTICK)
    let tildes := rest.takeWhile (· == '~')
    if 3 ≤ ticks.length ∧ BACKTICK ∉ rest.drop ticks.length then some (BACKTICK, ticks.length)
    else if 3 ≤ tildes.length then some ('~', tildes.length)
    else none
  | none => none

/-- The line closes a fence: a run of its character that is no shorter, then white space. -/
def closesFence (fence : Char × ℕ) (line : List Char) : Bool :=
  match unindented line with
  | some rest =>
    let run := rest.takeWhile (· == fence.1)
    decide (fence.2 ≤ run.length) && (rest.drop run.length).all isWhitespace
  | none => false

/-- The fence that is open after a line. -/
def fenceAfter (open? : Option (Char × ℕ)) (line : List Char) : Option (Char × ℕ) :=
  match open? with
  | none => fenceOpened line
  | some fence => if closesFence fence line then none else some fence

/-- A line stands inside a fenced code block. -/
def Fenced (lines : List (List Char)) (i : ℕ) : Prop :=
  ((lines.take i).foldl fenceAfter none).isSome = true

/-- A line looks like a heading. -/
def AtxAt (lines : List (List Char)) (i : ℕ) (title : List Char) : Prop :=
  lines[i]?.bind atxHeading = some title

/-- A line is a heading. -/
def HeadingAt (lines : List (List Char)) (i : ℕ) (title : List Char) : Prop :=
  AtxAt lines i title ∧ ¬ Fenced lines i

/-! ## Tiles -/

variable {secs : List MdSection} {first last : ℕ}

/-- Sections that stand end to end from one line up to another. -/
def Tiles : ℕ → ℕ → List MdSection → Prop
  | first, last, [] => first = last
  | first, last, sec :: rest => sec.start = first ∧ sec.start < sec.finish ∧ Tiles sec.finish last rest

theorem Tiles.append {first mid last : ℕ} {sec : MdSection} (h : Tiles first mid secs)
    (hstart : sec.start = mid) (hlt : sec.start < sec.finish)
    (hlast : sec.finish = last) : Tiles first last (secs ++ [sec]) := by
  induction secs generalizing first with
  | nil =>
    have hmid : first = mid := h
    exact ⟨hstart.trans hmid.symm, hlt, hlast⟩
  | cons s rest ih => exact ⟨h.1, h.2.1, ih h.2.2⟩

theorem Tiles.le (h : Tiles first last secs) : first ≤ last := by
  induction secs generalizing first with
  | nil => exact Nat.le_of_eq h
  | cons s rest ih =>
    obtain ⟨hstart, hlt, hrest⟩ := h
    have := ih hrest
    omega

theorem Tiles.of_mem (h : Tiles first last secs) {sec : MdSection} (hsec : sec ∈ secs) :
    first ≤ sec.start ∧ sec.start < sec.finish ∧ sec.finish ≤ last := by
  induction secs generalizing first with
  | nil => exact absurd hsec List.not_mem_nil
  | cons s rest ih =>
    obtain ⟨hstart, hlt, hrest⟩ := h
    rcases List.mem_cons.mp hsec with rfl | hin
    · exact ⟨Nat.le_of_eq hstart.symm, hlt, hrest.le⟩
    · have hmem := ih hrest hin
      exact ⟨by omega, hmem.2⟩

theorem Tiles.exists_mem (h : Tiles first last secs) {i : ℕ} (hi : first ≤ i)
    (hlt : i < last) : ∃ sec ∈ secs, sec.start ≤ i ∧ i < sec.finish := by
  induction secs generalizing first with
  | nil =>
    have heq : first = last := h
    omega
  | cons s rest ih =>
    obtain ⟨hstart, -, hrest⟩ := h
    rcases Nat.lt_or_ge i s.finish with hin | hout
    · exact ⟨s, List.mem_cons_self .., by omega, hin⟩
    · obtain ⟨sec, hsec, hcover⟩ := ih hrest hout
      exact ⟨sec, List.mem_cons_of_mem _ hsec, hcover⟩

theorem Tiles.pairwise (h : Tiles first last secs) :
    secs.Pairwise fun a b => a.finish ≤ b.start := by
  induction secs generalizing first with
  | nil => exact List.Pairwise.nil
  | cons s rest ih =>
    obtain ⟨-, -, hrest⟩ := h
    exact List.pairwise_cons.mpr ⟨fun sec hsec => (hrest.of_mem hsec).1, ih hrest⟩

/-! ## Sections tile the document -/

theorem AtxAt.inj {lines : List (List Char)} {i : ℕ} {title title' : List Char}
    (h : AtxAt lines i title) (h' : AtxAt lines i title') : title = title' :=
  Option.some.inj (Eq.trans (Eq.symm h) h')

/-- Sections up to a line: they tile it, and those with a title are where a line looks like a
    heading. -/
structure CutUpTo (lines : List (List Char)) (i : ℕ) (secs : List MdSection) : Prop where
  tiles : Tiles 0 i secs
  titled : ∀ j title, (∃ sec ∈ secs, sec.start = j ∧ sec.title = some title)
    ↔ j < i ∧ AtxAt lines j title
  untitled : ∀ sec ∈ secs, sec.title = none → sec.start = 0

/-- Where the loop stands after `i` lines. -/
def MdInv (lines : List (List Char)) (i : ℕ) (s : MdState) : Prop :=
  match s.openSection with
  | some (h, title) => h < i ∧ AtxAt lines h title ∧ CutUpTo lines h s.flushed
      ∧ ∀ j, h < j → j < i → ∀ title, ¬ AtxAt lines j title
  | none => s.flushed = [] ∧ s.preamble = List.range i ∧ ∀ j < i, ∀ title, ¬ AtxAt lines j title

theorem MdInv.close {lines : List (List Char)} {i : ℕ} {s : MdState} (h : MdInv lines i s) :
    CutUpTo lines i (s.close i) := by
  obtain ⟨openSection, preamble, flushed⟩ := s
  cases openSection with
  | some opened =>
    obtain ⟨start, title⟩ := opened
    obtain ⟨hlt, hatx, hcut, hnone⟩ : start < i ∧ AtxAt lines start title
      ∧ CutUpTo lines start flushed ∧ ∀ j, start < j → j < i → ∀ title, ¬ AtxAt lines j title := h
    refine ⟨hcut.tiles.append rfl hlt rfl, fun j other => ?_, fun sec hsec => ?_⟩
    · show (∃ sec ∈ flushed ++ [⟨start, i, some title⟩], _) ↔ _
      constructor
      · rintro ⟨sec, hsec, rfl, htitle⟩
        rcases List.mem_append.mp hsec with hold | hnew
        · obtain ⟨hj, hat⟩ := (hcut.titled _ _).mp ⟨sec, hold, rfl, htitle⟩
          exact ⟨by omega, hat⟩
        · rw [List.mem_singleton.mp hnew] at htitle ⊢
          exact ⟨hlt, Option.some.inj htitle ▸ hatx⟩
      · rintro ⟨hj, hat⟩
        -- between the open heading and the cut there is no other
        rcases Nat.lt_trichotomy j start with hbefore | rfl | hafter
        · obtain ⟨sec, hsec, hsame⟩ := (hcut.titled j other).mpr ⟨hbefore, hat⟩
          exact ⟨sec, List.mem_append_left _ hsec, hsame⟩
        · exact ⟨_, List.mem_append_right _ (List.mem_singleton_self _), rfl,
            congrArg some (hatx.inj hat)⟩
        · exact absurd hat (hnone j hafter hj other)
    · rcases List.mem_append.mp hsec with hold | hnew
      · exact hcut.untitled sec hold
      · rw [List.mem_singleton.mp hnew]
        exact fun hnil => absurd hnil (by simp)
  | none =>
    -- no heading so far: the preamble is the only section, and empty before the first line
    obtain ⟨rfl, rfl, hnone⟩ : flushed = [] ∧ preamble = List.range i
      ∧ ∀ j < i, ∀ title, ¬ AtxAt lines j title := h
    cases i with
    | zero =>
      refine ⟨rfl, fun j title => iff_of_false ?_ fun hj => ?_, fun sec hsec => ?_⟩
      · rintro ⟨sec, hsec, -⟩
        exact absurd hsec List.not_mem_nil
      · omega
      · exact absurd hsec List.not_mem_nil
    | succ n =>
      have hclose : MdState.close ⟨none, List.range (n + 1), []⟩ (n + 1) = [⟨0, n + 1, none⟩] := by
        rw [MdState.close, List.range_succ_eq_map]
        rfl
      rw [hclose]
      refine ⟨⟨rfl, Nat.succ_pos n, rfl⟩, fun j title => iff_of_false ?_ ?_, fun sec hsec _ => ?_⟩
      · rintro ⟨sec, hsec, -, htitle⟩
        rw [List.mem_singleton.mp hsec] at htitle
        exact absurd htitle (by simp)
      · rintro ⟨hj, hat⟩
        exact hnone j hj title hat
      · rw [List.mem_singleton.mp hsec]

theorem MdInv.line {lines : List (List Char)} {i : ℕ} {s : MdState} (h : MdInv lines i s)
    {line : List Char} (hline : lines[i]? = some line) : MdInv lines (i + 1) (mdLine s i line) := by
  have hclose := h.close
  have hatx : ∀ title, AtxAt lines i title ↔ atxHeading line = some title := by
    intro title
    rw [AtxAt, hline, Option.bind_some]
  rw [mdLine]
  -- a heading opens a section; any other line stays in the one that is open
  cases hheading : atxHeading line with
  | some heading =>
    refine ⟨Nat.lt_succ_self i, (hatx heading).mpr hheading, hclose, fun j hj hlt => ?_⟩
    omega
  | none =>
    have hnot : ∀ title, ¬ AtxAt lines i title := fun title hat => by
      rw [hatx, hheading] at hat
      exact absurd hat (by simp)
    obtain ⟨openSection, preamble, flushed⟩ := s
    cases openSection with
    | some opened =>
      obtain ⟨hlt, hstart, hcut, hnone⟩ := h
      refine ⟨by omega, hstart, hcut, fun j hj hle title => ?_⟩
      rcases Nat.lt_succ_iff_lt_or_eq.mp hle with hold | rfl
      · exact hnone j hj hold title
      · exact hnot title
    | none =>
      obtain ⟨hflushed, hpreamble, hnone⟩ := h
      refine ⟨hflushed, ?_, fun j hle title => ?_⟩
      · show preamble ++ [i] = List.range (i + 1)
        rw [List.range_succ]
        exact congrArg (· ++ [i]) hpreamble
      · rcases Nat.lt_succ_iff_lt_or_eq.mp hle with hold | rfl
        · exact hnone j hold title
        · exact hnot title

theorem MdInv.run {lines front back : List (List Char)} (hlines : lines = front ++ back)
    {s : MdState} (h : MdInv lines front.length s) :
    MdInv lines lines.length (mdLines front.length back s) := by
  induction back generalizing front s with
  | nil =>
    rw [hlines, List.append_nil] at *
    exact h
  | cons line rest ih =>
    have hline : lines[front.length]? = some line := by
      rw [hlines, List.getElem?_append_right (Nat.le_refl _), Nat.sub_self]
      rfl
    have hnext : lines = (front ++ [line]) ++ rest := by
      rw [hlines, List.append_assoc, List.singleton_append]
    have hlength : (front ++ [line]).length = front.length + 1 := List.length_append
    have hrun := @ih (front ++ [line]) hnext (mdLine s front.length line)
      (by rw [hlength]; exact h.line hline)
    rwa [hlength] at hrun

/-- The sections of a document tile it, and begin where a line looks like a heading. -/
theorem cutUpTo_markdownSections (lines : List (List Char)) :
    CutUpTo lines lines.length (markdownSections lines) := by
  have hstart : MdInv lines ([] : List (List Char)).length ⟨none, [], []⟩ :=
    ⟨rfl, rfl, fun j hj => by simp at hj⟩
  exact (hstart.run (List.nil_append lines).symm).close

theorem tiles_markdownSections (lines : List (List Char)) :
    Tiles 0 lines.length (markdownSections lines) := (cutUpTo_markdownSections lines).tiles

/-! ## Text of a section -/

/-- The text a section is flushed as. -/
def sectionText (lines : List (List Char)) (sec : MdSection) : String :=
  joinLines (linesBetween lines sec.start sec.finish)

/-- The section goes through the sliding window. -/
def Oversized (cap : ℕ) (lines : List (List Char)) (sec : MdSection) : Prop :=
  trim (sectionText lines sec).toList ≠ [] ∧ cap < estimateTokens (sectionText lines sec)

theorem toList_joinLines (ls : List (List Char)) :
    (joinLines ls).toList = ['\n'].intercalate ls := String.toList_ofList

theorem length_linesBetween {lines : List (List Char)} {first last : ℕ} (h : last ≤ lines.length) :
    (linesBetween lines first last).length = last - first := by
  rw [linesBetween, List.length_take, List.length_drop]
  omega

theorem getElem?_linesBetween {lines : List (List Char)} {first last i : ℕ} (h : i < last - first) :
    (linesBetween lines first last)[i]? = lines[first + i]? := by
  rw [linesBetween, List.getElem?_take_of_lt h, List.getElem?_drop]

theorem mem_of_mem_linesBetween {lines : List (List Char)} {line : List Char}
    (h : line ∈ linesBetween lines first last) : line ∈ lines :=
  List.mem_of_mem_drop (List.mem_of_mem_take h)

theorem linesBetween_linesBetween (lines : List (List Char)) {first last a b : ℕ}
    (h : b ≤ last - first) : linesBetween (linesBetween lines first last) a b
      = linesBetween lines (first + a) (first + b) := by
  rw [linesBetween, linesBetween, linesBetween, List.drop_take, List.drop_drop, List.take_take]
  congr 1
  omega

theorem mem_intercalate {ls : List (List Char)} {line : List Char} {c : Char} (hline : line ∈ ls)
    (hc : c ∈ line) : c ∈ ['\n'].intercalate ls := by
  induction ls with
  | nil => exact absurd hline List.not_mem_nil
  | cons first rest ih =>
    cases rest with
    | nil =>
      rw [List.mem_singleton.mp hline] at hc
      rw [List.intercalate_singleton]
      exact hc
    | cons next rest =>
      rw [List.intercalate_cons_cons]
      rcases List.mem_cons.mp hline with rfl | hin
      · exact List.mem_append_left _ (List.mem_append_left _ hc)
      · exact List.mem_append_right _ (ih hin)

theorem trim_joinLines_ne_nil {ls : List (List Char)} {line : List Char} (hline : line ∈ ls)
    (hne : trim line ≠ []) : trim (joinLines ls).toList ≠ [] := by
  intro hblank
  refine hne (trim_eq_nil_iff.mpr fun c hc => ?_)
  rw [toList_joinLines] at hblank
  exact trim_eq_nil_iff.mp hblank c (mem_intercalate hline hc)

theorem trim_ne_nil_of_atxHeading {line title : List Char} (h : atxHeading line = some title) :
    trim line ≠ [] := by
  have hhash : line.dropWhile (· == '#') ≠ line := by
    intro hsame
    rw [atxHeading, hsame] at h
    simp at h
  intro hblank
  cases line with
  | nil => exact hhash rfl
  | cons c rest =>
    have hc : (c == '#') = true := by
      by_contra hne
      exact hhash (List.dropWhile_cons_of_neg hne)
    have hspace := trim_eq_nil_iff.mp hblank c (List.mem_cons_self ..)
    rw [beq_iff_eq.mp hc] at hspace
    exact absurd hspace (by decide)

/-! ## Windows of a section -/

section Relined

variable {ls : List (List Char)}

theorem lines_joinLines (hne : ls ≠ []) (hlf : ∀ l ∈ ls, '\n' ∉ l) :
    TextLines.lines (joinLines ls).toList = ls.dropLast.map stripCr ++ (if ls.getLast hne = [] then [] else [ls.getLast hne]) := by
  rw [toList_joinLines, lines_intercalate hne hlf]

/-- Joined and read again, a line is the same but for a carriage return, the last one is the
    same, and only an empty last line is lost. -/
theorem getElem?_lines_joinLines (hne : ls ≠ []) (hlf : ∀ l ∈ ls, '\n' ∉ l) {i : ℕ}
    {line : List Char} (hi : ls[i]? = some line) :
    (i + 1 < ls.length → (TextLines.lines (joinLines ls).toList)[i]? = some (stripCr line))
      ∧ (i + 1 = ls.length → line ≠ [] →
        (TextLines.lines (joinLines ls).toList)[i]? = some line) := by
  have hdrop : ls.dropLast.length = ls.length - 1 := List.length_dropLast
  rw [lines_joinLines hne hlf]
  constructor
  · intro hlt
    rw [List.getElem?_append_left (by rw [List.length_map]; omega), List.getElem?_map,
      List.getElem?_dropLast, if_pos (by omega), hi, Option.map_some]
  · intro hlast hline
    have hget : ls.getLast hne = line := by
      rw [List.getLast_eq_getElem]
      have hidx : i = ls.length - 1 := by omega
      obtain ⟨hin, heq⟩ := List.getElem?_eq_some_iff.mp hi
      subst hidx
      exact heq
    rw [hget, if_neg hline, List.getElem?_append_right (by rw [List.length_map]; omega),
      List.length_map, hdrop, show i - (ls.length - 1) = 0 by omega]
    rfl

theorem length_lines_joinLines_le (hne : ls ≠ []) (hlf : ∀ l ∈ ls, '\n' ∉ l) :
    (TextLines.lines (joinLines ls).toList).length ≤ ls.length := by
  have hpos := List.length_pos_of_ne_nil hne
  rw [lines_joinLines hne hlf, List.length_append, List.length_map, List.length_dropLast]
  split
  · exact (Nat.add_zero _).trans_le (Nat.sub_le _ _)
  · exact (Nat.sub_add_cancel hpos).le

/-- Without stray carriage returns the lines read again are the first of the lines. -/
theorem lines_joinLines_eq_take (hne : ls ≠ []) (hlf : ∀ l ∈ ls, '\n' ∉ l)
    (hcr : ∀ l ∈ ls.dropLast, stripCr l = l) :
    TextLines.lines (joinLines ls).toList
      = ls.take (TextLines.lines (joinLines ls).toList).length := by
  have hmap : ls.dropLast.map stripCr = ls.dropLast := by
    rw [List.map_congr_left hcr, List.map_id']
  have hprefix : TextLines.lines (joinLines ls).toList <+: ls := by
    rw [lines_joinLines hne hlf, hmap]
    split
    · rw [List.append_nil]
      exact List.dropLast_prefix ls
    · exact ⟨[], by rw [List.append_nil, List.dropLast_append_getLast]⟩
  exact List.prefix_iff_eq_take.mp hprefix

end Relined

theorem mem_or_of_mem_intercalate {ls : List (List Char)} {c : Char}
    (h : c ∈ ['\n'].intercalate ls) : c = '\n' ∨ ∃ l ∈ ls, c ∈ l := by
  induction ls with
  | nil => exact absurd h List.not_mem_nil
  | cons first rest ih =>
    cases rest with
    | nil =>
      rw [List.intercalate_singleton] at h
      exact Or.inr ⟨first, List.mem_cons_self .., h⟩
    | cons next rest =>
      rw [List.intercalate_cons_cons] at h
      rcases List.mem_append.mp h with hfront | hrest
      · rcases List.mem_append.mp hfront with hfirst | hsep
        · exact Or.inr ⟨first, List.mem_cons_self .., hfirst⟩
        · exact Or.inl (List.mem_singleton.mp hsep)
      · rcases ih hrest with hsep | ⟨l, hl, hc⟩
        · exact Or.inl hsep
        · exact Or.inr ⟨l, List.mem_cons_of_mem _ hl, hc⟩

theorem exists_trim_ne_nil {ls : List (List Char)} (h : trim (joinLines ls).toList ≠ []) :
    ∃ l ∈ ls, trim l ≠ [] := by
  by_contra! hblank
  refine h (trim_eq_nil_iff.mpr fun c hc => ?_)
  rw [toList_joinLines] at hc
  rcases mem_or_of_mem_intercalate hc with rfl | ⟨l, hl, hc⟩
  · decide
  · exact trim_eq_nil_iff.mp (hblank l hl) c hc

theorem joinLines_inj {ls ls' : List (List Char)} (hne : ls ≠ []) (hne' : ls' ≠ [])
    (hlf : ∀ l ∈ ls, '\n' ∉ l) (hlf' : ∀ l ∈ ls', '\n' ∉ l) (h : joinLines ls = joinLines ls') :
    ls = ls' := by
  have htext := congrArg String.toList h
  rw [toList_joinLines, toList_joinLines] at htext
  have hsplit := congrArg (List.splitOn '\n') htext
  rwa [List.splitOn_intercalate '\n' hlf hne, List.splitOn_intercalate '\n' hlf' hne'] at hsplit

/-! ## What a section is flushed as -/

/-- The lines the sliding window sees of a section. -/
def relined (lines : List (List Char)) (sec : MdSection) : List (List Char) :=
  TextLines.lines (sectionText lines sec).toList

/-- A window of an oversized section. -/
def windowIn (lines : List (List Char)) (sec : MdSection) (w : ℕ × ℕ) : Chunk :=
  { windowChunk (relined lines sec) (sec.title.map String.ofList) none none w with
    startLine := w.1 + 1 + sec.start
    endLine := w.2 + sec.start }

/-- A section that is one chunk. -/
def wholeChunk (lines : List (List Char)) (sec : MdSection) : Chunk where
  kind := .section
  name := sec.title.map String.ofList
  startLine := sec.start + 1
  endLine := sec.finish
  content := sectionText lines sec
  docstring := none
  parentScope := none
  summary := none
  inTestCode := false

section Flush

variable {cap : ℕ} {lines : List (List Char)} {sec : MdSection}

theorem flush_of_blank (h : trim (sectionText lines sec).toList = []) :
    flush cap lines sec = [] := if_pos h

theorem flush_of_oversized (h : Oversized cap lines sec) :
    flush cap lines sec = (windowsOf cap (relined lines sec)).map (windowIn lines sec) := by
  rw [flush]
  show (if trim (sectionText lines sec).toList = [] then _
    else if estimateTokens (sectionText lines sec) > cap then _ else _) = _
  rw [if_neg h.1, if_pos h.2, slidingWindow, List.map_map]
  rfl

theorem flush_of_fits (hne : trim (sectionText lines sec).toList ≠ [])
    (h : estimateTokens (sectionText lines sec) ≤ cap) :
    flush cap lines sec = [wholeChunk lines sec] := by
  rw [flush]
  show (if trim (sectionText lines sec).toList = [] then _
    else if estimateTokens (sectionText lines sec) > cap then _ else _) = _
  rw [if_neg hne, if_neg (by omega)]
  rfl

/-- A run of lines of a text. -/
structure IsRun (lines : List (List Char)) (sec : MdSection) : Prop where
  no_lf : ∀ l ∈ lines, '\n' ∉ l
  lt : sec.start < sec.finish
  le : sec.finish ≤ lines.length

theorem IsRun.length_between (h : IsRun lines sec) :
    (linesBetween lines sec.start sec.finish).length = sec.finish - sec.start :=
  length_linesBetween h.le

theorem IsRun.between_ne_nil (h : IsRun lines sec) :
    linesBetween lines sec.start sec.finish ≠ [] := by
  refine List.ne_nil_of_length_pos ?_
  rw [h.length_between]
  exact Nat.sub_pos_of_lt h.lt

theorem IsRun.between_no_lf (h : IsRun lines sec) :
    ∀ l ∈ linesBetween lines sec.start sec.finish, '\n' ∉ l := fun l hl =>
  h.no_lf l (mem_of_mem_linesBetween hl)

/-- A line of the run that is not blank is among those the sliding window sees. -/
theorem IsRun.lt_length_relined (h : IsRun lines sec) {i : ℕ} {line : List Char}
    (hi : (linesBetween lines sec.start sec.finish)[i]? = some line) (hne : trim line ≠ []) :
    i < (relined lines sec).length := by
  have hin := (List.getElem?_eq_some_iff.mp hi).choose
  obtain ⟨hearly, hlast⟩ := getElem?_lines_joinLines h.between_ne_nil h.between_no_lf hi
  have hline : line ≠ [] := by
    rintro rfl
    exact hne rfl
  rcases Nat.lt_or_ge (i + 1) (linesBetween lines sec.start sec.finish).length with hlt | hge
  · exact (List.getElem?_eq_some_iff.mp (hearly hlt)).choose
  · exact (List.getElem?_eq_some_iff.mp (hlast (by omega) hline)).choose

theorem IsRun.length_relined_le (h : IsRun lines sec) :
    (relined lines sec).length ≤ sec.finish - sec.start := by
  rw [← h.length_between]
  exact length_lines_joinLines_le h.between_ne_nil h.between_no_lf

theorem IsRun.relined_ne_nil (h : IsRun lines sec)
    (hne : trim (sectionText lines sec).toList ≠ []) : relined lines sec ≠ [] := by
  obtain ⟨line, hline, hnotBlank⟩ := exists_trim_ne_nil hne
  obtain ⟨i, hi⟩ := List.mem_iff_getElem?.mp hline
  have hlength := h.lt_length_relined hi hnotBlank
  exact List.ne_nil_of_length_pos (by omega)

theorem IsRun.of_mem_flush (h : IsRun lines sec) {c : Chunk} (hc : c ∈ flush cap lines sec) :
    c.name = sec.title.map String.ofList ∧ sec.start < c.startLine ∧ c.startLine ≤ c.endLine
      ∧ c.endLine ≤ sec.finish := by
  by_cases hblank : trim (sectionText lines sec).toList = []
  · rw [flush_of_blank hblank] at hc
    exact absurd hc List.not_mem_nil
  by_cases hfits : estimateTokens (sectionText lines sec) ≤ cap
  · rw [flush_of_fits hblank hfits, List.mem_singleton] at hc
    rw [hc]
    exact ⟨rfl, Nat.lt_succ_self _, h.lt, Nat.le_refl _⟩
  · rw [flush_of_oversized ⟨hblank, by omega⟩] at hc
    obtain ⟨w, hw, rfl⟩ := List.mem_map.mp hc
    obtain ⟨hlt, hle, -⟩ := of_mem_windowsOf (h.relined_ne_nil hblank) hw
    have hlines := h.length_relined_le
    have hrun := h.lt
    refine ⟨rfl, ?_, ?_, ?_⟩
    · show sec.start < w.1 + 1 + sec.start
      omega
    · show w.1 + 1 + sec.start ≤ w.2 + sec.start
      omega
    · show w.2 + sec.start ≤ sec.finish
      omega

theorem IsRun.exists_shows (h : IsRun lines sec) {i : ℕ} (hi : sec.start ≤ i) (hlt : i < sec.finish)
    {line : List Char} (hline : lines[i]? = some line) (hne : trim line ≠ []) :
    ∃ c ∈ flush cap lines sec, c.Shows (i + 1) := by
  have hget : (linesBetween lines sec.start sec.finish)[i - sec.start]? = some line := by
    rw [getElem?_linesBetween (by omega), Nat.add_sub_cancel' hi, hline]
  have htext : trim (sectionText lines sec).toList ≠ [] :=
    trim_joinLines_ne_nil (List.mem_of_getElem? hget) hne
  by_cases hfits : estimateTokens (sectionText lines sec) ≤ cap
  · rw [flush_of_fits htext hfits]
    exact ⟨_, List.mem_singleton_self _, Nat.succ_le_succ hi, hlt⟩
  · have hin := h.lt_length_relined hget hne
    obtain ⟨w, hw, hstart, hend⟩ := @exists_mem_windowsOf cap _ _ hin
    rw [flush_of_oversized ⟨htext, by omega⟩]
    refine ⟨_, List.mem_map_of_mem hw, ?_, ?_⟩
    · show w.1 + 1 + sec.start ≤ i + 1
      omega
    · show i + 1 ≤ w.2 + sec.start
      omega

theorem IsRun.flush_ne_nil (h : IsRun lines sec)
    (hne : trim (sectionText lines sec).toList ≠ []) : flush cap lines sec ≠ [] := by
  obtain ⟨line, hline, hnotBlank⟩ := exists_trim_ne_nil hne
  obtain ⟨i, hi⟩ := List.mem_iff_getElem?.mp hline
  have hin := (List.getElem?_eq_some_iff.mp hi).choose
  rw [h.length_between] at hin
  rw [getElem?_linesBetween hin] at hi
  obtain ⟨c, hc, -⟩ := @IsRun.exists_shows cap _ _ h (sec.start + i) (by omega) (by omega) _ hi
    hnotBlank
  exact List.ne_nil_of_mem hc

/-! ### Text of the chunks -/

/-- Every chunk's text is its lines. -/
def TextKept (cap : ℕ) (lines : List (List Char)) (sec : MdSection) : Prop :=
  ∀ c ∈ flush cap lines sec, c.content = joinLines (linesBetween lines (c.startLine - 1) c.endLine)

/-- No line but the last of a section ends in a carriage return. -/
def NoStrayCr (lines : List (List Char)) (sec : MdSection) : Prop :=
  ∀ l ∈ (linesBetween lines sec.start sec.finish).dropLast, stripCr l = l

theorem content_windowIn (w : ℕ × ℕ) :
    (windowIn lines sec w).content = joinLines (linesBetween (relined lines sec) w.1 w.2) := rfl

theorem IsRun.linesBetween_windowIn (h : IsRun lines sec) {w : ℕ × ℕ}
    (hw : w.2 ≤ (relined lines sec).length) :
    linesBetween lines ((windowIn lines sec w).startLine - 1) (windowIn lines sec w).endLine
      = linesBetween (linesBetween lines sec.start sec.finish) w.1 w.2 := by
  have hlength := h.length_relined_le
  rw [linesBetween_linesBetween lines (by omega)]
  show linesBetween lines (w.1 + 1 + sec.start - 1) (w.2 + sec.start) = _
  rw [show w.1 + 1 + sec.start - 1 = sec.start + w.1 by omega, Nat.add_comm w.2]

theorem textKept_of_noStrayCr (h : IsRun lines sec)
    (hcr : Oversized cap lines sec → NoStrayCr lines sec) : TextKept cap lines sec := by
  intro c hc
  by_cases hblank : trim (sectionText lines sec).toList = []
  · rw [flush_of_blank hblank] at hc
    exact absurd hc List.not_mem_nil
  by_cases hfits : estimateTokens (sectionText lines sec) ≤ cap
  · rw [flush_of_fits hblank hfits, List.mem_singleton] at hc
    rw [hc]
    rfl
  · have hover : Oversized cap lines sec := ⟨hblank, by omega⟩
    rw [flush_of_oversized hover] at hc
    obtain ⟨w, hw, rfl⟩ := List.mem_map.mp hc
    obtain ⟨-, hle, -⟩ := of_mem_windowsOf (h.relined_ne_nil hblank) hw
    have htake : relined lines sec
        = (linesBetween lines sec.start sec.finish).take (relined lines sec).length :=
      lines_joinLines_eq_take h.between_ne_nil h.between_no_lf (hcr hover)
    rw [content_windowIn, h.linesBetween_windowIn hle]
    refine congrArg joinLines ?_
    rw [linesBetween, linesBetween, htake, List.drop_take, List.take_take]
    congr 1
    omega

theorem noStrayCr_of_textKept (h : IsRun lines sec) (hover : Oversized cap lines sec)
    (hkept : TextKept cap lines sec) : NoStrayCr lines sec := by
  intro l hl
  obtain ⟨i, hi⟩ := List.mem_iff_getElem?.mp hl
  rw [List.getElem?_dropLast] at hi
  split at hi
  case isFalse => exact absurd hi (by simp)
  case isTrue hlt =>
    have hseen := (getElem?_lines_joinLines h.between_ne_nil h.between_no_lf hi).1 (by omega)
    have hin := (List.getElem?_eq_some_iff.mp hseen).choose
    -- the window that shows the line has the lines as they are
    obtain ⟨w, hw, hstart, hend⟩ := @exists_mem_windowsOf cap _ _ hin
    obtain ⟨hwlt, hwle, -⟩ := of_mem_windowsOf (h.relined_ne_nil hover.1) hw
    have htext := hkept (windowIn lines sec w) (by
      rw [flush_of_oversized hover]
      exact List.mem_map_of_mem hw)
    rw [content_windowIn, h.linesBetween_windowIn hwle] at htext
    have hlength := h.length_relined_le
    have hlengthBetween := h.length_between
    have hseenNe : 0 < (linesBetween (relined lines sec) w.1 w.2).length := by
      rw [length_linesBetween hwle]
      omega
    have hownNe : 0 < (linesBetween (linesBetween lines sec.start sec.finish) w.1 w.2).length := by
      rw [length_linesBetween (by omega)]
      omega
    have hsame := joinLines_inj (List.ne_nil_of_length_pos hseenNe)
      (List.ne_nil_of_length_pos hownNe)
      (fun x hx => lf_not_mem_of_mem_lines (mem_of_mem_linesBetween hx))
      (fun x hx => h.between_no_lf x (mem_of_mem_linesBetween hx)) htext
    have hat : (linesBetween (relined lines sec) w.1 w.2)[i - w.1]?
        = (linesBetween (linesBetween lines sec.start sec.finish) w.1 w.2)[i - w.1]? := by
      rw [hsame]
    rw [getElem?_linesBetween (by omega), getElem?_linesBetween (by omega),
      Nat.add_sub_cancel' hstart, hi] at hat
    exact Option.some.inj (hseen.symm.trans hat)

end Flush

/-! ## What a document should be cut into -/

/-- The sections that are emitted: those that are flushed as something. -/
def emitted (cap : ℕ) (lines : List (List Char)) : List MdSection :=
  (markdownSections lines).filter fun sec => !(flush cap lines sec).isEmpty

/-- What is owed of a document with a heading. -/
structure MarkdownLaw (cap : ℕ) (source : String) : Prop where
  chunks : parseMarkdown cap source
    = (emitted cap (lines source.toList)).flatMap (flush cap (lines source.toList))
  disjoint : (emitted cap (lines source.toList)).Pairwise fun a b => a.finish ≤ b.start
  /-- a section's chunks are under its title and on its lines -/
  inside : ∀ sec ∈ emitted cap (lines source.toList), ∀ c ∈ flush cap (lines source.toList) sec,
    c.name = sec.title.map String.ofList ∧ sec.start < c.startLine ∧ c.startLine ≤ c.endLine
      ∧ c.endLine ≤ sec.finish
  /-- a section that is not windowed is one chunk -/
  whole : ∀ sec ∈ emitted cap (lines source.toList), ¬ Oversized cap (lines source.toList) sec →
    flush cap (lines source.toList) sec = [wholeChunk (lines source.toList) sec]
  covered : ∀ i line, (lines source.toList)[i]? = some line → trim line ≠ [] →
    ∃ sec ∈ emitted cap (lines source.toList), sec.start ≤ i ∧ i < sec.finish
      ∧ ∃ c ∈ flush cap (lines source.toList) sec, c.Shows (i + 1)
  text : ∀ sec ∈ emitted cap (lines source.toList), TextKept cap (lines source.toList) sec
  /-- a section with a title begins at each heading, and nowhere else -/
  headings : ∀ i title, (∃ sec ∈ emitted cap (lines source.toList),
    sec.start = i ∧ sec.title = some title) ↔ HeadingAt (lines source.toList) i title
  /-- what has no title begins the document -/
  untitled : ∀ sec ∈ emitted cap (lines source.toList), sec.title = none → sec.start = 0

section Law

variable {cap : ℕ} {source : String}

theorem isRun_of_mem {sec : MdSection} (h : sec ∈ markdownSections (lines source.toList)) :
    IsRun (lines source.toList) sec := by
  obtain ⟨-, hlt, hle⟩ := (tiles_markdownSections _).of_mem h
  exact ⟨fun l hl => lf_not_mem_of_mem_lines hl, hlt, hle⟩

theorem mem_emitted {sec : MdSection} : sec ∈ emitted cap (lines source.toList)
    ↔ sec ∈ markdownSections (lines source.toList)
      ∧ trim (sectionText (lines source.toList) sec).toList ≠ [] := by
  rw [emitted, List.mem_filter]
  refine and_congr_right fun hsec => ?_
  by_cases hblank : trim (sectionText (lines source.toList) sec).toList = []
  · simp [flush_of_blank hblank, hblank]
  · have hne := @IsRun.flush_ne_nil cap _ _ (isRun_of_mem hsec) hblank
    simp [hne, hblank]

theorem mem_emitted_of_titled {sec : MdSection}
    (hsec : sec ∈ markdownSections (lines source.toList)) {title : List Char}
    (htitle : sec.title = some title) : sec ∈ emitted cap (lines source.toList) := by
  have hrun := isRun_of_mem hsec
  obtain ⟨-, hat⟩ := ((cutUpTo_markdownSections _).titled sec.start title).mp
    ⟨sec, hsec, rfl, htitle⟩
  obtain ⟨line, hline, hatx⟩ := Option.bind_eq_some_iff.mp hat
  have hlt := hrun.lt
  have hget : (linesBetween (lines source.toList) sec.start sec.finish)[0]? = some line := by
    rw [getElem?_linesBetween (by omega), Nat.add_zero, hline]
  exact mem_emitted.mpr ⟨hsec, trim_joinLines_ne_nil (List.mem_of_getElem? hget)
    (trim_ne_nil_of_atxHeading hatx)⟩

theorem titled_emitted (i : ℕ) (title : List Char) :
    (∃ sec ∈ emitted cap (lines source.toList), sec.start = i ∧ sec.title = some title)
      ↔ AtxAt (lines source.toList) i title := by
  have hcut := (cutUpTo_markdownSections (lines source.toList)).titled i title
  constructor
  · rintro ⟨sec, hsec, hsame⟩
    exact (hcut.mp ⟨sec, (mem_emitted.mp hsec).1, hsame⟩).2
  · intro hat
    obtain ⟨line, hline, -⟩ := Option.bind_eq_some_iff.mp hat
    have hin := (List.getElem?_eq_some_iff.mp hline).choose
    obtain ⟨sec, hsec, hstart, htitle⟩ := hcut.mpr ⟨hin, hat⟩
    exact ⟨sec, mem_emitted_of_titled hsec htitle, hstart, htitle⟩

theorem flatMap_emitted : (markdownSections (lines source.toList)).flatMap
      (flush cap (lines source.toList))
    = (emitted cap (lines source.toList)).flatMap (flush cap (lines source.toList)) := by
  rw [emitted]
  induction markdownSections (lines source.toList) with
  | nil => rfl
  | cons sec rest ih =>
    rw [List.flatMap_cons, List.filter_cons, ih]
    cases hflush : flush cap (lines source.toList) sec with
    | nil => simp
    | cons c more => simp [hflush]

/-- With a line that looks like a heading the sections are not all blank. -/
theorem parseMarkdown_eq {i : ℕ} {title : List Char} (hat : AtxAt (lines source.toList) i title) :
    parseMarkdown cap source
      = (emitted cap (lines source.toList)).flatMap (flush cap (lines source.toList)) := by
  obtain ⟨sec, hsec, -⟩ := (@titled_emitted cap _ i title).mpr hat
  obtain ⟨hmem, hne⟩ := mem_emitted.mp hsec
  obtain ⟨c, hc⟩ := List.exists_mem_of_ne_nil _
    (@IsRun.flush_ne_nil cap _ _ (isRun_of_mem hmem) hne)
  have hsome : c ∈ (emitted cap (lines source.toList)).flatMap (flush cap (lines source.toList)) :=
    List.mem_flatMap.mpr ⟨sec, hsec, hc⟩
  rw [parseMarkdown, flatMap_emitted, if_neg]
  rw [List.isEmpty_iff]
  exact List.ne_nil_of_mem hsome

/-- A document with a heading is cut as it should be exactly when no line inside a fence looks
    like a heading and no section that is windowed has a stray carriage return. -/
theorem markdownLaw_iff (cap : ℕ) (source : String)
    (hdoc : ∃ i title, HeadingAt (lines source.toList) i title) :
    MarkdownLaw cap source
      ↔ (∀ i title, AtxAt (lines source.toList) i title → ¬ Fenced (lines source.toList) i)
        ∧ ∀ sec ∈ markdownSections (lines source.toList),
          Oversized cap (lines source.toList) sec → NoStrayCr (lines source.toList) sec := by
  obtain ⟨i₀, title₀, hat₀, -⟩ := hdoc
  constructor
  · intro hlaw
    -- a heading in a fence still starts a section, and a stray CR is lost in the windows
    refine ⟨fun i title hat => ?_, fun sec hsec hover => ?_⟩
    · exact ((hlaw.headings i title).mp ((titled_emitted i title).mpr hat)).2
    · exact noStrayCr_of_textKept (isRun_of_mem hsec) hover
        (hlaw.text sec (mem_emitted.mpr ⟨hsec, hover.1⟩))
  · rintro ⟨hfences, hcr⟩
    refine ⟨parseMarkdown_eq hat₀, ?disjoint, ?inside, ?whole, ?covered, ?text, ?headings,
      ?untitled⟩
    case disjoint => exact (tiles_markdownSections _).pairwise.sublist List.filter_sublist
    case inside =>
      intro sec hsec c hc
      exact (isRun_of_mem (mem_emitted.mp hsec).1).of_mem_flush hc
    case whole =>
      intro sec hsec hnot
      obtain ⟨-, hne⟩ := mem_emitted.mp hsec
      exact flush_of_fits hne (Nat.le_of_not_lt fun hlt => hnot ⟨hne, hlt⟩)
    case covered =>
      intro i line hline hne
      have hin := (List.getElem?_eq_some_iff.mp hline).choose
      obtain ⟨sec, hsec, hstart, hend⟩ := (tiles_markdownSections _).exists_mem (Nat.zero_le i) hin
      obtain ⟨c, hc, hshows⟩ :=
        @IsRun.exists_shows cap _ _ (isRun_of_mem hsec) _ hstart hend _ hline hne
      refine ⟨sec, ?_, hstart, hend, c, hc, hshows⟩
      refine List.mem_filter.mpr ⟨hsec, ?_⟩
      simpa using List.ne_nil_of_mem hc
    case text =>
      intro sec hsec
      obtain ⟨hmem, -⟩ := mem_emitted.mp hsec
      exact textKept_of_noStrayCr (isRun_of_mem hmem) (hcr sec hmem)
    case headings =>
      intro i title
      exact (titled_emitted i title).trans (iff_self_and.mpr fun hat => hfences i title hat)
    case untitled =>
      intro sec hsec hnone
      exact (cutUpTo_markdownSections _).untitled sec (mem_emitted.mp hsec).1 hnone

end Law

/-- A heading and a line of text. -/
def plainDocument : String := "# A\nx\n"

theorem lines_plainDocument : lines plainDocument.toList = [['#', ' ', 'A'], ['x']] := by
  decide +kernel

theorem markdownLaw_of_plain : MarkdownLaw MAX_CHUNK_TOKENS plainDocument := by
  have hheading : HeadingAt (lines plainDocument.toList) 0 ['A'] := by
    rw [lines_plainDocument]
    exact ⟨by unfold AtxAt; decide, by unfold Fenced; decide⟩
  refine (markdownLaw_iff MAX_CHUNK_TOKENS plainDocument ⟨0, ['A'], hheading⟩).mpr ⟨?_, ?_⟩
  · intro i title hat
    rw [lines_plainDocument] at hat ⊢
    obtain ⟨line, hline, -⟩ := Option.bind_eq_some_iff.mp hat
    have hin := (List.getElem?_eq_some_iff.mp hline).choose
    have hin : i < 2 := hin
    rcases (show i = 0 ∨ i = 1 by omega) with rfl | rfl
    · unfold Fenced
      decide
    · unfold Fenced
      decide
  · have hsections : markdownSections (lines plainDocument.toList) = [⟨0, 2, some ['A']⟩] := by
      rw [lines_plainDocument]
      decide
    intro sec hsec hover
    rw [hsections, List.mem_singleton] at hsec
    have hsmall : ¬ MAX_CHUNK_TOKENS <
        estimateTokens (sectionText (lines plainDocument.toList) sec) := by
      rw [hsec, lines_plainDocument]
      decide +kernel
    exact absurd hover.2 hsmall

/-! ## A comment in a code block -/

/-- A heading, then a fenced code block with a comment in it. -/
def fencedComment : String := "# Build\n```\n# not a heading\n```\n"

theorem lines_fencedComment : lines fencedComment.toList
    = ["# Build".toList, "```".toList, "# not a heading".toList, "```".toList] := by
  decide +kernel

/-- The comment begins a section and names it. -/
theorem not_markdownLaw_of_fenced : ¬ MarkdownLaw MAX_CHUNK_TOKENS fencedComment := by
  intro h
  have hat : AtxAt (lines fencedComment.toList) 2 "not a heading".toList := by
    rw [lines_fencedComment]
    unfold AtxAt
    decide +kernel
  have hheading := (h.headings 2 _).mp ((titled_emitted 2 _).mpr hat)
  refine hheading.2 ?_
  rw [lines_fencedComment]
  unfold Fenced
  decide +kernel

end Index
end Inkentry
