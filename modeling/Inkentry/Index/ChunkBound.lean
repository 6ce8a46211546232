/-
  Inkentry.Index.ChunkBound

  What every kind of file is cut into: source text through its syntax tree or
  by windows, markdown, notebooks, documents, spreadsheets and the pages of a
  PDF.

  A chunk is to be within the cap or to show one line.  The splitters that go
  through the sliding window see to it; a notebook cell, a sheet of few rows and
  a page are chunks whatever their size (`boundLaw_iff`).
-/

import Inkentry.Index.Gaps
import Inkentry.Index.Markdown
import Inkentry.Index.Parse

namespace Inkentry
namespace Index

open TextLines

/-! ## Notebooks -/

/-- The source of a cell is a list of lines or one text. -/
inductive CellSource where
  | lines (v : List String)
  | blob (s : String)
  deriving DecidableEq, Repr

def CellSource.text : CellSource → String
  | .lines v => String.ofList (v.flatMap String.toList)
  | .blob s => s

structure Cell where
  cellType : String
  source : CellSource
  deriving DecidableEq, Repr

/-- Whether a cell has text at all. -/
def Cell.isBlank (c : Cell) : Bool := trim c.source.text.toList = []

/-- The lines that a cell is taken to have. -/
def Cell.lineCount (c : Cell) : ℕ := max (TextLines.lines c.source.text.toList).length 1

def cellChunk (idx line : ℕ) (c : Cell) : Chunk where
  kind := if c.cellType = "markdown" ∨ c.cellType = "raw" then .section else .verbatim
  name := some ("cell " ++ toString (idx + 1))
  startLine := line
  endLine := line + c.lineCount - 1
  content := c.source.text
  docstring := none
  parentScope := none
  summary := none
  inTestCode := false

/-- The chunks of some cells, numbered from `idx` on the lines from `line`. -/
def cellChunks : ℕ → ℕ → List Cell → List Chunk
  | _, _, [] => []
  | idx, line, c :: rest =>
    if c.isBlank then cellChunks (idx + 1) line rest
    else cellChunk idx line c :: cellChunks (idx + 1) (line + c.lineCount) rest

/-- A notebook, from what its JSON is read as. -/
def parseNotebook (cap : ℕ) (cells? : Option (List Cell)) (source : String) : List Chunk :=
  match cells? with
  | none => slidingWindow cap source none none none
  | some cells =>
    let chunks := cellChunks 0 1 cells
    if chunks = [] then slidingWindow cap source none none none else chunks

/-! ## Documents -/

/-- A part of a run or of a paragraph that may have text. -/
abbrev RunText := Option String

/-- A paragraph: its runs, and parts that are none. -/
abbrev Paragraph := List (Option (List RunText))

def paraText (p : Paragraph) : List Char :=
  (p.filterMap id).flatMap fun run => (run.filterMap id).flatMap String.toList

/-- A child of a document; a row of a table is a list of cells, and a cell one of paragraphs and
other content. -/
inductive DocumentChild where
  | paragraph (p : Paragraph)
  | table (rows : List (List (List (Option Paragraph))))
  | other

/-- The paragraphs of a cell that have text, joined by spaces. -/
def cellText (cell : List (Option Paragraph)) : Option (List Char) :=
  let texts := ((cell.filterMap id).map paraText).filter fun t => trim t ≠ []
  if texts = [] then none else some ([' '].intercalate texts)

def collectDocText (children : List DocumentChild) : List (List Char) :=
  children.flatMap fun child =>
    match child with
    | .paragraph p => if trim (paraText p) = [] then [] else [paraText p]
    | .table rows => rows.filterMap fun row =>
      let cells := row.filterMap cellText
      if cells = [] then none else some (" | ".toList.intercalate cells)
    | .other => []

/-- A document, from what the reader of its format makes of its bytes. -/
def parseDocx (cap : ℕ) (doc? : Option (List DocumentChild)) : List Chunk :=
  match doc? with
  | none => []
  | some children =>
    let lines := collectDocText children
    if lines = [] then [] else slidingWindow cap (joinLines lines) none none none

/-! ## Spreadsheets -/

/-- A sheet: its name, and the cells of its rows if they can be read. -/
structure Sheet where
  name : String
  rows : Option (List (List String))
  deriving DecidableEq, Repr

/-- The rows of a sheet that have text. -/
def Sheet.lines (sheet : Sheet) : List (List Char) :=
  ((sheet.rows.getD []).map fun row => ['\t'].intercalate (row.map String.toList)).filter
    fun line => trim line ≠ []

def MAX_SHEET_ROWS : ℕ := 120

def sheetChunk (sheet : Sheet) : Chunk where
  kind := .section
  name := some sheet.name
  startLine := 1
  endLine := sheet.lines.length
  content := joinLines sheet.lines
  docstring := none
  parentScope := none
  summary := none
  inTestCode := false

def parseSheet (cap : ℕ) (sheet : Sheet) : List Chunk :=
  if sheet.lines = [] then []
  else if sheet.lines.length ≤ MAX_SHEET_ROWS then [sheetChunk sheet]
  else
    (slidingWindow cap (joinLines sheet.lines) none none none).map fun chunk =>
      { chunk with
        name := some (sheet.name ++ " (rows " ++ toString chunk.startLine ++ "–"
          ++ toString chunk.endLine ++ ")") }

def parseSpreadsheet (cap : ℕ) (workbook? : Option (List Sheet)) : List Chunk :=
  (workbook?.getD []).flatMap (parseSheet cap)

/-! ## Source text -/

/-- What tree-sitter makes of a source: no grammar for the language, no tree in the time it has,
or a tree. -/
inductive TreeOutcome (Node : Type) where
  | unsupported
  | outOfTime
  | parsed (sx : Syntax Node)

def MAX_PARSE_BYTES : ℕ := 512 * 1024

/-- What the parser of source text is given: the cap, tree-sitter, the reader of notebooks and
which characters are letters and digits. -/
structure SourceParser (Node : Type) where
  cap : ℕ
  treeSitter : String → String → TreeOutcome Node
  readNotebook : String → Option (List Cell)
  isAlphanumeric : Char → Bool

variable {Node : Type}

/-- A failure, or the chunks of a source. -/
def SourceParser.parse (sp : SourceParser Node) (source language : String) : Option (List Chunk) :=
  let windows := slidingWindow sp.cap source none none none
  if language = "markdown" then some (parseMarkdown sp.cap source)
  else if language = "text" then some windows
  else if language = "notebook" then some (parseNotebook sp.cap (sp.readNotebook source) source)
  else if MAX_PARSE_BYTES < source.utf8ByteSize then some windows
  else match sp.treeSitter language source with
    | .unsupported => none
    | .outOfTime => some windows
    | .parsed sx =>
      let sx := { sx with source := source.toList }
      some (chunksOfTree sp.isAlphanumeric ⟨sp.cap, sx, language, nodeSpecs sx language⟩)

/-! ## Every producer -/

/-- A file that is read: source text in a language, a document, a workbook or the pages of a
PDF, each as the reader of its format gives it. -/
inductive Input where
  | source (text language : String)
  | docx (doc? : Option (List DocumentChild))
  | spreadsheet (workbook? : Option (List Sheet))
  | pdf (pages : List (ℕ × String))

def SourceParser.chunksOf (sp : SourceParser Node) : Input → List Chunk
  | .source text language => (sp.parse text language).getD []
  | .docx doc? => parseDocx sp.cap doc?
  | .spreadsheet workbook? => parseSpreadsheet sp.cap workbook?
  | .pdf pages => pagesToChunks pages

/-- A text is within the cap or a single line. -/
def Fits (cap : ℕ) (text : String) : Prop :=
  estimateTokens text ≤ cap ∨ (TextLines.lines text.toList).length ≤ 1

/-- Every chunk of an input is within the cap or a single line. -/
def SourceParser.BoundLaw (sp : SourceParser Node) (input : Input) : Prop :=
  ∀ c ∈ sp.chunksOf input, Fits sp.cap c.content

/-- The pieces of an input that are chunks whatever their size. -/
def SourceParser.Bounded (sp : SourceParser Node) : Input → Prop
  | .source text language => language = "notebook" →
    ∀ cells, sp.readNotebook text = some cells →
      ∀ c ∈ cells, c.isBlank = false → Fits sp.cap c.source.text
  | .docx _ => True
  | .spreadsheet workbook? => ∀ sheet ∈ workbook?.getD [], sheet.lines.length ≤ MAX_SHEET_ROWS →
    Fits sp.cap (joinLines sheet.lines)
  | .pdf pages => ∀ page ∈ pages, Fits sp.cap page.2

/-! ## Windows -/

variable {c : Chunk}
variable {cap : ℕ}

theorem fits_of_length_le {text : String} (h : text.toList.length ≤ cap * 4) : Fits cap text := by
  rcases Nat.eq_zero_or_pos cap with rfl | hcap
  · have hnil : text.toList = [] := List.eq_nil_of_length_eq_zero (by omega)
    exact .inr (by rw [hnil]; decide)
  · exact .inl (estimateTokens_le hcap h)

theorem length_lines_of_no_lf {text : List Char} (h : '\n' ∉ text) :
    (TextLines.lines text).length ≤ 1 := by
  have hlines := @lines_intercalate [text] (by simp) (by simpa using h)
  rw [show ['\n'].intercalate [text] = text by simp [List.intercalate]] at hlines
  rw [hlines]
  split <;> simp

theorem fits_of_mem_slidingWindow {source : String} {name docstring parent : Option String}
    (hc : c ∈ slidingWindow cap source name docstring parent) : Fits cap c.content := by
  obtain ⟨w, hw, rfl⟩ := List.mem_map.mp hc
  rcases length_windowChunk (ne_nil_of_mem_windowsOf hw) hw with hlength | hsingle
  · exact fits_of_length_le (by rwa [← String.length_toList] at hlength)
  · refine .inr (length_lines_of_no_lf ?_)
    rw [windowChunk, toList_joinLines, ← hsingle, linesBetween, Nat.add_sub_cancel_left]
    cases hdrop : (TextLines.lines source.toList).drop w.1 with
    | nil => simp
    | cons line rest =>
      have hline : line ∈ TextLines.lines source.toList :=
        List.mem_of_mem_drop (hdrop ▸ List.mem_cons_self)
      rw [List.take_succ_cons, List.take_zero, List.intercalate_singleton]
      exact lf_not_mem_of_mem_lines hline

/-! ## Source text -/

variable {ctx : WalkCtx Node} {isAlphanumeric : Char → Bool}
variable {scopes : List SuppressedScope}

theorem Cut.fits {cut : Cut Node} (hc : c ∈ cut.chunks ctx) : Fits ctx.cap c.content := by
  rw [Cut.chunks] at hc
  split at hc
  case isTrue =>
    obtain ⟨sub, hsub, rfl⟩ := List.mem_map.mp hc
    have hfits : Fits ctx.cap sub.content := fits_of_mem_slidingWindow hsub
    exact hfits
  case isFalse hsmall =>
    rw [List.mem_singleton] at hc
    exact .inl (by rw [hc]; exact Nat.le_of_not_lt hsmall)

theorem fits_of_mem_gapWindows {source : List Char} {language : String} {chunks : List Chunk}
    (hc : c ∈ gapWindows isAlphanumeric cap source language scopes chunks) :
    Fits cap c.content := by
  obtain ⟨g, -, hg⟩ := List.mem_flatMap.mp hc
  rw [windowsOfStretch] at hg
  split at hg
  case isTrue => exact absurd hg List.not_mem_nil
  case isFalse =>
    obtain ⟨r, -, hr⟩ := List.mem_flatMap.mp hg
    obtain ⟨window, hwindow, rfl⟩ := List.mem_map.mp hr
    have hfits : Fits cap window.content := fits_of_mem_slidingWindow hwindow
    exact hfits

/-- Filling the gaps adds windows, and the order is all that else changes. -/
theorem mem_fillGaps {source : List Char} {language : String} {chunks : List Chunk} :
    c ∈ fillGaps isAlphanumeric cap source language scopes chunks
      ↔ c ∈ chunks ∨ c ∈ gapWindows isAlphanumeric cap source language scopes chunks := by
  rw [fillGaps]
  split
  case isTrue hnone => simp [hnone]
  case isFalse => rw [OrderLimit.mem_sortBy, List.mem_append]

theorem fits_of_mem_chunksOfTree (hc : c ∈ chunksOfTree isAlphanumeric ctx) :
    Fits ctx.cap c.content := by
  rw [chunksOfTree] at hc
  split at hc
  case isTrue => exact fits_of_mem_slidingWindow hc
  case isFalse =>
    obtain ⟨chunk, hchunk, rfl⟩ := List.mem_map.mp hc
    show Fits ctx.cap chunk.content
    rcases mem_fillGaps.mp hchunk with hwalked | hgap
    · rw [chunks_walk] at hwalked
      obtain ⟨cut, -, hcut⟩ := List.mem_flatMap.mp hwalked
      exact cut.fits hcut
    · exact fits_of_mem_gapWindows hgap

theorem fits_of_mem_parseMarkdown {source : String}
    (hc : c ∈ parseMarkdown cap source) : Fits cap c.content := by
  rw [parseMarkdown] at hc
  split at hc
  case isTrue => exact fits_of_mem_slidingWindow hc
  case isFalse =>
    obtain ⟨sec, -, hsec⟩ := List.mem_flatMap.mp hc
    rw [flush] at hsec
    split at hsec
    case isTrue => exact absurd hsec List.not_mem_nil
    case isFalse =>
      split at hsec
      case isTrue =>
        obtain ⟨sub, hsub, rfl⟩ := List.mem_map.mp hsec
        have hfits : Fits cap sub.content := fits_of_mem_slidingWindow hsub
        exact hfits
      case isFalse hfits =>
        rw [List.mem_singleton] at hsec
        exact .inl (by rw [hsec]; exact Nat.le_of_not_lt hfits)

/-! ## Notebooks and sheets -/

/-- The texts of the chunks of some cells are those of the cells that have text. -/
theorem content_cellChunks (idx line : ℕ) (cells : List Cell) :
    (cellChunks idx line cells).map Chunk.content
      = (cells.filter fun c => !c.isBlank).map fun c => c.source.text := by
  induction cells generalizing idx line with
  | nil => rfl
  | cons c cells ih =>
    rw [cellChunks]
    by_cases hblank : c.isBlank = true
    · rw [if_pos hblank, List.filter_cons_of_neg (by simpa using hblank), ih]
    · rw [if_neg hblank, List.filter_cons_of_pos (by simpa using hblank), List.map_cons,
        List.map_cons, ih]
      rfl

theorem parseNotebook_fits_iff {cap : ℕ} {cells? : Option (List Cell)} {source : String} :
    (∀ c ∈ parseNotebook cap cells? source, Fits cap c.content)
      ↔ ∀ cells, cells? = some cells →
        ∀ c ∈ cells, c.isBlank = false → Fits cap c.source.text := by
  cases cells? with
  | none => exact ⟨fun _ _ h => absurd h (by simp), fun _ c hc => fits_of_mem_slidingWindow hc⟩
  | some cells =>
    -- a cell that is not blank becomes one chunk, uncut
    have hcontents : (∀ c ∈ cellChunks 0 1 cells, Fits cap c.content)
        ↔ ∀ c ∈ cells, c.isBlank = false → Fits cap c.source.text := by
      have hmap := content_cellChunks 0 1 cells
      constructor
      · intro hfits c hc hblank
        have hmem : c.source.text ∈ (cellChunks 0 1 cells).map Chunk.content := by
          rw [hmap]
          exact List.mem_map.mpr ⟨c, List.mem_filter.mpr ⟨hc, by simp [hblank]⟩, rfl⟩
        obtain ⟨chunk, hchunk, heq⟩ := List.mem_map.mp hmem
        exact heq ▸ hfits chunk hchunk
      · intro hfits chunk hchunk
        have hmem := List.mem_map_of_mem (f := Chunk.content) hchunk
        rw [hmap] at hmem
        obtain ⟨c, hc, heq⟩ := List.mem_map.mp hmem
        obtain ⟨hcell, hblank⟩ := List.mem_filter.mp hc
        exact heq ▸ hfits c hcell (by simpa using hblank)
    rw [parseNotebook]
    simp only [Option.some.injEq, forall_eq']
    rw [← hcontents]
    split
    case isTrue hnone =>
      exact ⟨fun _ c hc => absurd hc (by simp [hnone]), fun _ c hc => fits_of_mem_slidingWindow hc⟩
    case isFalse => exact Iff.rfl

theorem parseSheet_fits_iff {sheet : Sheet} :
    (∀ c ∈ parseSheet cap sheet, Fits cap c.content)
      ↔ (sheet.lines.length ≤ MAX_SHEET_ROWS → Fits cap (joinLines sheet.lines)) := by
  rw [parseSheet]
  split
  case isTrue hnone =>
    refine ⟨fun _ _ => .inr ?_, fun _ c hc => absurd hc List.not_mem_nil⟩
    rw [hnone]
    decide
  case isFalse =>
    split
    case isTrue hfew =>
      constructor
      · exact fun hfits _ => hfits (sheetChunk sheet) (List.mem_singleton_self _)
      · intro hfits c hc
        rw [List.mem_singleton] at hc
        exact hc ▸ hfits hfew
    case isFalse hmany =>
      refine ⟨fun _ hfew => absurd hfew hmany, fun _ c hc => ?_⟩
      obtain ⟨chunk, hchunk, rfl⟩ := List.mem_map.mp hc
      have hfits : Fits cap chunk.content := fits_of_mem_slidingWindow hchunk
      exact hfits

/-! ## Every producer -/

theorem SourceParser.source_fits {sp : SourceParser Node} {source language : String}
    (hlanguage : language ≠ "notebook")
    (hc : c ∈ (sp.parse source language).getD []) : Fits sp.cap c.content := by
  rw [SourceParser.parse] at hc
  simp only [if_neg hlanguage] at hc
  split at hc
  case isTrue => exact fits_of_mem_parseMarkdown hc
  case isFalse =>
    split at hc
    case isTrue => exact fits_of_mem_slidingWindow hc
    case isFalse =>
      split at hc
      case isTrue => exact fits_of_mem_slidingWindow hc
      case isFalse =>
        split at hc
        · exact absurd hc List.not_mem_nil
        · exact fits_of_mem_slidingWindow hc
        · exact fits_of_mem_chunksOfTree hc

/-- Every chunk of an input is within the cap or a single line just when the cells, the sheets of
few rows and the pages are. -/
theorem SourceParser.boundLaw_iff (sp : SourceParser Node) (input : Input) :
    sp.BoundLaw input ↔ sp.Bounded input := by
  -- text goes through the windows; sheets, pages and cells do not
  cases input with
  | source text language =>
    by_cases hlanguage : language = "notebook"
    · subst hlanguage
      have hiff := @parseNotebook_fits_iff sp.cap (sp.readNotebook text) text
      exact ⟨fun hfits _ => hiff.mp hfits, fun hcells => hiff.mpr (hcells rfl)⟩
    · exact ⟨fun _ hnotebook => absurd hnotebook hlanguage,
        fun _ c hc => SourceParser.source_fits hlanguage hc⟩
  | docx doc? =>
    refine ⟨fun _ => trivial, fun _ c hc => ?_⟩
    cases doc? with
    | none => exact absurd hc List.not_mem_nil
    | some children =>
      rw [SourceParser.chunksOf, parseDocx] at hc
      split at hc
      case isTrue => exact absurd hc List.not_mem_nil
      case isFalse => exact fits_of_mem_slidingWindow hc
  | spreadsheet workbook? =>
    constructor
    · intro hfits sheet hsheet
      exact parseSheet_fits_iff.mp fun c hc => hfits c (List.mem_flatMap.mpr ⟨sheet, hsheet, hc⟩)
    · intro hfits c hc
      obtain ⟨sheet, hsheet, hmem⟩ := List.mem_flatMap.mp hc
      exact parseSheet_fits_iff.mpr (hfits sheet hsheet) c hmem
  | pdf pages =>
    constructor
    · intro hfits page hpage
      exact hfits _ (List.mem_map_of_mem hpage)
    · intro hfits c hc
      obtain ⟨page, hpage, rfl⟩ := List.mem_map.mp hc
      exact hfits page hpage

/-! ### A page of two lines -/

/-- A page with `n` characters on its first line and one on its second. -/
def pageOf (n : ℕ) : String := String.ofList (['\n'].intercalate [List.replicate n 'a', ['b']])

/-- Such a page does not fit if its first line is too long. -/
theorem not_fits_pageOf {cap n : ℕ} (h : cap * 4 + 2 ≤ n) : ¬ Fits cap (pageOf n) := by
  have hlf : ∀ l ∈ [List.replicate n 'a', ['b']], '\n' ∉ l := by
    simp [List.mem_replicate]
  rintro (htokens | hlines)
  · rw [estimateTokens, pageOf, String.toList_ofList, List.intercalate_cons_cons,
      List.intercalate_singleton, List.length_append, List.length_append, List.length_replicate,
      List.length_singleton] at htokens
    have hquarter := le_trans (Nat.le_max_left _ _) htokens
    rw [Nat.div_le_iff_le_mul_add_pred (by decide)] at hquarter
    simp only [List.length_singleton] at hquarter
    omega
  · rw [pageOf, String.toList_ofList, lines_intercalate (by simp) hlf] at hlines
    simp at hlines

/-- The parser of a build with no grammar and no notebook. -/
def plainParser : SourceParser Unit where
  cap := MAX_CHUNK_TOKENS
  treeSitter _ _ := .unsupported
  readNotebook _ := none
  isAlphanumeric _ := false

/-- A page of two lines is one chunk, with four thousand characters on the first of them too. -/
theorem not_boundLaw_of_long_page : ¬ plainParser.BoundLaw (.pdf [(1, pageOf 4000)]) := by
  intro hlaw
  have hfits := hlaw _ (List.mem_map_of_mem (List.mem_singleton_self (1, pageOf 4000)))
  exact not_fits_pageOf (by decide) hfits

end Index
end Inkentry
