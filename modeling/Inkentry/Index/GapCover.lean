/-
  Inkentry.Index.GapCover

  What the gaps are filled with: a line that no chunk covers and that is not
  blank is held by a window of its own, unless the stretch it lies in has too
  few letters and digits (`exists_holds_gapWindows`); and no window shows a line
  that a chunk covers (`not_covered_of_mem_gapWindows`).
-/

import Inkentry.Index.Gaps
import Inkentry.Index.Held

namespace Inkentry
namespace Index

open TextLines

variable {isAlphanumeric : Char → Bool} {scopes : List SuppressedScope}

/-! ## Stretches -/

variable {ls : List GapLine} {rest taken : List GapLine} {m : ℕ}

/-- Lines with consecutive numbers, the first of them `m`. -/
def Numbered : ℕ → List GapLine → Prop
  | _, [] => True
  | m, line :: rest => line.number = m ∧ Numbered (m + 1) rest

/-- A line goes on in the container of the one before, or in one that its bare header opens. -/
def Continues (scopes : List SuppressedScope) (line next : GapLine) : Prop :=
  next.owner = line.owner
    ∨ ∃ last ≤ line.number, opensNested scopes last line.owner next.owner = true

/-- What a stretch takes of the lines after its line `prev`. -/
structure Taken (scopes : List SuppressedScope) (prev : GapLine) (last : ℕ) (rest : List GapLine)
    (found : Option ℕ × ℕ × List GapLine) (taken : List GapLine) : Prop where
  split : rest = taken ++ found.2.2
  contained : (prev :: taken).IsChain (Continues scopes)
  uncovered : ∀ line ∈ taken, line.covered = false
  le : last ≤ found.2.1
  last : found.2.1 = last ∨ ∃ line ∈ taken, line.number = found.2.1
  reaches : ∀ line ∈ taken, trim line.text ≠ [] → line.number ≤ found.2.1

theorem Numbered.bounds (h : Numbered m ls) :
    ∀ line ∈ ls, m ≤ line.number ∧ line.number < m + ls.length := by
  induction ls generalizing m with
  | nil => exact fun _ hline => absurd hline List.not_mem_nil
  | cons first rest ih =>
    intro line hline
    rw [List.length_cons]
    rcases List.mem_cons.mp hline with rfl | hrest
    · have hnumber := h.1
      omega
    · have hbounds := ih h.2 line hrest
      omega

theorem numbered_append {front back : List GapLine} (h : Numbered m (front ++ back)) :
    Numbered m front ∧ Numbered (m + front.length) back := by
  induction front generalizing m with
  | nil => exact ⟨trivial, h⟩
  | cons line front ih =>
    obtain ⟨hfront, hback⟩ := ih h.2
    rw [List.length_cons, show m + (front.length + 1) = m + 1 + front.length by omega]
    exact ⟨⟨h.1, hfront⟩, hback⟩

/-- The rest of a stretch is a run of lines that are not covered, in one container. -/
theorem exists_taken {prev : GapLine} {last : ℕ} (hlast : last ≤ prev.number)
    {rest : List GapLine} (hnumbered : Numbered (prev.number + 1) rest) :
    ∃ taken, Taken scopes prev last rest (stretchFrom scopes prev.owner last rest) taken := by
  -- the stretch goes on line by line; a blank line does not move its end
  induction rest generalizing prev last with
  | nil =>
    exact ⟨[], rfl, List.isChain_singleton _, by simp, le_refl _, .inl rfl, by simp⟩
  | cons line rest ih =>
    have hstop : ∃ taken,
        Taken scopes prev last (line :: rest) (prev.owner, last, line :: rest) taken :=
      ⟨[], rfl, List.isChain_singleton _, by simp, le_refl _, .inl rfl, by simp⟩
    rw [stretchFrom]
    split
    case isTrue => exact hstop
    case isFalse hcovered =>
      split
      case isTrue => exact hstop
      case isFalse hsame =>
        have hnumber := hnumbered.1
        obtain ⟨taken, htaken⟩ := @ih line (if trim line.text = [] then last else line.number)
          (by split <;> omega) (hnumber ▸ hnumbered.2)
        refine ⟨line :: taken, ?_, ?_, ?_, ?_, ?_, ?_⟩
        · rw [List.cons_append, ← htaken.split]
        · refine List.isChain_cons_cons.mpr ⟨?_, htaken.contained⟩
          by_cases howner : line.owner = prev.owner
          · exact .inl howner
          · refine .inr ⟨last, hlast, ?_⟩
            by_contra hnot
            exact hsame ⟨howner, by simpa using hnot⟩
        · intro l hl
          rcases List.mem_cons.mp hl with rfl | hl
          · simpa using hcovered
          · exact htaken.uncovered l hl
        · refine le_trans ?_ htaken.le
          split <;> omega
        · rcases htaken.last with heq | ⟨l, hl, heq⟩
          · rw [heq]
            split
            case isTrue => exact .inl rfl
            case isFalse => exact .inr ⟨line, List.mem_cons_self, rfl⟩
          · exact .inr ⟨l, List.mem_cons_of_mem _ hl, heq⟩
        · intro l hl hne
          rcases List.mem_cons.mp hl with rfl | hl
          · refine le_trans ?_ htaken.le
            rw [if_neg hne]
          · exact htaken.reaches l hl hne

/-- Lines in a chain that have consecutive numbers are next to each other. -/
theorem related_of_isChain {R : GapLine → GapLine → Prop} (hnumbered : Numbered m ls)
    (hchain : ls.IsChain R) {a b : GapLine} (ha : a ∈ ls) (hb : b ∈ ls)
    (hnext : b.number = a.number + 1) : R a b := by
  induction ls generalizing m with
  | nil => exact absurd ha List.not_mem_nil
  | cons first rest ih =>
    have hfirst := hnumbered.1
    have hbounds := hnumbered.2.bounds
    rcases List.mem_cons.mp hb with hbfirst | hbrest
    · -- nothing comes before the first line
      rw [← hbfirst] at hfirst
      rcases List.mem_cons.mp ha with hafirst | harest
      · rw [hafirst, ← hbfirst] at hnext
        omega
      · have hin := hbounds a harest
        omega
    · rcases List.mem_cons.mp ha with hafirst | harest
      · rw [← hafirst] at hfirst hchain
        cases rest with
        | nil => exact absurd hbrest List.not_mem_nil
        | cons second rest =>
          rcases List.mem_cons.mp hbrest with hbsecond | hblater
          · exact hbsecond ▸ (List.isChain_cons_cons.mp hchain).1
          · have hin := hnumbered.2.2.bounds b hblater
            omega
      · exact ih hnumbered.2 (List.IsChain.of_cons hchain) harest hbrest

/-- What holds of the stretches of some lines. -/
structure StretchesOf (scopes : List SuppressedScope) (m : ℕ) (ls : List GapLine)
    (found : List Stretch) : Prop where
  bounds : ∀ g ∈ found, m ≤ g.first ∧ g.first ≤ g.last ∧ g.last < m + ls.length
  uncovered : ∀ g ∈ found, ∀ line ∈ ls, g.first ≤ line.number → line.number ≤ g.last →
    line.covered = false
  contained : ∀ g ∈ found, ∀ a ∈ ls, ∀ b ∈ ls, g.first ≤ a.number → b.number = a.number + 1 →
    b.number ≤ g.last → Continues scopes a b
  complete : ∀ line ∈ ls, line.covered = false → trim line.text ≠ [] →
    ∃ g ∈ found, g.first ≤ line.number ∧ line.number ≤ g.last

theorem stretchesOf_nil (m : ℕ) : StretchesOf scopes m [] [] :=
  ⟨by simp, by simp, by simp, by simp⟩

/-- A line that is covered or blank is in front of the stretches of the others. -/
theorem StretchesOf.cons {m : ℕ} {line : GapLine} {rest : List GapLine} {found : List Stretch}
    (hnumber : line.number = m) (hskip : line.covered = true ∨ trim line.text = [])
    (hrest : StretchesOf scopes (m + 1) rest found) : StretchesOf scopes m (line :: rest) found := by
  refine ⟨fun g hg => ?bounds, fun g hg l hl hfirst hlast => ?uncovered,
    fun g hg a ha b hb hfirst hnext hlast => ?contained, fun l hl hcovered hne => ?complete⟩
  -- a covered or blank line starts no stretch, so those of the rest are all there are
  case bounds =>
    have hbounds := hrest.bounds g hg
    rw [List.length_cons]
    omega
  case uncovered =>
    rcases List.mem_cons.mp hl with rfl | hl
    · have hbounds := hrest.bounds g hg
      omega
    · exact hrest.uncovered g hg l hl hfirst hlast
  case contained =>
    have hbounds := hrest.bounds g hg
    have ha' : a ∈ rest := by
      rcases List.mem_cons.mp ha with rfl | ha
      · omega
      · exact ha
    have hb' : b ∈ rest := by
      rcases List.mem_cons.mp hb with rfl | hb
      · omega
      · exact hb
    exact hrest.contained g hg a ha' b hb' hfirst hnext hlast
  case complete =>
    rcases List.mem_cons.mp hl with rfl | hl
    · rcases hskip with hcov | hblank
      · exact absurd (hcov.symm.trans hcovered) (by decide)
      · exact absurd hblank hne
    · exact hrest.complete l hl hcovered hne

theorem Taken.last_lt {line : GapLine} {found : Option ℕ × ℕ × List GapLine}
    (h : Taken scopes line line.number rest found taken)
    (hnumbered : Numbered m (line :: taken)) : found.2.1 < m + 1 + taken.length := by
  have hnumber := hnumbered.1
  rcases h.last with heq | ⟨l, hl, heq⟩
  · omega
  · have hbounds := hnumbered.2.bounds l hl
    omega

/-- A stretch is in front of the stretches of the lines behind the ones it takes. -/
theorem StretchesOf.cons_taken {line : GapLine} {scope : Option ℕ} {last : ℕ} {later : List GapLine}
    {found : List Stretch} (hplain : line.covered = false)
    (htaken : Taken scopes line line.number rest (scope, last, later) taken)
    (hchain : Numbered m (line :: taken)) (hback : Numbered (m + 1 + taken.length) later)
    (hlater : StretchesOf scopes (m + 1 + taken.length) later found) :
    StretchesOf scopes m (line :: rest) (⟨line.number, last, scope⟩ :: found) := by
  have hsplit : rest = taken ++ later := htaken.split
  have hlengths := congrArg List.length hsplit
  rw [List.length_append] at hlengths
  have hnumber := hchain.1
  have hle : line.number ≤ last := htaken.le
  have hlt : last < m + 1 + taken.length := htaken.last_lt hchain
  have htakenBounds := hchain.bounds
  rw [List.length_cons] at htakenBounds
  have hlaterBounds := hback.bounds
  -- a line of the stretch has a number up to its last, and one of the others a larger one
  have hcases : ∀ l ∈ line :: rest, l ∈ line :: taken ∨ l ∈ later := fun l hl => by
    rw [hsplit, ← List.cons_append] at hl
    exact List.mem_append.mp hl
  have hin : ∀ l ∈ line :: rest, l.number ≤ last → l ∈ line :: taken := fun l hl hle => by
    rcases hcases l hl with htook | hlate
    · exact htook
    · have hbounds := hlaterBounds l hlate
      omega
  have hout : ∀ l ∈ line :: rest, m + 1 + taken.length ≤ l.number → l ∈ later := fun l hl hle => by
    rcases hcases l hl with htook | hlate
    · have hbounds := htakenBounds l htook
      omega
    · exact hlate
  refine ⟨fun g hg => ?bounds, fun g hg l hl hfirst hlast => ?uncovered,
    fun g hg a ha b hb hfirst hnext hlast => ?contained, fun l hl hcovered hne => ?complete⟩
  case bounds =>
    rw [List.length_cons]
    rcases List.mem_cons.mp hg with rfl | hg
    · show m ≤ line.number ∧ line.number ≤ last ∧ last < _
      omega
    · have hbounds := hlater.bounds g hg
      omega
  case uncovered =>
    rcases List.mem_cons.mp hg with rfl | hg
    · rcases List.mem_cons.mp (hin l hl hlast) with rfl | htook
      · exact hplain
      · exact htaken.uncovered l htook
    · have hbounds := hlater.bounds g hg
      exact hlater.uncovered g hg l (hout l hl (by omega)) hfirst hlast
  case contained =>
    rcases List.mem_cons.mp hg with rfl | hg
    · change b.number ≤ last at hlast
      exact related_of_isChain hchain htaken.contained (hin a ha (by omega)) (hin b hb hlast) hnext
    · have hbounds := hlater.bounds g hg
      exact hlater.contained g hg a (hout a ha (by omega)) b (hout b hb (by omega)) hfirst hnext
        hlast
  case complete =>
    rcases hcases l hl with htook | hlate
    · have hbounds := htakenBounds l htook
      refine ⟨_, List.mem_cons_self, by show line.number ≤ l.number; omega, ?_⟩
      rcases List.mem_cons.mp htook with rfl | htook
      · exact hle
      · exact htaken.reaches l htook hne
    · obtain ⟨g, hg, hboth⟩ := hlater.complete l hlate hcovered hne
      exact ⟨g, List.mem_cons_of_mem _ hg, hboth⟩

/-- Every line that is not covered and not blank lies in a stretch of lines that are not
covered. -/
theorem stretchesOf_stretches {turns m : ℕ} (hturns : ls.length ≤ turns)
    (hnumbered : Numbered m ls) : StretchesOf scopes m ls (stretches scopes turns ls) := by
  induction turns generalizing m ls with
  | zero =>
    obtain rfl := List.eq_nil_of_length_eq_zero (Nat.le_zero.mp hturns)
    exact stretchesOf_nil m
  | succ turns ih =>
    cases ls with
    | nil => exact stretchesOf_nil m
    | cons line rest =>
      rw [List.length_cons] at hturns
      have hnumber := hnumbered.1
      rw [stretches]
      split
      case isTrue hskip => exact StretchesOf.cons hnumber hskip (ih (by omega) hnumbered.2)
      case isFalse hstarts =>
        obtain ⟨taken, htaken⟩ := @exists_taken scopes line line.number (le_refl _) rest
          (hnumber ▸ hnumbered.2)
        generalize stretchFrom scopes line.owner line.number rest = found at htaken ⊢
        obtain ⟨scope, last, later⟩ := found
        have hsplit : rest = taken ++ later := htaken.split
        have hlengths := congrArg List.length hsplit
        rw [List.length_append] at hlengths
        obtain ⟨hfront, hback⟩ := numbered_append (hsplit ▸ hnumbered.2)
        have hplain : line.covered = false := by
          have hnot : ¬ (line.covered = true) := fun h => hstarts (.inl h)
          simpa using hnot
        exact StretchesOf.cons_taken hplain htaken ⟨hnumber, hfront⟩ hback (ih (by omega) hback)

/-! ## The lines of the source -/

section Source

variable {lines : List (List Char)} {chunks : List Chunk}
variable {g : Stretch}

theorem mem_gapLines {l : GapLine} : l ∈ gapLines lines scopes chunks
    ↔ 1 ≤ l.number ∧ lines[l.number - 1]? = some l.text
      ∧ l.covered = isCovered lines chunks l.number ∧ l.owner = ownerOf lines scopes l.number := by
  rw [gapLines, List.mem_map]
  constructor
  · rintro ⟨⟨text, n⟩, hmem, rfl⟩
    exact ⟨Nat.succ_pos n, List.mk_mem_zipIdx_iff_getElem?.mp hmem, rfl, rfl⟩
  · rintro ⟨hpos, htext, hcovered, howner⟩
    refine ⟨(l.text, l.number - 1), List.mk_mem_zipIdx_iff_getElem?.mpr htext, ?_⟩
    simp only [Nat.sub_add_cancel hpos, ← hcovered, ← howner]

theorem length_gapLines : (gapLines lines scopes chunks).length = lines.length := by
  rw [gapLines, List.length_map, List.length_zipIdx]

theorem numbered_gapLines : Numbered 1 (gapLines lines scopes chunks) := by
  have hfrom : ∀ (ls : List (List Char)) (n : ℕ), Numbered (n + 1) ((ls.zipIdx n).map fun line =>
      (⟨line.2 + 1, line.1, isCovered lines chunks (line.2 + 1),
        ownerOf lines scopes (line.2 + 1)⟩ : GapLine)) := by
    intro ls
    induction ls with
    | nil => exact fun _ => trivial
    | cons l ls ih => exact fun n => ⟨rfl, ih (n + 1)⟩
  exact hfrom lines 0

/-- The stretches of the source that no chunk covers. -/
def gapsOf (lines : List (List Char)) (scopes : List SuppressedScope) (chunks : List Chunk) :
    List Stretch :=
  stretches scopes lines.length (gapLines lines scopes chunks)

theorem stretchesOf_gapsOf :
    StretchesOf scopes 1 (gapLines lines scopes chunks) (gapsOf lines scopes chunks) :=
  stretchesOf_stretches (le_of_eq length_gapLines) numbered_gapLines

theorem gap_bounds (hg : g ∈ gapsOf lines scopes chunks) :
    1 ≤ g.first ∧ g.first ≤ g.last ∧ g.last ≤ lines.length := by
  have hbounds := stretchesOf_gapsOf.bounds g hg
  rw [length_gapLines] at hbounds
  omega

theorem gap_uncovered (hg : g ∈ gapsOf lines scopes chunks) {i : ℕ} (hfirst : g.first ≤ i)
    (hlast : i ≤ g.last) : isCovered lines chunks i = false := by
  have hbounds := gap_bounds hg
  have hin : i - 1 < lines.length := by omega
  have hmem : (⟨i, lines[i - 1], isCovered lines chunks i, ownerOf lines scopes i⟩ : GapLine)
      ∈ gapLines lines scopes chunks :=
    mem_gapLines.mpr ⟨by show 1 ≤ i; omega, List.getElem?_eq_getElem hin, rfl, rfl⟩
  exact stretchesOf_gapsOf.uncovered g hg _ hmem hfirst hlast

/-- A stretch goes on in one container, or from a bare header into the one that it opens. -/
def OneContainer (lines : List (List Char)) (scopes : List SuppressedScope) (g : Stretch) : Prop :=
  ∀ i, g.first ≤ i → i < g.last → ownerOf lines scopes (i + 1) = ownerOf lines scopes i
    ∨ ∃ last ≤ i, opensNested scopes last (ownerOf lines scopes i) (ownerOf lines scopes (i + 1))
      = true

theorem gap_oneContainer (hg : g ∈ gapsOf lines scopes chunks) : OneContainer lines scopes g := by
  intro i hfirst hlast
  have hbounds := gap_bounds hg
  have hmem : ∀ n, 1 ≤ n → n ≤ lines.length → ∃ l ∈ gapLines lines scopes chunks, l.number = n
      ∧ l.owner = ownerOf lines scopes n := fun n hpos hle =>
    ⟨⟨n, lines[n - 1], isCovered lines chunks n, ownerOf lines scopes n⟩,
      mem_gapLines.mpr ⟨hpos, List.getElem?_eq_getElem (by show n - 1 < lines.length; omega), rfl,
        rfl⟩, rfl, rfl⟩
  obtain ⟨a, ha, hanumber, haowner⟩ := hmem i (by omega) (by omega)
  obtain ⟨b, hb, hbnumber, hbowner⟩ := hmem (i + 1) (by omega) (by omega)
  have hcontinues := stretchesOf_gapsOf.contained g hg a ha b hb (by omega) (by omega) (by omega)
  rw [Continues, haowner, hbowner, hanumber] at hcontinues
  exact hcontinues

theorem exists_gap {i : ℕ} (hi : 1 ≤ i) {line : List Char} (hline : lines[i - 1]? = some line)
    (hne : trim line ≠ []) (hcovered : isCovered lines chunks i = false) :
    ∃ g ∈ gapsOf lines scopes chunks, g.first ≤ i ∧ i ≤ g.last := by
  have hmem : (⟨i, line, isCovered lines chunks i, ownerOf lines scopes i⟩ : GapLine)
      ∈ gapLines lines scopes chunks := mem_gapLines.mpr ⟨hi, hline, rfl, rfl⟩
  exact stretchesOf_gapsOf.complete _ hmem hcovered hne

/-! ## Segments -/

theorem cover_segmentsOf (language : String) (lines : List (List Char))
    (container : Option SuppressedScope) {g : Stretch} (hg : g.first ≤ g.last) :
    RubyBody.Cover lines g.first g.last (segmentsOf isAlphanumeric language lines container g) := by
  cases container with
  | none => exact RubyBody.cover_whole hg
  | some c =>
    rw [segmentsOf]
    split
    case isTrue => exact RubyBody.cover_runs lines _ _ hg
    case isFalse => exact RubyBody.cover_whole hg

theorem segmentWindows_eq (cap : ℕ) (lines : List (List Char)) (container : Option SuppressedScope)
    (r : RubyBody.Run) : ∃ name parent, segmentWindows cap lines container r
      = (slidingWindow cap (joinLines (linesBetween lines (r.first - 1) r.last)) name none
        parent).map fun window => window.movedDown (r.first - 1) :=
  ⟨_, _, rfl⟩

theorem bounds_of_mem_segmentWindows {cap : ℕ} {container : Option SuppressedScope}
    {r : RubyBody.Run} (hlf : ∀ l ∈ lines, '\n' ∉ l) (hfirst : 1 ≤ r.first)
    (hle : r.first ≤ r.last) (hlast : r.last ≤ lines.length) {c : Chunk}
    (hc : c ∈ segmentWindows cap lines container r) :
    r.first ≤ c.startLine ∧ c.endLine ≤ r.last ∧ c.docstring = none := by
  obtain ⟨name, parent, heq⟩ := segmentWindows_eq cap lines container r
  rw [heq] at hc
  obtain ⟨window, hwindow, rfl⟩ := List.mem_map.mp hc
  have hlength := @length_linesBetween _ (r.first - 1) r.last hlast
  have hne : linesBetween lines (r.first - 1) r.last ≠ [] := List.ne_nil_of_length_pos (by omega)
  have hlines := length_lines_joinLines_le hne fun l hl => hlf l (mem_of_mem_linesBetween hl)
  have hbounds := endLine_le_of_mem_slidingWindow hwindow
  refine ⟨?_, ?_, ?_⟩
  · show r.first ≤ window.startLine + (r.first - 1)
    omega
  · show window.endLine + (r.first - 1) ≤ r.last
    omega
  · obtain ⟨w, -, rfl⟩ := List.mem_map.mp hwindow
    rfl

/-- The windows of a segment hold its lines. -/
theorem exists_holds_segmentWindows {cap : ℕ} {container : Option SuppressedScope}
    {r : RubyBody.Run} (hlf : ∀ l ∈ lines, '\n' ∉ l) (hpos : 1 ≤ r.first)
    (hlen : r.last ≤ lines.length) {i : ℕ} (hfirst : r.first ≤ i) (hlast : i ≤ r.last)
    {line : List Char} (hline : lines[i - 1]? = some line) (hne : trim line ≠ []) :
    ∃ c ∈ segmentWindows cap lines container r, c.Holds i line := by
  obtain ⟨name, parent, heq⟩ := segmentWindows_eq cap lines container r
  have hlength := @length_linesBetween _ (r.first - 1) r.last hlen
  have hbetween : linesBetween lines (r.first - 1) r.last ≠ [] :=
    List.ne_nil_of_length_pos (by omega)
  have hplace : (linesBetween lines (r.first - 1) r.last)[i - r.first]? = some line := by
    rw [getElem?_linesBetween (by omega), show r.first - 1 + (i - r.first) = i - 1 by omega]
    exact hline
  obtain ⟨l, hl, htrim⟩ := exists_lines_joinLines hbetween
    (fun l hl => hlf l (mem_of_mem_linesBetween hl)) hplace hne
  have hi : i - (r.first - 1) - 1 = i - r.first := by omega
  obtain ⟨window, hwindow, hholds⟩ := (@exists_holds_slidingWindow_iff cap
    (joinLines (linesBetween lines (r.first - 1) r.last)) name none parent (i - (r.first - 1))
    (by omega) line hne).mpr ⟨l, by rw [hi]; exact hl, htrim ▸ List.infix_refl _⟩
  refine ⟨window.movedDown (r.first - 1), heq ▸ List.mem_map_of_mem hwindow, ?_⟩
  have hmoved := (@movedDown_holds_iff window (r.first - 1) _ line).mpr hholds
  rw [Nat.sub_add_cancel (by omega)] at hmoved
  exact hmoved

end Source

/-! ## What the gaps are filled with -/

section Windows

variable {cap : ℕ} {source : List Char} {language : String} {chunks : List Chunk}

theorem mem_gapWindows {c : Chunk} :
    c ∈ gapWindows isAlphanumeric cap source language scopes chunks
      ↔ ∃ g ∈ gapsOf (TextLines.lines source) scopes chunks,
        c ∈ windowsOfStretch isAlphanumeric cap language (TextLines.lines source) scopes g :=
  List.mem_flatMap

theorem not_covered_of_mem_gapWindows {c : Chunk}
    (hc : c ∈ gapWindows isAlphanumeric cap source language scopes chunks) :
    c.docstring = none ∧ ∀ i, c.Shows i → isCovered (TextLines.lines source) chunks i = false := by
  obtain ⟨g, hg, hwindow⟩ := mem_gapWindows.mp hc
  have hbounds := gap_bounds hg
  rw [windowsOfStretch] at hwindow
  split at hwindow
  case isTrue => exact absurd hwindow List.not_mem_nil
  case isFalse =>
    obtain ⟨r, hr, hsegment⟩ := List.mem_flatMap.mp hwindow
    have hrun := (cover_segmentsOf language _ _ hbounds.2.1).bounds r hr
    obtain ⟨hfirst, hlast, hdoc⟩ := bounds_of_mem_segmentWindows (lines_no_lf source) (by omega)
      hrun.2.1 (by omega) hsegment
    refine ⟨hdoc, fun i hshows => gap_uncovered hg ?_ ?_⟩
    · have hstart := hshows.1
      omega
    · have hend := hshows.2
      omega

/-- A line that no chunk covers and that is not blank is held by a window, unless its stretch is
left out for having too few letters and digits. -/
theorem exists_holds_gapWindows {i : ℕ} (hi : 1 ≤ i) {line : List Char}
    (hline : (TextLines.lines source)[i - 1]? = some line) (hne : trim line ≠ [])
    (hcovered : isCovered (TextLines.lines source) chunks i = false) :
    (∃ c ∈ gapWindows isAlphanumeric cap source language scopes chunks, c.Holds i line)
      ∨ ∃ g ∈ gapsOf (TextLines.lines source) scopes chunks, g.first ≤ i ∧ i ≤ g.last
        ∧ stretchWords isAlphanumeric (TextLines.lines source) g < MIN_GAP_WORD_CHARS := by
  obtain ⟨g, hg, hfirst, hlast⟩ := @exists_gap scopes _ _ i hi line hline hne hcovered
  have hbounds := gap_bounds hg
  by_cases hshort : stretchWords isAlphanumeric (TextLines.lines source) g < MIN_GAP_WORD_CHARS
  · exact .inr ⟨g, hg, hfirst, hlast, hshort⟩
  · have hcover := @cover_segmentsOf isAlphanumeric language (TextLines.lines source)
      (g.scope.bind fun i => scopes[i]?) g hbounds.2.1
    have hlineAt : RubyBody.lineAt (TextLines.lines source) i = line := by
      rw [RubyBody.lineAt, List.getD_eq_getElem?_getD, hline]
      rfl
    obtain ⟨r, hr, hrfirst, hrlast⟩ := hcover.covered i hfirst hlast (by rw [hlineAt]; exact hne)
    have hrun := hcover.bounds r hr
    obtain ⟨c, hc, hholds⟩ := @exists_holds_segmentWindows _ cap
      (g.scope.bind fun i => scopes[i]?) r (lines_no_lf source) (by omega) (by omega) i hrfirst
      hrlast line hline hne
    refine .inl ⟨c, mem_gapWindows.mpr ⟨g, hg, ?_⟩, hholds⟩
    rw [windowsOfStretch, if_neg hshort]
    exact List.mem_flatMap.mpr ⟨r, hr, hc⟩

end Windows

end Index
end Inkentry
