/-
  Inkentry.Index.Chunker

  The sliding window: a text cut into windows of whole lines, for a language
  without a grammar, a file that did not parse and a node that is too large.

  Windows cover the text in order and within the budget whatever its lines are.
  A window shows a line that no earlier one has unless the lines it shares with
  the one before leave no room for the next (`windowsLaw_iff`).
-/

import Inkentry.Index.Chunk
import Inkentry.Lib.OverlapWindows
import Inkentry.Lib.TextLines

namespace Inkentry
namespace Index

open OverlapWindows

/-! ## The code -/

/-- Soft ceiling for one chunk. -/
def MAX_CHUNK_TOKENS : ℕ := 512

/-- Four characters a token; the product wraps. -/
def budgetChars (cap : ℕ) : ℕ := cap * 4 % 2 ^ 64

def overlapChars (cap : ℕ) : ℕ := budgetChars cap / 8

def joinLines (lines : List (List Char)) : String := String.ofList (['\n'].intercalate lines)

/-- The lines from `first` up to the one before `last`. -/
def linesBetween (lines : List (List Char)) (first last : ℕ) : List (List Char) :=
  (lines.drop first).take (last - first)

def lineChars (lines : List (List Char)) : List ℕ := lines.map List.length

/-- The windows of some lines. -/
def windowsOf (cap : ℕ) (lines : List (List Char)) : List (ℕ × ℕ) :=
  windowsFrom (lineChars lines) (budgetChars cap) (overlapChars cap) 0

/-- A window, under the identity of the node that is windowed. -/
def windowChunk (lines : List (List Char)) (name docstring parentScope : Option String)
    (w : ℕ × ℕ) : Chunk where
  kind := .verbatim
  name := name
  startLine := w.1 + 1
  endLine := w.2
  content := joinLines (linesBetween lines w.1 w.2)
  docstring := docstring
  parentScope := parentScope
  summary := none
  inTestCode := false

def slidingWindow (cap : ℕ) (source : String) (name docstring parentScope : Option String) :
    List Chunk :=
  let lines := TextLines.lines source.toList
  (windowsOf cap lines).map (windowChunk lines name docstring parentScope)

/-! ## Lengths -/

theorem length_lineChars (lines : List (List Char)) : (lineChars lines).length = lines.length :=
  List.length_map List.length

/-- Lines joined are as long as their offset, less the separator after the last. -/
theorem length_intercalate (lines : List (List Char)) :
    (['\n'].intercalate lines).length = offset (lineChars lines) lines.length - 1 := by
  have hoffset (line : List Char) (rest : List (List Char)) :
      offset (lineChars (line :: rest)) (line :: rest).length
        = line.length + 1 + offset (lineChars rest) rest.length := by
    rw [offset, lineChars, List.map_cons, List.length_cons, List.take_succ_cons, List.map_cons,
      List.sum_cons, offset, lineChars]
  induction lines with
  | nil => rfl
  | cons line rest ih =>
    cases rest with
    | nil =>
      rw [hoffset, List.intercalate_singleton]
      show _ = line.length + 1 + 0 - 1
      omega
    | cons next rest =>
      rw [List.intercalate_cons_cons, List.length_append, List.length_append, ih,
        List.length_singleton, hoffset line, hoffset next]
      omega

theorem length_joinLines_between (lines : List (List Char)) {first last : ℕ} (h : first ≤ last)
    (hlast : last ≤ lines.length) : (joinLines (linesBetween lines first last)).length
      = offset (lineChars lines) last - offset (lineChars lines) first - 1 := by
  have hlength : (linesBetween lines first last).length = last - first := by
    rw [linesBetween, List.length_take, List.length_drop]
    omega
  have hsum := offset_drop (lineChars lines) first (last - first)
  have hpart : offset (lineChars (linesBetween lines first last)) (last - first)
      = offset ((lineChars lines).drop first) (last - first) := by
    rw [offset, offset, lineChars, lineChars, linesBetween, ← List.map_drop, ← List.map_take,
      List.take_take, Nat.min_self, ← List.map_take]
  rw [Nat.add_sub_cancel' h] at hsum
  rw [joinLines, String.length_ofList, length_intercalate, hlength, hpart]
  omega

/-! ## What windows should be -/

/-- The chunk shows a line, counted from one. -/
def Chunk.Shows (c : Chunk) (i : ℕ) : Prop := c.startLine ≤ i ∧ i ≤ c.endLine

/-- What is owed of the windows of some lines. -/
structure WindowsLaw (cap : ℕ) (lines : List (List Char)) (chunks : List Chunk) : Prop where
  content : ∀ c ∈ chunks, 1 ≤ c.startLine ∧ c.startLine ≤ c.endLine ∧ c.endLine ≤ lines.length
    ∧ c.content = joinLines (linesBetween lines (c.startLine - 1) c.endLine)
  first : lines ≠ [] → ∃ c, chunks.head? = some c ∧ c.startLine = 1
  last : lines ≠ [] → ∃ c, chunks.getLast? = some c ∧ c.endLine = lines.length
  /-- each starts later than the one before, and leaves no line between them out -/
  ordered : chunks.IsChain fun a b => a.startLine < b.startLine ∧ b.startLine ≤ a.endLine + 1
  budget : ∀ c ∈ chunks, c.content.length ≤ cap * 4 ∨ c.startLine = c.endLine
  /-- each after the first shows a line that none before it does -/
  fresh : ∀ before c after, chunks = before ++ c :: after → before ≠ [] →
    ∃ i, c.Shows i ∧ ∀ c' ∈ before, ¬ c'.Shows i

section

variable {cap : ℕ} {lines : List (List Char)} {name docstring parentScope : Option String}
variable {w : ℕ × ℕ}

theorem ne_nil_of_mem_windowsOf (hw : w ∈ windowsOf cap lines) : lines ≠ [] := by
  rintro rfl
  rw [windowsOf, lineChars, List.map_nil, windowsFrom_of_le (Nat.zero_le 0)] at hw
  exact absurd hw List.not_mem_nil

theorem exists_mem_windowsOf {i : ℕ} (h : i < lines.length) :
    ∃ w ∈ windowsOf cap lines, w.1 ≤ i ∧ i < w.2 := by
  rw [← length_lineChars] at h
  exact exists_mem_windowsFrom (Nat.zero_lt_of_lt h) i (Nat.zero_le i) h

theorem of_mem_windowsOf (hne : lines ≠ []) (hw : w ∈ windowsOf cap lines) :
    w.1 < w.2 ∧ w.2 ≤ lines.length
      ∧ (w.2 = w.1 + 1 ∨ offset (lineChars lines) w.2
          ≤ offset (lineChars lines) w.1 + budgetChars cap + 1) := by
  have hpos : 0 < (lineChars lines).length := by
    rw [length_lineChars]
    exact List.length_pos_of_ne_nil hne
  obtain ⟨-, hin, hend⟩ := snd_of_mem_windowsFrom hpos w hw
  have hlt := lt_windowEnd hin (budgetChars cap)
  have hle := windowEnd_le hin (budgetChars cap)
  rw [length_lineChars] at hle
  have hfits := (le_windowEnd_iff hin (budgetChars cap) w.2).mp (by omega)
  omega

theorem length_windowChunk (hne : lines ≠ []) (hw : w ∈ windowsOf cap lines) :
    (windowChunk lines name docstring parentScope w).content.length ≤ cap * 4
      ∨ w.1 + 1 = w.2 := by
  obtain ⟨hlt, hle, hone | hbudget⟩ := of_mem_windowsOf hne hw
  · exact Or.inr hone.symm
  · refine Or.inl ?_
    have hcap : budgetChars cap ≤ cap * 4 := Nat.mod_le _ _
    show (joinLines (linesBetween lines w.1 w.2)).length ≤ _
    rw [length_joinLines_between lines (by omega) hle]
    omega

theorem windowsOf_isChain (cap : ℕ) (lines : List (List Char)) :
    (windowsOf cap lines).IsChain fun a b => a.1 < b.1 ∧ b.1 ≤ a.2 := by
  rcases Nat.eq_zero_or_pos (lineChars lines).length with hzero | hpos
  · rw [windowsOf, windowsFrom_of_le (by omega)]
    exact List.isChain_nil
  · have hmem := @snd_of_mem_windowsFrom _ (budgetChars cap) (overlapChars cap) _ hpos
    have hchain := @windowsFrom_chain _ (budgetChars cap) (overlapChars cap) _ hpos
    refine hchain.imp_of_mem_imp fun a b ha _ hab => ?_
    obtain ⟨-, hin, hend⟩ := hmem a ha
    rw [hab.1, hend]
    exact ⟨lt_nextStart hin, nextStart_le⟩

/-- Windows of lines are chunks of lines, a window from `s` on being a chunk from `s + 1` on. -/
theorem fresh_map_iff (ws : List (ℕ × ℕ)) :
    Fresh ws ↔ ∀ before c after,
      ws.map (windowChunk lines name docstring parentScope) = before ++ c :: after → before ≠ [] →
        ∃ i, c.Shows i ∧ ∀ c' ∈ before, ¬ c'.Shows i := by
  constructor
  · intro hfresh before c after hsplit hne
    obtain ⟨front, back, rfl, rfl, hback⟩ := List.map_eq_append_iff.mp hsplit
    obtain ⟨w, rest, rfl, rfl, rfl⟩ := List.map_eq_cons_iff.mp hback
    obtain ⟨i, hi, hlt, hout⟩ := hfresh front w rest rfl (by simpa using hne)
    refine ⟨i + 1, ⟨Nat.succ_le_succ hi, hlt⟩, fun c' hc' hshows => ?_⟩
    obtain ⟨w', hw', rfl⟩ := List.mem_map.mp hc'
    obtain ⟨hstart, hend⟩ := hshows
    exact hout w' hw' ⟨Nat.le_of_succ_le_succ hstart, hend⟩
  · intro hfresh before w after hsplit hne
    obtain ⟨i, ⟨hstart, hend⟩, hout⟩ := hfresh
      (before.map (windowChunk lines name docstring parentScope)) _
      (after.map (windowChunk lines name docstring parentScope))
      (by rw [hsplit, List.map_append, List.map_cons]) (by simpa using hne)
    have hstart : w.1 + 1 ≤ i := hstart
    have hend : i ≤ w.2 := hend
    refine ⟨i - 1, by omega, by omega, fun w' hw' hcover => ?_⟩
    refine hout _ (List.mem_map_of_mem hw') ⟨?_, ?_⟩
    · show w'.1 + 1 ≤ i
      omega
    · show i ≤ w'.2
      omega

/-- The windows of a text are as they should be exactly when, in every round that does not reach
    the last line, the lines kept for the next window leave room for the line after them, or
    none are kept. -/
theorem windowsLaw_iff (cap : ℕ) (source : String) (name docstring parentScope : Option String) :
    WindowsLaw cap (TextLines.lines source.toList)
        (slidingWindow cap source name docstring parentScope)
      ↔ ∀ w ∈ windowsOf cap (TextLines.lines source.toList),
        w.2 < (TextLines.lines source.toList).length →
          Leaves (lineChars (TextLines.lines source.toList)) (budgetChars cap) (overlapChars cap)
            w.1 := by
  generalize hlines : TextLines.lines source.toList = lines
  have hchunks : slidingWindow cap source name docstring parentScope
      = (windowsOf cap lines).map (windowChunk lines name docstring parentScope) := by
    rw [slidingWindow, hlines]
  rw [hchunks]
  rcases List.eq_nil_or_concat lines with rfl | ⟨front, final, hfinal⟩
  · -- no line, no window
    have hnone : windowsOf cap [] = [] := windowsFrom_of_le (Nat.le_refl 0)
    rw [hnone]
    refine iff_of_true ⟨by simp, by simp, by simp, List.isChain_nil, by simp, by simp⟩ (by simp)
  have hne : lines ≠ [] := by
    rw [hfinal, List.concat_eq_append]
    exact List.concat_ne_nil final front
  have hpos : 0 < (lineChars lines).length := by
    rw [length_lineChars]
    exact List.length_pos_of_ne_nil hne
  have hfresh := @fresh_windowsFrom_iff _ (budgetChars cap) (overlapChars cap) _ hpos
  rw [length_lineChars] at hfresh
  constructor
  · intro hlaw
    exact hfresh.mp ((fresh_map_iff _).mpr hlaw.fresh)
  · intro hleaves
    refine ⟨?content, ?first, ?last, ?ordered, ?budget, ?fresh⟩
    case content =>
      intro c hc
      obtain ⟨w, hw, rfl⟩ := List.mem_map.mp hc
      obtain ⟨hlt, hle, -⟩ := of_mem_windowsOf hne hw
      exact ⟨Nat.succ_le_succ (Nat.zero_le _), hlt, hle, rfl⟩
    case first =>
      intro _
      rw [List.head?_map, windowsOf, head?_windowsFrom hpos, Option.map_some]
      exact ⟨_, rfl, rfl⟩
    case last =>
      intro _
      obtain ⟨w, hw, hend⟩ := @windowsFrom_getLast _ (budgetChars cap)
        (overlapChars cap) _ hpos
      refine ⟨windowChunk lines name docstring parentScope w, ?_, ?_⟩
      · rw [List.getLast?_map, windowsOf, hw, Option.map_some]
      · rw [length_lineChars] at hend
        exact hend
    case ordered =>
      refine (List.isChain_map _).mpr ((windowsOf_isChain cap lines).imp fun a b hab => ?_)
      exact ⟨Nat.succ_lt_succ hab.1, Nat.succ_le_succ hab.2⟩
    case budget =>
      intro c hc
      obtain ⟨w, hw, rfl⟩ := List.mem_map.mp hc
      exact length_windowChunk hne hw
    case fresh => exact (fresh_map_iff _).mp (hfresh.mpr hleaves)

end

/-! ## A window that shows nothing new -/

/-- Two lines of one character, then one that almost fills a window. -/
def shortThenLong : String :=
  String.ofList (['a'] ++ '\n' :: (['a'] ++ '\n' :: List.replicate 2047 'b'))

theorem lines_three {first second third : List Char} (hfirst : '\n' ∉ first)
    (hsecond : '\n' ∉ second) (hthird : '\n' ∉ third) (hne : third ≠ []) :
    TextLines.lines (first ++ '\n' :: (second ++ '\n' :: third))
      = [TextLines.stripCr first, TextLines.stripCr second, third] := by
  rw [TextLines.lines, List.splitOn_append_cons_self_of_not_mem hfirst,
    List.splitOn_append_cons_self_of_not_mem hsecond, List.splitOn_eq_singleton hthird]
  show (if third = [] then _ else _) = _
  rw [if_neg hne]
  rfl

theorem lines_shortThenLong :
    TextLines.lines shortThenLong.toList = [['a'], ['a'], List.replicate 2047 'b'] := by
  have hlong : '\n' ∉ List.replicate 2047 'b' := fun h =>
    absurd (List.eq_of_mem_replicate h) (by decide)
  have hne : List.replicate 2047 'b' ≠ [] := List.ne_nil_of_length_pos (by
    rw [List.length_replicate]
    omega)
  have hstrip : TextLines.stripCr ['a'] = ['a'] := by decide
  have hlines := @lines_three ['a'] ['a'] _ (by decide) (by decide) hlong hne
  have htext : shortThenLong.toList
      = ['a'] ++ '\n' :: (['a'] ++ '\n' :: List.replicate 2047 'b') := String.toList_ofList
  rw [hstrip] at hlines
  exact (congrArg TextLines.lines htext).trans hlines

theorem windowsOf_shortThenLong :
    windowsOf MAX_CHUNK_TOKENS [['a'], ['a'], List.replicate 2047 'b']
      = [(0, 2), (1, 2), (2, 3)] := by
  have hsizes : lineChars [['a'], ['a'], List.replicate 2047 'b'] = [1, 1, 2047] := by
    rw [lineChars, List.map_cons, List.map_cons, List.map_cons, List.length_replicate]
    rfl
  have hfirst : windowEnd [1, 1, 2047] 2048 0 = 2 := by decide
  have hsecond : windowEnd [1, 1, 2047] 2048 1 = 2 := by decide
  have hthird : windowEnd [1, 1, 2047] 2048 2 = 3 := by decide
  have hback : nextStart [1, 1, 2047] 2048 256 0 = 1 := by decide
  have hforth : nextStart [1, 1, 2047] 2048 256 1 = 2 := by decide
  rw [windowsOf, hsizes]
  show windowsFrom [1, 1, 2047] 2048 256 0 = _
  rw [windowsFrom_of_more (by decide) (by decide), hfirst, hback,
    windowsFrom_of_more (by decide) (by decide), hsecond, hforth,
    windowsFrom_of_last (by decide) (by decide), hthird]

/-- The second window shows the second line again, and nothing else. -/
theorem not_windowsLaw_of_short_then_long :
    ¬ WindowsLaw MAX_CHUNK_TOKENS (TextLines.lines shortThenLong.toList)
      (slidingWindow MAX_CHUNK_TOKENS shortThenLong none none none) := by
  intro h
  have hchunks : slidingWindow MAX_CHUNK_TOKENS shortThenLong none none none
      = [(0, 2), (1, 2), (2, 3)].map
        (windowChunk (TextLines.lines shortThenLong.toList) none none none) := by
    rw [slidingWindow, ← windowsOf_shortThenLong, lines_shortThenLong]
  obtain ⟨i, ⟨hstart, hend⟩, hout⟩ := h.fresh [_] _ [_] hchunks (by simp)
  refine hout _ (List.mem_singleton_self _) ⟨?_, hend⟩
  exact Nat.le_trans (show 1 ≤ 2 by omega) hstart

end Index
end Inkentry
