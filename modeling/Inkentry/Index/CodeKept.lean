/-
  Inkentry.Index.CodeKept

  Whether parsing loses code: every line that is not blank is to be held by a
  chunk, to be part of a docstring, or to lie in a stretch with too few letters
  and digits.

  The lines inside a node are always held, and so are the windows' lines.  What
  may be lost is at the edge of a node: its first or last line, which it may
  share with other code, and the lines above it, which its docstring is taken
  to fill (`losesNoCode_iff`).
-/

import Inkentry.Index.GapCover
import Inkentry.Index.ChunkBound
import Inkentry.Lib.TextSlices

namespace Inkentry
namespace Index

open TextLines

variable {Node : Type}

/-! ## What is owed of a line -/

/-- The lines of the source. -/
def WalkCtx.lines (ctx : WalkCtx Node) : List (List Char) := TextLines.lines ctx.sx.source

/-- What the walk of the whole tree collects. -/
def WalkCtx.walked (ctx : WalkCtx Node) : Walked :=
  walkNode ctx MAX_WALK_DEPTH ctx.sx.root none .empty

/-- A line is held by a chunk, is in a docstring, or lies in a stretch, of lines that no chunk of a
node covers and within one container, with too few letters and digits. -/
def Accounted (isAlphanumeric : Char → Bool) (ctx : WalkCtx Node) (i : ℕ) (line : List Char) :
    Prop :=
  (∃ c ∈ chunksOfTree isAlphanumeric ctx, c.Holds i line)
    ∨ (∃ c ∈ chunksOfTree isAlphanumeric ctx, c.Documents line)
    ∨ ∃ g ∈ gapsOf ctx.lines ctx.walked.scopes ctx.walked.chunks, g.first ≤ i ∧ i ≤ g.last
      ∧ (∀ n, g.first ≤ n → n ≤ g.last → isCovered ctx.lines ctx.walked.chunks n = false)
      ∧ OneContainer ctx.lines ctx.walked.scopes g
      ∧ stretchWords isAlphanumeric ctx.lines g < MIN_GAP_WORD_CHARS

/-- Every line that is not blank is accounted for. -/
def LosesNoCode (isAlphanumeric : Char → Bool) (ctx : WalkCtx Node) : Prop :=
  ∀ i line, 1 ≤ i → ctx.lines[i - 1]? = some line → trim line ≠ [] →
    Accounted isAlphanumeric ctx i line

/-! ## What a node covers and what it holds -/

section Cuts

variable (ctx : WalkCtx Node) (cut : Cut Node)

/-- The text of the node has the line at its place. -/
def Cut.Holds (i : ℕ) (line : List Char) : Prop :=
  ctx.sx.startRow cut.node + 1 ≤ i
    ∧ ∃ l, (TextLines.lines (ctx.sx.text cut.node))[i - (ctx.sx.startRow cut.node + 1)]? = some l
      ∧ trim line <:+: trim l

/-- The comment that documents the node has the line. -/
def Cut.Documents (line : List Char) : Prop := ∃ c ∈ cut.chunks ctx, c.Documents line

/-- The line is one of the node's, or one of as many above it as its docstring has. -/
def Cut.Covers (i : ℕ) : Prop := ∃ c ∈ cut.chunks ctx, coveredFrom c ≤ i ∧ i ≤ c.endLine

/-- The line is not strictly inside the node. -/
def Cut.AtEdge (i : ℕ) : Prop := i ≤ ctx.sx.startRow cut.node + 1 ∨ ctx.sx.endRow cut.node + 1 ≤ i

end Cuts

/-- What nodes cover at their edges and that is not blank, nodes hold or comments on them have. -/
def EdgesKept (ctx : WalkCtx Node) : Prop :=
  ∀ cut ∈ cutsOf ctx, ∀ i line, 1 ≤ i → ctx.lines[i - 1]? = some line → trim line ≠ [] →
    cut.Covers ctx i → cut.AtEdge ctx i →
    ∃ other ∈ cutsOf ctx, other.Holds ctx i line ∨ other.Documents ctx line

/-! ## Rows of a node -/

section Rows

variable {sx : Syntax Node} {node : Node}

theorem source_eq (h : sx.start node ≤ sx.finish node) :
    sx.source.take (sx.start node) ++ sx.text node ++ sx.source.drop (sx.finish node)
      = sx.source := by
  have htake : sx.source.take (sx.start node) ++ sx.text node
      = sx.source.take (sx.finish node) := by
    rw [Syntax.text, ← List.take_add, Nat.add_sub_cancel' h]
  rw [htake, List.take_append_drop]

theorem text_eq_nil (h : sx.finish node ≤ sx.start node) : sx.text node = [] := by
  rw [Syntax.text, Nat.sub_eq_zero_of_le h, List.take_zero]

theorem startRow_add_count (h : sx.start node ≤ sx.finish node) :
    sx.startRow node + (sx.text node).count '\n' = sx.endRow node := by
  rw [Syntax.startRow, Syntax.endRow, Syntax.row, Syntax.row, ← List.count_append, Syntax.text,
    ← List.take_add, Nat.add_sub_cancel' h]

theorem length_lines_text_le :
    sx.startRow node + (TextLines.lines (sx.text node)).length ≤ max (sx.startRow node)
      (sx.endRow node + 1) := by
  rcases Nat.le_total (sx.start node) (sx.finish node) with h | h
  · have hrows := startRow_add_count h
    have hlines := length_lines_le (sx.text node)
    omega
  · rw [text_eq_nil h]
    exact Nat.le_max_left _ _

theorem getElem?_lines_text {k : ℕ} (h : sx.startRow node + k + 1 < sx.endRow node) :
    (TextLines.lines (sx.text node))[k + 1]?
      = (TextLines.lines sx.source)[sx.startRow node + (k + 1)]? := by
  rcases Nat.le_total (sx.start node) (sx.finish node) with hle | hle
  · have hrows := startRow_add_count hle
    rw [← getElem?_lines_slice (sx.source.take (sx.start node)) (sx.source.drop (sx.finish node))
      (by omega), source_eq hle]
    rfl
  · -- a node that ends before it begins has no rows
    have hmono : sx.endRow node ≤ sx.startRow node :=
      (List.take_sublist_take_left hle).count_le '\n'
    omega

end Rows

/-! ## Chunks of a node -/

section Chunks

variable {ctx : WalkCtx Node} {cut : Cut Node} {i : ℕ} {line : List Char}

theorem windowed_eq (node : Node) (name docstring parentScope : Option String) :
    windowed ctx node name docstring parentScope
      = (slidingWindow ctx.cap (ctx.contentOf node) name docstring parentScope).map fun sub =>
        sub.movedDown (ctx.sx.startRow node) := rfl

theorem Cut.exists_holds_iff (hne : trim line ≠ []) :
    (∃ c ∈ cut.chunks ctx, c.Holds i line) ↔ cut.Holds ctx i line := by
  have hcontent : (ctx.contentOf cut.node).toList = ctx.sx.text cut.node := String.toList_ofList
  rw [Cut.chunks]
  split
  case isTrue =>
    -- windows number the lines of the node's text, moved down to its first row
    rw [windowed_eq]
    constructor
    · rintro ⟨c, hc, hholds⟩
      obtain ⟨sub, hsub, rfl⟩ := List.mem_map.mp hc
      have hstart : sub.startLine + ctx.sx.startRow cut.node ≤ i := hholds.1.1
      have hpos := (endLine_le_of_mem_slidingWindow hsub).1
      have hback : i - ctx.sx.startRow cut.node + ctx.sx.startRow cut.node = i := by omega
      rw [← hback, movedDown_holds_iff] at hholds
      obtain ⟨l, hl, hinfix⟩ := (exists_holds_slidingWindow_iff (by omega) hne).mp
        ⟨sub, hsub, hholds⟩
      rw [hcontent, Nat.sub_sub] at hl
      exact ⟨by omega, l, hl, hinfix⟩
    · rintro ⟨hstart, l, hl, hinfix⟩
      rw [← Nat.sub_sub, ← hcontent] at hl
      obtain ⟨sub, hsub, hholds⟩ := (exists_holds_slidingWindow_iff (by omega) hne).mpr
        ⟨l, hl, hinfix⟩
      refine ⟨_, List.mem_map_of_mem hsub, ?_⟩
      have hmoved := (@movedDown_holds_iff sub (ctx.sx.startRow cut.node) _ line).mpr hholds
      rw [Nat.sub_add_cancel (by omega)] at hmoved
      exact hmoved
  case isFalse =>
    constructor
    · rintro ⟨c, hc, ⟨hstart, -⟩, l, hl, hinfix⟩
      rw [List.mem_singleton] at hc
      subst hc
      change (TextLines.lines (ctx.contentOf cut.node).toList)[_]? = some l at hl
      rw [hcontent] at hl
      exact ⟨hstart, l, hl, hinfix⟩
    · rintro ⟨hstart, l, hl, hinfix⟩
      have hin := (List.getElem?_eq_some_iff.mp hl).choose
      have hrows := @length_lines_text_le _ ctx.sx cut.node
      rw [← hcontent] at hl
      refine ⟨_, List.mem_singleton_self _, ⟨hstart, ?_⟩, l, hl, hinfix⟩
      show i ≤ ctx.sx.endRow cut.node + 1
      omega

theorem Cut.holds_of_inside (hi : 1 ≤ i) (hline : ctx.lines[i - 1]? = some line)
    (hinside : ¬ cut.AtEdge ctx i) : cut.Holds ctx i line := by
  rw [Cut.AtEdge, not_or, Nat.not_le, Nat.not_le] at hinside
  obtain ⟨k, hk⟩ := Nat.exists_eq_add_of_lt hinside.1
  refine ⟨by omega, line, ?_, List.infix_refl _⟩
  rw [show i - (ctx.sx.startRow cut.node + 1) = k + 1 by omega, getElem?_lines_text (by omega),
    show ctx.sx.startRow cut.node + (k + 1) = i - 1 by omega]
  exact hline

theorem walked_chunks (ctx : WalkCtx Node) : ctx.walked.chunks = chunksOfCuts ctx (cutsOf ctx) :=
  chunks_walk

theorem mem_walked_chunks {c : Chunk} :
    c ∈ ctx.walked.chunks ↔ ∃ cut ∈ cutsOf ctx, c ∈ cut.chunks ctx := by
  rw [walked_chunks]
  exact List.mem_flatMap

/-- The scan for gaps takes a line of the source for covered when a node covers it. -/
theorem isCovered_iff (hline : ctx.lines[i - 1]? = some line) (hi : 1 ≤ i) :
    isCovered ctx.lines ctx.walked.chunks i = true ↔ ∃ cut ∈ cutsOf ctx, cut.Covers ctx i := by
  have hin := (List.getElem?_eq_some_iff.mp hline).choose
  rw [isCovered, List.any_eq_true]
  constructor
  · rintro ⟨c, hc, hrange⟩
    rw [Bool.and_eq_true, decide_eq_true_eq, decide_eq_true_eq] at hrange
    obtain ⟨cut, hcut, hmem⟩ := mem_walked_chunks.mp hc
    exact ⟨cut, hcut, c, hmem, hrange.1, hrange.2.trans (Nat.min_le_left _ _)⟩
  · rintro ⟨cut, hcut, c, hmem, hfrom, hend⟩
    refine ⟨c, mem_walked_chunks.mpr ⟨cut, hcut, hmem⟩, ?_⟩
    rw [Bool.and_eq_true, decide_eq_true_eq, decide_eq_true_eq]
    exact ⟨hfrom, by omega⟩

end Chunks

/-! ## The chunks of a tree -/

section Tree

variable {ctx : WalkCtx Node} {isAlphanumeric : Char → Bool} {i : ℕ} {line : List Char}

/-- The windows of what the nodes that are cut leave. -/
def WalkCtx.gaps (isAlphanumeric : Char → Bool) (ctx : WalkCtx Node) : List Chunk :=
  gapWindows isAlphanumeric ctx.cap ctx.sx.source ctx.language ctx.walked.scopes ctx.walked.chunks

/-- The chunks of a tree are those of its nodes and those of the gaps, but for the mark of test
code. -/
theorem exists_chunksOfTree_iff (hwalked : ctx.walked.chunks ≠ []) {P : Chunk → Prop}
    (hmark : ∀ c b, P { c with inTestCode := b } ↔ P c) :
    (∃ c ∈ chunksOfTree isAlphanumeric ctx, P c)
      ↔ (∃ c ∈ ctx.walked.chunks, P c) ∨ ∃ c ∈ ctx.gaps isAlphanumeric, P c := by
  have htree : chunksOfTree isAlphanumeric ctx
      = (fillGaps isAlphanumeric ctx.cap ctx.sx.source ctx.language ctx.walked.scopes
        ctx.walked.chunks).map fun chunk =>
          { chunk with
            inTestCode := ctx.walked.testSpans.any fun span =>
              span.1 ≤ chunk.startLine && chunk.endLine ≤ span.2 } := if_neg hwalked
  rw [htree]
  constructor
  · rintro ⟨c, hc, hP⟩
    obtain ⟨chunk, hchunk, rfl⟩ := List.mem_map.mp hc
    rw [hmark] at hP
    rcases mem_fillGaps.mp hchunk with hnode | hgap
    · exact .inl ⟨chunk, hnode, hP⟩
    · exact .inr ⟨chunk, hgap, hP⟩
  · intro h
    have hfilled : ∃ c ∈ fillGaps isAlphanumeric ctx.cap ctx.sx.source ctx.language
        ctx.walked.scopes ctx.walked.chunks, P c := by
      rcases h with ⟨c, hnode, hP⟩ | ⟨c, hgap, hP⟩
      · exact ⟨c, mem_fillGaps.mpr (.inl hnode), hP⟩
      · exact ⟨c, mem_fillGaps.mpr (.inr hgap), hP⟩
    obtain ⟨c, hc, hP⟩ := hfilled
    exact ⟨_, List.mem_map_of_mem hc, (hmark c _).mpr hP⟩

theorem kept_of_covered (hi : isCovered ctx.lines ctx.walked.chunks i = true)
    (h : Accounted isAlphanumeric ctx i line) :
    (∃ c ∈ ctx.walked.chunks, c.Holds i line) ∨ ∃ c ∈ ctx.walked.chunks, c.Documents line := by
  have hwalked : ctx.walked.chunks ≠ [] := by
    intro hnil
    rw [hnil] at hi
    exact absurd hi (by simp [isCovered])
  rcases h with hholds | hdocuments | ⟨g, -, hfirst, hlast, huncovered, -⟩
  · rcases (exists_chunksOfTree_iff hwalked fun _ _ => Iff.rfl).mp hholds with hnode | hgap
    · exact .inl hnode
    · -- a window shows no line that is covered
      obtain ⟨c, hc, hheld⟩ := hgap
      have huncovered := (not_covered_of_mem_gapWindows hc).2 i hheld.1
      exact absurd (hi.symm.trans huncovered) (by decide)
  · rcases (exists_chunksOfTree_iff hwalked fun _ _ => Iff.rfl).mp hdocuments with hnode | hgap
    · exact .inr hnode
    · obtain ⟨c, hc, d, hdoc, -⟩ := hgap
      rw [(not_covered_of_mem_gapWindows hc).1] at hdoc
      exact absurd hdoc (by simp)
  · exact absurd (hi.symm.trans (huncovered i hfirst hlast)) (by decide)

theorem edgesKept_of_losesNoCode (h : LosesNoCode isAlphanumeric ctx) : EdgesKept ctx := by
  intro cut hcut i line hi hline hne hcovers _
  have hcovered := (isCovered_iff hline hi).mpr ⟨cut, hcut, hcovers⟩
  rcases kept_of_covered hcovered (h i line hi hline hne) with ⟨c, hc, hholds⟩ | ⟨c, hc, hdoc⟩
  · obtain ⟨other, hother, hmem⟩ := mem_walked_chunks.mp hc
    exact ⟨other, hother, .inl ((Cut.exists_holds_iff hne).mp ⟨c, hmem, hholds⟩)⟩
  · obtain ⟨other, hother, hmem⟩ := mem_walked_chunks.mp hc
    exact ⟨other, hother, .inr ⟨c, hmem, hdoc⟩⟩

theorem accounted_of_no_node (hwalked : ctx.walked.chunks = []) (hi : 1 ≤ i)
    (hline : ctx.lines[i - 1]? = some line) (hne : trim line ≠ []) :
    Accounted isAlphanumeric ctx i line := by
  have htree : chunksOfTree isAlphanumeric ctx
      = slidingWindow ctx.cap (String.ofList ctx.sx.source) none none none := if_pos hwalked
  refine .inl ?_
  rw [htree, exists_holds_slidingWindow_iff hi hne, String.toList_ofList]
  exact ⟨line, hline, List.infix_refl _⟩

theorem losesNoCode_of_edgesKept (h : EdgesKept ctx) : LosesNoCode isAlphanumeric ctx := by
  intro i line hi hline hne
  by_cases hwalked : ctx.walked.chunks = []
  · exact accounted_of_no_node hwalked hi hline hne
  cases hcovered : isCovered ctx.lines ctx.walked.chunks i with
  | true =>
    obtain ⟨cut, hcut, hcovers⟩ := (isCovered_iff hline hi).mp hcovered
    have hkept : ∃ other ∈ cutsOf ctx, other.Holds ctx i line ∨ other.Documents ctx line := by
      by_cases hedge : cut.AtEdge ctx i
      · exact h cut hcut i line hi hline hne hcovers hedge
      · exact ⟨cut, hcut, .inl (cut.holds_of_inside hi hline hedge)⟩
    obtain ⟨other, hother, hholds | ⟨c, hc, hdoc⟩⟩ := hkept
    · obtain ⟨c, hc, hheld⟩ := (Cut.exists_holds_iff hne).mpr hholds
      exact .inl ((exists_chunksOfTree_iff hwalked fun _ _ => Iff.rfl).mpr
        (.inl ⟨c, mem_walked_chunks.mpr ⟨other, hother, hc⟩, hheld⟩))
    · exact .inr (.inl ((exists_chunksOfTree_iff hwalked fun _ _ => Iff.rfl).mpr
        (.inl ⟨c, mem_walked_chunks.mpr ⟨other, hother, hc⟩, hdoc⟩)))
  | false =>
    rcases @exists_holds_gapWindows isAlphanumeric _ ctx.cap _ ctx.language _ i hi line hline hne
      hcovered with ⟨c, hc, hheld⟩ | ⟨g, hg, hfirst, hlast, hshort⟩
    · exact .inl ((exists_chunksOfTree_iff hwalked fun _ _ => Iff.rfl).mpr (.inr ⟨c, hc, hheld⟩))
    · exact .inr (.inr ⟨g, hg, hfirst, hlast, fun n hn hn' => gap_uncovered hg hn hn',
        gap_oneContainer hg, hshort⟩)

/-- No code is lost just when what nodes cover at their edges is kept. -/
theorem losesNoCode_iff (isAlphanumeric : Char → Bool) (ctx : WalkCtx Node) :
    LosesNoCode isAlphanumeric ctx ↔ EdgesKept ctx :=
  ⟨edgesKept_of_losesNoCode, losesNoCode_of_edgesKept⟩

end Tree

/-! ### An attribute under a comment -/

/-- A documented struct with an attribute: the file, its comment, its attribute, the struct and
its name. -/
def derivedSource : List Char :=
  "/// Doc\n#[derive(Debug, Clone)]\nstruct S \x7b a: u8 \x7d".toList

def derivedTree : Syntax (Fin 5) where
  source := derivedSource
  root := 0
  kind n :=
    ["source_file", "line_comment", "attribute_item", "struct_item", "type_identifier"].get n
  isNamed _ := true
  isExtra n := n = 1
  start n := [0, 0, 8, 32, 39].get n
  finish n := [50, 8, 31, 50, 40].get n
  children n := [[1, 2, 3], [], [], [4], []].get n
  parent n := [none, some 0, some 0, some 0, some 3].get n
  prevSiblings n := [[], [], [1], [2, 1], []].get n
  nextSiblings n := [[], [2, 3], [3], [], []].get n
  childByFieldName n field := if n = 3 ∧ field = "name" then some 4 else none

def derivedCtx : WalkCtx (Fin 5) :=
  ⟨MAX_CHUNK_TOKENS, derivedTree, "rust", nodeSpecs derivedTree "rust"⟩

theorem walked_derived : derivedCtx.walked.chunks
    = [⟨.struct, "S", 3, 3, "struct S \x7b a: u8 \x7d", "/// Doc\n", none, none, false⟩] := by
  decide +kernel

/-- The attribute is taken for the docstring's line, and nothing has its text. -/
theorem not_losesNoCode_of_attribute : ¬ LosesNoCode (fun c => c.isAlphanum) derivedCtx := by
  intro h
  have hline : derivedCtx.lines[2 - 1]? = some "#[derive(Debug, Clone)]".toList := by decide +kernel
  have hcovered : isCovered derivedCtx.lines derivedCtx.walked.chunks 2 = true := by
    rw [walked_derived]
    decide +kernel
  rcases kept_of_covered hcovered (h 2 _ (by decide) hline (by decide +kernel)) with
    ⟨c, hc, hholds⟩ | ⟨c, hc, d, hdoc, hinfix⟩
  · rw [walked_derived, List.mem_singleton] at hc
    subst hc
    exact absurd hholds.1.1 (by decide)
  · rw [walked_derived, List.mem_singleton] at hc
    subst hc
    obtain rfl := Option.some.inj hdoc
    revert hinfix
    decide +kernel

end Index
end Inkentry
