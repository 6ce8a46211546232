/-
  Inkentry.Index.Gaps

  The code outside the nodes that became chunks: every stretch of lines that no
  chunk covers is cut into windows of its own, within one container.
-/

import Inkentry.Index.Walk
import Inkentry.Index.RubyBody
import Inkentry.Lib.OrderLimit

namespace Inkentry
namespace Index

open TextLines

/-! ## The code -/

/-- A gap with fewer letters and digits than this is left out. -/
def MIN_GAP_WORD_CHARS : ℕ := 16

variable (isAlphanumeric : Char → Bool)

/-- The scope that a line lies in, the last one of the walk, by its place among them. -/
def ownerOf (lines : List (List Char)) (scopes : List SuppressedScope) (n : ℕ) : Option ℕ :=
  scopes.zipIdx.foldl (fun owner scope =>
    if scope.1.startLine ≤ n ∧ n ≤ min scope.1.endLine lines.length then some scope.2 else owner)
    none

/-- The first line that a chunk covers: as many above it as its docstring has. -/
def coveredFrom (c : Chunk) : ℕ :=
  max (c.startLine - c.docstring.elim 0 fun d => (TextLines.lines d.toList).length) 1

def isCovered (lines : List (List Char)) (chunks : List Chunk) (n : ℕ) : Bool :=
  chunks.any fun c => coveredFrom c ≤ n && n ≤ min c.endLine lines.length

/-- A line as the scan for gaps sees it. -/
structure GapLine where
  number : ℕ
  text : List Char
  covered : Bool
  owner : Option ℕ
  deriving DecidableEq, Repr

def gapLines (lines : List (List Char)) (scopes : List SuppressedScope) (chunks : List Chunk) :
    List GapLine :=
  lines.zipIdx.map fun line =>
    ⟨line.2 + 1, line.1, isCovered lines chunks (line.2 + 1), ownerOf lines scopes (line.2 + 1)⟩

/-- A stretch of lines that no chunk covers, and the scope it ends in. -/
structure Stretch where
  first : ℕ
  last : ℕ
  scope : Option ℕ
  deriving DecidableEq, Repr

/-- A container's bare header stays with the nested container that it opens. -/
def opensNested (scopes : List SuppressedScope) (last : ℕ) : Option ℕ → Option ℕ → Bool
  | some outer, some inner =>
    match scopes[outer]?, scopes[inner]? with
    | some outer, some inner => last ≤ outer.declLine && outer.contains inner
    | _, _ => false
  | _, _ => false

/-- The rest of a stretch: the scope and the last line it comes to, and the lines after it. -/
def stretchFrom (scopes : List SuppressedScope) :
    Option ℕ → ℕ → List GapLine → Option ℕ × ℕ × List GapLine
  | here, last, [] => (here, last, [])
  | here, last, line :: rest =>
    if line.covered then (here, last, line :: rest)
    else if line.owner ≠ here ∧ opensNested scopes last here line.owner = false then
      (here, last, line :: rest)
    else
      stretchFrom scopes line.owner (if trim line.text = [] then last else line.number) rest

/-- The stretches of some lines, by as many turns as there are lines. -/
def stretches (scopes : List SuppressedScope) : ℕ → List GapLine → List Stretch
  | 0, _ => []
  | _ + 1, [] => []
  | turns + 1, line :: rest =>
    if line.covered ∨ trim line.text = [] then stretches scopes turns rest
    else
      let (scope, last, later) := stretchFrom scopes line.owner line.number rest
      ⟨line.number, last, scope⟩ :: stretches scopes turns later

/-- The runs that a stretch is cut into: those of a Ruby class, or the whole of it. -/
def segmentsOf (language : String) (lines : List (List Char)) (container : Option SuppressedScope)
    (g : Stretch) : List RubyBody.Run :=
  match container with
  | some c =>
    let declared := RubyBody.trimStart (RubyBody.lineAt lines c.declLine)
    if language = "ruby" ∧ RubyBody.startsWith declared "class " then
      let decl := if g.first ≤ c.declLine ∧ c.declLine ≤ g.last then some c.declLine else none
      RubyBody.runs isAlphanumeric lines g.first g.last decl MIN_GAP_WORD_CHARS
    else [⟨g.first, g.last, none⟩]
  | none => [⟨g.first, g.last, none⟩]

/-- What a segment is named for: its kind of declaration, or the declaration that it holds. -/
def segmentName (container : Option SuppressedScope) (r : RubyBody.Run) : Option String :=
  match container, r.kind with
  | some c, some family => some (c.name ++ " " ++ family)
  | some c, none => if r.first ≤ c.declLine ∧ c.declLine ≤ r.last then some c.name else none
  | none, _ => none

/-- The windows of a segment, on the lines of the source. -/
def segmentWindows (cap : ℕ) (lines : List (List Char)) (container : Option SuppressedScope)
    (r : RubyBody.Run) : List Chunk :=
  let name := segmentName container r
  let parent := if name.isSome then container.bind (·.parentScope) else none
  (slidingWindow cap (joinLines (linesBetween lines (r.first - 1) r.last)) name none parent).map
    fun window =>
      { window with
        startLine := window.startLine + (r.first - 1)
        endLine := window.endLine + (r.first - 1) }

/-- The letters and digits of a stretch. -/
def stretchWords (lines : List (List Char)) (g : Stretch) : ℕ :=
  (joinLines (linesBetween lines (g.first - 1) g.last)).toList.countP isAlphanumeric

def windowsOfStretch (cap : ℕ) (language : String) (lines : List (List Char))
    (scopes : List SuppressedScope) (g : Stretch) : List Chunk :=
  if stretchWords isAlphanumeric lines g < MIN_GAP_WORD_CHARS then []
  else
    let container := g.scope.bind fun i => scopes[i]?
    (segmentsOf isAlphanumeric language lines container g).flatMap
      (segmentWindows cap lines container)

/-- The windows of everything that no chunk covers. -/
def gapWindows (cap : ℕ) (source : List Char) (language : String) (scopes : List SuppressedScope)
    (chunks : List Chunk) : List Chunk :=
  let lines := TextLines.lines source
  (stretches scopes lines.length (gapLines lines scopes chunks)).flatMap
    (windowsOfStretch isAlphanumeric cap language lines scopes)

def fillGaps (cap : ℕ) (source : List Char) (language : String) (scopes : List SuppressedScope)
    (chunks : List Chunk) : List Chunk :=
  let gaps := gapWindows isAlphanumeric cap source language scopes chunks
  if gaps = [] then chunks else OrderLimit.sortBy Chunk.startLine (chunks ++ gaps)

/-- What a parsed tree is cut into. -/
def chunksOfTree {Node : Type} (ctx : WalkCtx Node) : List Chunk :=
  let walked := walkNode ctx MAX_WALK_DEPTH ctx.sx.root none .empty
  if walked.chunks = [] then slidingWindow ctx.cap (String.ofList ctx.sx.source) none none none
  else
    (fillGaps isAlphanumeric ctx.cap ctx.sx.source ctx.language walked.scopes walked.chunks).map
      fun chunk =>
        { chunk with
          inTestCode := walked.testSpans.any fun span =>
            span.1 ≤ chunk.startLine && chunk.endLine ≤ span.2 }

end Index
end Inkentry
