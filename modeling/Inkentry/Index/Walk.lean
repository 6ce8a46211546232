/-
  Inkentry.Index.Walk

  The walk over a syntax tree: which chunks its nodes become, which containers
  are too large to keep whole, and which lines are test code.

  A node that is too large is cut into windows, and a container only if nothing
  in it gives a chunk.  The chunks of a walk are those of the nodes that it cuts
  (`chunks_walkNode`).
-/

import Inkentry.Index.Syntax
import Inkentry.Index.Chunker
import Inkentry.Tokens

namespace Inkentry
namespace Index

open TextLines

def MAX_WALK_DEPTH : ℕ := 512

def MAX_CHUNKS : ℕ := 100000

/-- What a walk is given besides the node: the language and the kinds of its chunks. -/
structure WalkCtx (Node : Type) where
  cap : ℕ
  sx : Syntax Node
  language : String
  specs : List (NodeSpec Node)

/-- A container whose own chunk was suppressed, with the identity the chunk would have had. -/
structure SuppressedScope where
  name : String
  parentScope : Option String
  startLine : ℕ
  endLine : ℕ
  declLine : ℕ
  deriving DecidableEq, Repr

def SuppressedScope.contains (scope other : SuppressedScope) : Bool :=
  scope.startLine ≤ other.startLine && other.endLine ≤ scope.endLine

/-- What a walk has collected. -/
structure Walked where
  chunks : List Chunk
  scopes : List SuppressedScope
  testSpans : List (ℕ × ℕ)
  deriving DecidableEq, Repr

def Walked.empty : Walked := ⟨[], [], []⟩

variable {Node : Type} (ctx : WalkCtx Node)

/-- The kind of chunk that a node becomes. -/
def WalkCtx.specOf (node : Node) : Option (NodeSpec Node) :=
  ctx.specs.find? fun spec =>
    spec.kind = ctx.sx.kind node && spec.guard.all fun guard => guard node

def WalkCtx.nameOf (spec : NodeSpec Node) (node : Node) : Option String :=
  (extractName ctx.sx ctx.language spec node).map String.ofList

def WalkCtx.contentOf (node : Node) : String := String.ofList (ctx.sx.text node)

def WalkCtx.docstringOf (node : Node) : Option String :=
  (precedingComment ctx.sx node).map fun comment => String.ofList (ctx.sx.text comment)

/-- The scope of what lies in a node. -/
def scopeLabel (spec : NodeSpec Node) (name parentScope : Option String) : Option String :=
  match spec.chunkKind with
  | .impl | .classDef => name.map fun n => spec.kind ++ " " ++ n
  | _ => parentScope

def isContainer (spec : NodeSpec Node) : Bool :=
  match spec.chunkKind with
  | .module | .impl | .classDef | .trait | .interface => true
  | _ => false

/-- The windows of a node's text, on the lines of the source. -/
def windowed (node : Node) (name docstring parentScope : Option String) : List Chunk :=
  (slidingWindow ctx.cap (ctx.contentOf node) name docstring parentScope).map fun sub =>
    { sub with
      startLine := sub.startLine + ctx.sx.startRow node
      endLine := sub.endLine + ctx.sx.startRow node }

def pushWindowed (node : Node) (name docstring parentScope : Option String) (out : Walked) :
    Walked :=
  { out with chunks := out.chunks ++ windowed ctx node name docstring parentScope }

/-- A node that is kept whole. -/
def wholeNode (spec : NodeSpec Node) (node : Node) (name docstring parentScope : Option String) :
    Chunk where
  kind := spec.chunkKind
  name := name
  startLine := ctx.sx.startRow node + 1
  endLine := ctx.sx.endRow node + 1
  content := ctx.contentOf node
  docstring := docstring
  parentScope := parentScope
  summary := none
  inTestCode := false

/-- A container that is not kept whole; one without a name leaves no scope. -/
def suppress (node : Node) (name parentScope : Option String) (out : Walked) : Walked :=
  match name with
  | none => out
  | some name =>
    let header := match precedingComment ctx.sx node with
      | some comment => commentBlockStart ctx.sx comment
      | none => docAnchor ctx.sx node
    { out with
      scopes := out.scopes ++
        [⟨name, parentScope, ctx.sx.startRow header + 1, ctx.sx.endRow node + 1,
          ctx.sx.startRow node + 1⟩] }

/-- The lines of test code that a node marks. -/
def markTests (node : Node) (out : Walked) : Walked :=
  if ctx.language = "rust" then
    { out with testSpans := out.testSpans ++ (rustTestSpan ctx.sx node).toList }
  else out

/-- The walk, down to a depth. -/
def walkNode : ℕ → Node → Option String → Walked → Walked
  | 0, _, _, out => out
  | depth + 1, node, parentScope, out =>
    if MAX_CHUNKS ≤ out.chunks.length then out
    else
      let walkChildren (scope : Option String) (out : Walked) : Walked :=
        (ctx.sx.children node).foldl (fun out child => walkNode depth child scope out) out
      let out := markTests ctx node out
      match ctx.specOf node with
      | none => walkChildren parentScope out
      | some spec =>
        if (ctx.sx.namedChildren node).length = 0 then walkChildren parentScope out
        else
          let name := ctx.nameOf spec node
          let docstring := ctx.docstringOf node
          let scope := scopeLabel spec name parentScope
          if estimateTokens (ctx.contentOf node) > ctx.cap then
            if isContainer spec then
              let out := suppress ctx node name parentScope out
              let walked := walkChildren scope out
              if walked.chunks.length = out.chunks.length then
                pushWindowed ctx node name docstring parentScope walked
              else walked
            else
              walkChildren scope (pushWindowed ctx node name docstring parentScope out)
          else
            walkChildren scope
              { out with chunks := out.chunks ++ [wholeNode ctx spec node name docstring
                parentScope] }

/-! ## Where the chunks of a walk come from -/

/-- A node that a walk makes chunks of, under the identity that they get. -/
structure Cut (Node : Type) where
  node : Node
  spec : NodeSpec Node
  name : Option String
  parentScope : Option String

/-- The chunks of a node: windows, if it is too large. -/
def Cut.chunks (cut : Cut Node) : List Chunk :=
  if estimateTokens (ctx.contentOf cut.node) > ctx.cap then
    windowed ctx cut.node cut.name (ctx.docstringOf cut.node) cut.parentScope
  else
    [wholeNode ctx cut.spec cut.node cut.name (ctx.docstringOf cut.node) cut.parentScope]

def chunksOfCuts (cuts : List (Cut Node)) : List Chunk := cuts.flatMap (Cut.chunks ctx)

/-- The walk once more, with the nodes in place of their chunks. -/
def walkCuts : ℕ → Node → Option String → List (Cut Node) → List (Cut Node)
  | 0, _, _, cuts => cuts
  | depth + 1, node, parentScope, cuts =>
    if MAX_CHUNKS ≤ (chunksOfCuts ctx cuts).length then cuts
    else
      let walkChildren (scope : Option String) (cuts : List (Cut Node)) : List (Cut Node) :=
        (ctx.sx.children node).foldl (fun cuts child => walkCuts depth child scope cuts) cuts
      match ctx.specOf node with
      | none => walkChildren parentScope cuts
      | some spec =>
        if (ctx.sx.namedChildren node).length = 0 then walkChildren parentScope cuts
        else
          let name := ctx.nameOf spec node
          let scope := scopeLabel spec name parentScope
          let cut : Cut Node := ⟨node, spec, name, parentScope⟩
          if estimateTokens (ctx.contentOf node) > ctx.cap ∧ isContainer spec then
            let walked := walkChildren scope cuts
            if (chunksOfCuts ctx walked).length = (chunksOfCuts ctx cuts).length then
              walked ++ [cut]
            else walked
          else walkChildren scope (cuts ++ [cut])

variable {ctx}
variable {cuts : List (Cut Node)}

theorem chunksOfCuts_concat (cuts : List (Cut Node)) (cut : Cut Node) :
    chunksOfCuts ctx (cuts ++ [cut]) = chunksOfCuts ctx cuts ++ cut.chunks ctx := by
  rw [chunksOfCuts, List.flatMap_append, List.flatMap_singleton, chunksOfCuts]

theorem chunks_markTests (node : Node) (out : Walked) :
    (markTests ctx node out).chunks = out.chunks := by
  rw [markTests]
  split <;> rfl

theorem chunks_suppress (node : Node) (name parentScope : Option String) (out : Walked) :
    (suppress ctx node name parentScope out).chunks = out.chunks := by
  cases name <;> rfl

theorem chunks_pushWindowed (node : Node) (name docstring parentScope : Option String)
    (out : Walked) : (pushWindowed ctx node name docstring parentScope out).chunks
      = out.chunks ++ windowed ctx node name docstring parentScope := rfl

/-- Two walks of some nodes in turn come to the same if they do at each. -/
theorem chunks_foldl {walk : Walked → Node → Walked}
    {walk' : List (Cut Node) → Node → List (Cut Node)}
    (hstep : ∀ out cuts child, out.chunks = chunksOfCuts ctx cuts → (walk out child).chunks = chunksOfCuts ctx (walk' cuts child))
    (children : List Node) {out : Walked} (h : out.chunks = chunksOfCuts ctx cuts) :
    (children.foldl walk out).chunks = chunksOfCuts ctx (children.foldl walk' cuts) := by
  induction children generalizing out cuts with
  | nil => exact h
  | cons child children ih => exact ih (hstep out cuts child h)

theorem chunks_walkNode (depth : ℕ) (node : Node) (parentScope : Option String) {out : Walked}
    (h : out.chunks = chunksOfCuts ctx cuts) :
    (walkNode ctx depth node parentScope out).chunks
      = chunksOfCuts ctx (walkCuts ctx depth node parentScope cuts) := by
  induction depth generalizing node parentScope out cuts with
  | zero => exact h
  | succ depth ih =>
    have hchildren : ∀ (scope : Option String) {out : Walked} {cuts : List (Cut Node)},
        out.chunks = chunksOfCuts ctx cuts →
        ((ctx.sx.children node).foldl (fun out child => walkNode ctx depth child scope out)
            out).chunks
          = chunksOfCuts ctx ((ctx.sx.children node).foldl
            (fun cuts child => walkCuts ctx depth child scope cuts) cuts) :=
      fun scope => chunks_foldl (fun out cuts child hout => ih child scope hout) _
    rw [walkNode, walkCuts, ← h]
    split
    case isTrue => exact h
    case isFalse =>
      -- a test attribute marks lines and cuts nothing
      have hmarked : (markTests ctx node out).chunks = chunksOfCuts ctx cuts := by
        rw [chunks_markTests, h]
      generalize markTests ctx node out = marked at hmarked ⊢
      cases hspec : ctx.specOf node with
      | none => exact hchildren parentScope hmarked
      | some spec =>
        simp only
        by_cases hleaf : (ctx.sx.namedChildren node).length = 0
        · rw [if_pos hleaf, if_pos hleaf]
          exact hchildren parentScope hmarked
        rw [if_neg hleaf, if_neg hleaf]
        by_cases hlarge : estimateTokens (ctx.contentOf node) > ctx.cap
        · rw [if_pos hlarge]
          by_cases hcontainer : isContainer spec = true
          · -- a container: its children, and windows only if they give no chunk
            have hboth : estimateTokens (ctx.contentOf node) > ctx.cap ∧ isContainer spec = true :=
              ⟨hlarge, hcontainer⟩
            rw [if_pos hcontainer, if_pos hboth]
            have hsuppress : (suppress ctx node (ctx.nameOf spec node) parentScope marked).chunks
                = chunksOfCuts ctx cuts := by
              rw [chunks_suppress, hmarked]
            have hwalked := hchildren (scopeLabel spec (ctx.nameOf spec node) parentScope) hsuppress
            rw [hwalked, hsuppress, h]
            split
            case isTrue =>
              rw [chunks_pushWindowed, chunksOfCuts_concat, Cut.chunks, if_pos hlarge, hwalked]
            case isFalse => exact hwalked
          · -- too large and no container: windows, and the children all the same
            rw [if_neg hcontainer, if_neg fun hboth => hcontainer hboth.2]
            refine hchildren _ ?_
            rw [chunks_pushWindowed, chunksOfCuts_concat, Cut.chunks, if_pos hlarge, hmarked]
        · rw [if_neg hlarge, if_neg fun hboth => hlarge hboth.1]
          refine hchildren _ ?_
          rw [chunksOfCuts_concat, Cut.chunks, if_neg hlarge, hmarked]

/-- The nodes that are cut of a whole tree. -/
def cutsOf (ctx : WalkCtx Node) : List (Cut Node) :=
  walkCuts ctx MAX_WALK_DEPTH ctx.sx.root none []

theorem chunks_walk :
    (walkNode ctx MAX_WALK_DEPTH ctx.sx.root none .empty).chunks = chunksOfCuts ctx (cutsOf ctx) :=
  chunks_walkNode MAX_WALK_DEPTH ctx.sx.root none rfl

end Index
end Inkentry
