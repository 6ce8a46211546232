/-
  Inkentry.Index.Phases

  The phases of an index run after parsing, and the run.  Ranks and structural
  summaries come before the first embedding; then the chunks in the queue are
  embedded, batch by batch; then tier-3 selection gives unnamed chunks their
  summary and re-embeds them.

  A full run may leave the embedding or the selection to a detached process,
  which is a call of its own.  What the embedder does in a call (which chunks
  it embeds in which batches, how far the selection gets) is `Served`.
-/

import Inkentry.Lib.SortedSet
import Inkentry.Index.Parse
import Mathlib.Data.String.Basic
import Mathlib.Data.Prod.Lex

namespace Inkentry
namespace Index

open Staged

variable {R V : Type}

/-! ## Graph ranks -/

/-- The stored name of a kind. -/
def EdgeKind.text : EdgeKind → String
  | .imports => "imports"
  | .calls => "calls"
  | .extends => "extends"
  | .implements => "implements"
  | .mentions => "mentions"

/-- Source file, source name, target name and kind of an edge with a source name. -/
def Edge.group (e : Edge) : Option (String ×ₗ String ×ₗ String ×ₗ String) :=
  if e.kind = .mentions then none
  else e.sourceName.map fun source =>
    toLex (e.sourceFile, toLex (source, toLex (e.targetName, e.kind.text)))

/-- The graph's edges as pairs of names, one for each group. -/
def graphOf (edges : List Edge) : List (String × String) :=
  (SortedSet.sortDedup (edges.filterMap Edge.group)).map fun g =>
    ((ofLex (ofLex g).2).1, (ofLex (ofLex (ofLex g).2).2).1)

def Db.graphEdgesAll (db : Db R V) : List (String × String) := graphOf db.edges

/-- The score of a chunk's name. -/
def scoreOf (ix : Indexer R V) (graph : List (String × String)) (name : Option String) : Option R :=
  name.bind (ix.computePagerank graph)

/-- Named chunks whose name is in the graph get its score; without edges no rank changes. -/
def graphRanks (ix : Indexer R V) : Stage R V := fun db =>
  if db.graphEdgesAll.isEmpty then []
  else
    let updates := db.chunks.filterMap fun c =>
      (scoreOf ix db.graphEdgesAll c.name).map fun score => (c.id, score)
    if updates.isEmpty then [] else [.updateGraphRanks updates]

/-! ## Structural summaries -/

/-- Marks a summary as composed, so that it is not asked for again. -/
def SUPPRESSED_SUMMARY : String := ""

def UNREFINABLE_SUMMARY : String := ""

/-- Target names of the calls of a symbol. -/
def Db.calleesForSymbol (db : Db R V) (name : String) : List String :=
  (SortedSet.sortDedup ((db.edges.filter fun e =>
    e.sourceName == some name && e.kind == .calls).map fun e =>
      (toLex (e.targetName, e.sourceFile) : String ×ₗ String))).map fun g => (ofLex g).1

/-- A summary that is empty or holds a secret is suppressed. -/
def withoutSecret (ix : Indexer R V) (summary : String) : String :=
  if summary.isEmpty || ix.containsSecret summary then SUPPRESSED_SUMMARY else summary

/-- Every named chunk without a summary gets one. -/
def structuralSummaries (ix : Indexer R V) : Stage R V := fun db =>
  (db.chunks.filter fun c => c.summary.isNone).filterMap fun c =>
    c.name.map fun name =>
      .updateChunkSummary c.id (withoutSecret ix
        (ix.composeStructuralSummary name (docstringOf c.metadata) (db.calleesForSymbol name)
          c.content))

/-! ## Embedding -/

/-- The embed queue: chunks without a vector or with one to be made again, and their texts. -/
def Db.missingEmbeddings (db : Db R V) : List (ℕ × String) :=
  (db.chunks.filter fun c => !c.textOnly && (c.vector.isNone || c.embedPending)).map fun c =>
    (c.id, c.embeddingText)

/-- The queue is read once; each batch is a transaction. -/
def embedPhase (ix : Indexer R V) (batches : List (List ℕ)) : Stage R V := fun db =>
  batches.map fun ids => .insertEmbeddings
    ((db.missingEmbeddings.filter (·.1 ∈ ids)).map fun row => (row.1, ix.embed row.2))

/-! ## Tier-3 selection -/

def SUMMARY_TOKEN_CAP : ℕ := 96

/-- Units are taken in order until one would pass the cap. -/
def selectPrefix (estimateTokens : String → ℕ) (units : List String) (cap : ℕ) :
    List ℕ → String → String
  | [], composed => composed
  | idx :: order, composed =>
    let unit := units.getD idx ""
    let candidate := if composed.isEmpty then unit else composed ++ " " ++ unit
    if cap < estimateTokens candidate then composed
    else selectPrefix estimateTokens units cap order candidate

/-- Unnamed chunks with a vector and no summary. -/
def Db.titlelessChunks (db : Db R V) : List (ChunkRow R V) :=
  db.chunks.filter fun c => c.name.isNone && c.summary.isNone && !c.textOnly && c.vector.isSome

/-- The write for one candidate, whose vector is the centroid.  Only a selected summary flags
    the chunk for another embedding. -/
def selectSummary (ix : Indexer R V) (c : ChunkRow R V) (centroid : V) : Write R V :=
  let units := ix.splitIntoUnits c.content (if c.kind = .section then .section else .verbatim)
  if units.length < 2 then .updateChunkSummary c.id UNREFINABLE_SUMMARY
  else
    let summary := selectPrefix ix.estimateTokens units SUMMARY_TOKEN_CAP
      (ix.mmrRank (units.map ix.embed) centroid) ""
    if summary.isEmpty || ix.containsSecret summary then .updateChunkSummary c.id SUPPRESSED_SUMMARY
    else .setSummaryAndMarkPending c.id summary

/-- The writes for all candidates. -/
def tier3Selection (ix : Indexer R V) (db : Db R V) : List (Write R V) :=
  db.titlelessChunks.filterMap fun c => c.vector.map (selectSummary ix c)

/-- A chunk was given a summary by selection. -/
def Write.refines : Write R V → Bool
  | .setSummaryAndMarkPending _ _ => true
  | _ => false

/-! ## Runs -/

/-- What the embedder did in a call. -/
structure Served where
  batches : List (List ℕ)
  /-- How many candidates the selection got through before a request failed. -/
  selected : ℕ
  /-- The batches of chunks embedded after the selection. -/
  rebatches : List (List ℕ)

variable [Zero R] (ix : Indexer R V)

/-- A part of a run that is only run in some states. -/
def onlyIf (cond : Db R V → Bool) (stages : List (Stage R V)) : Stage R V := fun db =>
  if cond db then writes (Db.apply ix) db stages else []

/-- Selection, and another embedding when it went through and refined a chunk. -/
def postEmbed (noSummaries : Bool) (served : Served) : Stage R V := fun db =>
  if noSummaries then []
  else
    let selection := tier3Selection ix db
    let again := decide (selection.length ≤ served.selected) && selection.any Write.refines
    writes (Db.apply ix) db
      [fun _ => selection.take served.selected,
        onlyIf ix (fun _ => again) [embedPhase ix served.rebatches]]

/-- One call of the command.  A detached call of an index run is a call of its own. -/
inductive Call where
  /-- With `inline` false the run ends before the selection, or hands it to a detached call. -/
  | full (force noSummaries : Bool) (tree : Tree) (inline : Bool) (served : Served)
  | embedPhases (noSummaries : Bool) (served : Served)
  | backgroundPhases (noSummaries : Bool) (served : Served)

/-- The phases after parsing. -/
def laterPhases (noSummaries inline : Bool) (served : Served) : List (Stage R V) :=
  [graphRanks ix] ++ (if noSummaries then [] else [structuralSummaries ix])
    ++ [onlyIf ix (fun db => !db.missingEmbeddings.isEmpty)
      ([embedPhase ix served.batches]
        ++ if inline then [postEmbed ix noSummaries served] else [])]

/-- The stages of a call, on an index that owes a re-extraction or not. -/
def Call.stages (owed : Bool) : Call → List (Stage R V)
  | .full force noSummaries tree inline served =>
    parsePhase ix force owed tree ++ laterPhases ix noSummaries inline served
  | .embedPhases noSummaries served =>
    [embedPhase ix served.batches, postEmbed ix noSummaries served]
  | .backgroundPhases noSummaries served => [postEmbed ix noSummaries served]

/-- The writes of an uninterrupted call. -/
def Call.writes (db : Db R V) (call : Call) : List (Write R V) :=
  Staged.writes (Db.apply ix) db (call.stages ix db.reextractOwed)

/-- The index after an uninterrupted call. -/
def Call.run (db : Db R V) (call : Call) : Db R V := Runs.run (Db.apply ix) db (call.writes ix db)

/-- The index after a call killed after its first `k` writes. -/
def Call.killed (k : ℕ) (db : Db R V) (call : Call) : Db R V :=
  Runs.run (Db.apply ix) db ((call.writes ix db).take k)

end Index
end Inkentry
