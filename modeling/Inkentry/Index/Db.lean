/-
  Inkentry.Index.Db

  The index database: file rows, chunk rows and graph edges.  A chunk row
  carries the path of its file in place of the file's id, and its vector in
  place of the row of `embeddings` keyed by its id: ids are never used twice,
  so a vector left over by a deleted chunk meets no other.

  `Write` lists the statements and transactions an index run makes, each a
  commit of its own, and `Db.apply` carries one out.
-/

import Inkentry.Index.Chunk
import Inkentry.Lib.Staged

namespace Inkentry
namespace Index

variable {R V : Type}

/-! ## Rows -/

structure FileRow where
  path : String
  language : String
  hash : String
  deriving DecidableEq, Repr

/-- The columns of a chunk that the parsers decide. -/
structure StoredChunk where
  kind : ChunkKind
  name : Option String
  startLine : ℕ
  endLine : ℕ
  content : String
  metadata : Option Metadata
  deriving DecidableEq, Repr

/-- The columns a chunk is stored with. -/
def storedChunk (c : Chunk) : StoredChunk where
  kind := c.kind
  name := c.name
  startLine := c.startLine
  endLine := c.endLine
  content := c.content
  metadata := some (chunkMetadata c)

structure ChunkRow (R V : Type) extends StoredChunk where
  id : ℕ
  path : String
  graphRank : R
  summary : Option String
  embedPending : Bool
  textOnly : Bool
  vector : Option V
  deriving DecidableEq, Repr

/-- The embedding text of a row. -/
def ChunkRow.embeddingText (c : ChunkRow R V) : String :=
  reconstructEmbeddingText c.name c.metadata c.summary c.content

/-- Paths of files and ids of chunks are keys. -/
structure Db (R V : Type) where
  files : List FileRow
  chunks : List (ChunkRow R V)
  nextId : ℕ
  edges : List Edge
  /-- The schema step that added call targets owes every file a re-extraction. -/
  reextractOwed : Bool
  paths_nodup : (files.map (·.path)).Nodup
  ids_nodup : (chunks.map (·.id)).Nodup
  ids_lt : ∀ c ∈ chunks, c.id < nextId

/-- An index no run has written to. -/
def Db.empty : Db R V where
  files := []
  chunks := []
  nextId := 1
  edges := []
  reextractOwed := false
  paths_nodup := by simp
  ids_nodup := by simp
  ids_lt := by simp

namespace Db

/-! ## Queries -/

def fileRow (db : Db R V) (path : String) : Option FileRow := db.files.find? (·.path == path)

def fileHash (db : Db R V) (path : String) : Option String := (db.fileRow path).map (·.hash)

def allFilePaths (db : Db R V) : List String := db.files.map (·.path)

def chunksOf (db : Db R V) (path : String) : List (ChunkRow R V) :=
  db.chunks.filter (·.path == path)

def edgesOf (db : Db R V) (path : String) : List Edge := db.edges.filter (·.sourceFile == path)

def fileHasChunks (db : Db R V) (path : String) : Bool := !(db.chunksOf path).isEmpty

/-- `chunkedByTree` for a file's stored chunks. -/
def fileChunkedByTree (db : Db R V) (path : String) : Bool :=
  (db.chunksOf path).any fun c => c.kind != .verbatim || c.name.isSome

/-! ## Statements -/

/-- An update of chunk rows that keeps their ids. -/
def modifyChunks (db : Db R V) (f : ChunkRow R V → ChunkRow R V) (hf : ∀ c, (f c).id = c.id) :
    Db R V where
  files := db.files
  chunks := db.chunks.map f
  nextId := db.nextId
  edges := db.edges
  reextractOwed := db.reextractOwed
  paths_nodup := db.paths_nodup
  ids_nodup := by
    have hids : (db.chunks.map f).map (·.id) = db.chunks.map (·.id) := by simp [hf]
    rw [hids]
    exact db.ids_nodup
  ids_lt := by
    intro c hc
    obtain ⟨c', hc', rfl⟩ := List.mem_map.mp hc
    rw [hf]
    exact db.ids_lt c' hc'

/-- The file row is inserted, or updated where there is one. -/
def upsertFile (db : Db R V) (row : FileRow) : Db R V :=
  if h : row.path ∈ db.allFilePaths then
    { db with
      files := db.files.map fun f => if f.path = row.path then row else f
      paths_nodup := by
        have hpaths : (db.files.map fun f => if f.path = row.path then row else f).map (·.path)
            = db.files.map (·.path) := by
          rw [List.map_map]
          apply List.map_congr_left
          intro f _
          by_cases hf : f.path = row.path <;> simp [hf]
        rw [hpaths]
        exact db.paths_nodup }
  else
    { db with
      files := db.files ++ [row]
      paths_nodup := by
        rw [List.map_append, List.nodup_append]
        refine ⟨db.paths_nodup, by simp, ?_⟩
        intro a ha b hb hab
        rw [hab, List.mem_singleton.mp hb] at ha
        exact h ha }

def deleteChunksForFile (db : Db R V) (path : String) : Db R V :=
  { db with
    chunks := db.chunks.filter (·.path != path)
    ids_nodup := db.ids_nodup.sublist (List.filter_sublist.map _)
    ids_lt := fun c hc => db.ids_lt c (List.mem_of_mem_filter hc) }

/-- The row a chunk starts as. -/
def newRow [Zero R] (ix : Indexer R V) (file : FileRow) (id : ℕ) (c : StoredChunk) :
    ChunkRow R V where
  toStoredChunk := c
  id := id
  path := file.path
  graphRank := 0
  summary := none
  embedPending := false
  textOnly := isTextOnlyRow ix file.path file.language c.kind c.name c.metadata
  vector := none

/-- Without the file's row the statement fails. -/
def insertChunk [Zero R] (ix : Indexer R V) (db : Db R V) (path : String) (c : StoredChunk) :
    Db R V :=
  match db.fileRow path with
  | none => db
  | some file =>
    { db with
      chunks := db.chunks ++ [newRow ix file db.nextId c]
      nextId := db.nextId + 1
      ids_nodup := by
        rw [List.map_append, List.nodup_append]
        refine ⟨db.ids_nodup, by simp, ?_⟩
        intro i hi j hj
        obtain ⟨c', hc', rfl⟩ := List.mem_map.mp hi
        have hlt := db.ids_lt c' hc'
        have hj' : j = db.nextId := List.mem_singleton.mp hj
        omega
      ids_lt := by
        intro c' hc'
        rcases List.mem_append.mp hc' with h | h
        · have hlt := db.ids_lt c' h
          omega
        · rw [List.mem_singleton.mp h]
          show db.nextId < db.nextId + 1
          omega }

def deleteEdgesOf (db : Db R V) (path : String) : Db R V :=
  { db with edges := db.edges.filter (·.sourceFile != path) }

def insertEdge (db : Db R V) (e : Edge) : Db R V := { db with edges := db.edges ++ [e] }

def deleteFileRow (db : Db R V) (path : String) : Db R V :=
  { db with
    files := db.files.filter (·.path != path)
    paths_nodup := db.paths_nodup.sublist (List.filter_sublist.map _) }

def clearReextractOwed (db : Db R V) : Db R V := { db with reextractOwed := false }

end Db

/-! ## Updates of chunk rows -/

namespace ChunkRow

/-- The rows of `embeddings` of a file's chunks are deleted. -/
def forgetVector (c : ChunkRow R V) (path : String) : ChunkRow R V :=
  if c.path = path then { c with vector := none } else c

def setRank (c : ChunkRow R V) (rank : ℕ × R) : ChunkRow R V :=
  if c.id = rank.1 then { c with graphRank := rank.2 } else c

def setSummary (c : ChunkRow R V) (id : ℕ) (summary : String) : ChunkRow R V :=
  if c.id = id then { c with summary := some summary } else c

def setSummaryPending (c : ChunkRow R V) (id : ℕ) (summary : String) : ChunkRow R V :=
  if c.id = id then { c with summary := some summary, embedPending := true } else c

/-- The new vector is current: the row is no longer pending. -/
def setVector (c : ChunkRow R V) (embedding : ℕ × V) : ChunkRow R V :=
  if c.id = embedding.1 then { c with vector := some embedding.2, embedPending := false } else c

@[simp] theorem forgetVector_id (c : ChunkRow R V) (path : String) :
    (c.forgetVector path).id = c.id := by
  by_cases h : c.path = path <;> simp [forgetVector, h]

@[simp] theorem setRank_id (c : ChunkRow R V) (rank : ℕ × R) : (c.setRank rank).id = c.id := by
  by_cases h : c.id = rank.1 <;> simp [setRank, h]

@[simp] theorem setSummary_id (c : ChunkRow R V) (id : ℕ) (summary : String) :
    (c.setSummary id summary).id = c.id := by
  by_cases h : c.id = id <;> simp [setSummary, h]

@[simp] theorem setSummaryPending_id (c : ChunkRow R V) (id : ℕ) (summary : String) :
    (c.setSummaryPending id summary).id = c.id := by
  by_cases h : c.id = id <;> simp [setSummaryPending, h]

@[simp] theorem setVector_id (c : ChunkRow R V) (embedding : ℕ × V) :
    (c.setVector embedding).id = c.id := by
  by_cases h : c.id = embedding.1 <;> simp [setVector, h]

@[simp] theorem foldl_setRank_id (c : ChunkRow R V) (ranks : List (ℕ × R)) :
    (ranks.foldl setRank c).id = c.id :=
  Staged.run_keeps (P := fun c' : ChunkRow R V => c'.id = c.id) setRank
    (fun c' rank _ h => (setRank_id c' rank).trans h) rfl

@[simp] theorem foldl_setVector_id (c : ChunkRow R V) (rows : List (ℕ × V)) :
    (rows.foldl setVector c).id = c.id :=
  Staged.run_keeps (P := fun c' : ChunkRow R V => c'.id = c.id) setVector
    (fun c' row _ h => (setVector_id c' row).trans h) rfl

end ChunkRow

/-! ## Writes -/

/-- One commit of an index run. -/
inductive Write (R V : Type) where
  | upsertFile (row : FileRow)
  | deleteEmbeddingsForFile (path : String)
  | deleteChunksForFile (path : String)
  | insertChunk (path : String) (c : StoredChunk)
  | deleteEdgesOf (path : String)
  | insertEdge (e : Edge)
  | deleteFileRow (path : String)
  | clearReextractOwed
  | updateGraphRanks (ranks : List (ℕ × R))
  | updateChunkSummary (id : ℕ) (summary : String)
  | setSummaryAndMarkPending (id : ℕ) (summary : String)
  | insertEmbeddings (rows : List (ℕ × V))

/-- What a write does. -/
def Db.apply [Zero R] (ix : Indexer R V) (db : Db R V) : Write R V → Db R V
  | .upsertFile row => db.upsertFile row
  | .deleteEmbeddingsForFile path =>
    db.modifyChunks (fun c => c.forgetVector path) (fun c => by simp)
  | .deleteChunksForFile path => db.deleteChunksForFile path
  | .insertChunk path c => db.insertChunk ix path c
  | .deleteEdgesOf path => db.deleteEdgesOf path
  | .insertEdge e => db.insertEdge e
  | .deleteFileRow path => db.deleteFileRow path
  | .clearReextractOwed => db.clearReextractOwed
  | .updateGraphRanks ranks =>
    db.modifyChunks (fun c => ranks.foldl ChunkRow.setRank c) (fun c => by simp)
  | .updateChunkSummary id summary =>
    db.modifyChunks (fun c => c.setSummary id summary) (fun c => by simp)
  | .setSummaryAndMarkPending id summary =>
    db.modifyChunks (fun c => c.setSummaryPending id summary) (fun c => by simp)
  | .insertEmbeddings rows =>
    db.modifyChunks (fun c => rows.foldl ChunkRow.setVector c) (fun c => by simp)

/-- A stage of an index run. -/
abbrev Stage (R V : Type) := Staged.Stage (Db R V) (Write R V)

end Index
end Inkentry
