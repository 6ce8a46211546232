/-
  Inkentry.Index.Chunk

  What the indexer cuts a file into: chunks and graph edges, the metadata a
  chunk is stored with, and the text its vector is made from.  That text is
  built in two places, from a chunk and again from a stored row;
  `reconstructEmbeddingText_chunkMetadata` says they agree.

  `Indexer` collects what the indexer leaves to parsers, to the secret scanner,
  to the hash and to the embedder: one build under one configuration.
-/

import Mathlib.Order.Basic
import Mathlib.Data.List.Basic

namespace Inkentry
namespace Index

/-! ## Chunks -/

/-- The semantic kind of a chunk, stored by name as `node_type`. -/
inductive ChunkKind where
  | function | method | struct | classDef | enum | interface | impl | trait | module | constant
  | typeAlias | rule | section | verbatim
  deriving DecidableEq, Repr

/-- What a parser cuts out of a file.  The file's path and language, which the parsers also
    put here, are those of the file row. -/
structure Chunk where
  kind : ChunkKind
  name : Option String
  startLine : ℕ
  endLine : ℕ
  content : String
  docstring : Option String
  parentScope : Option String
  summary : Option String
  inTestCode : Bool
  deriving DecidableEq, Repr

/-- The text put together from its parts. -/
def embeddingTextOf (name docstring summary : Option String) (content : String) : String :=
  let title := name.getD "none"
  let body := match docstring with
    | some doc => doc ++ "\n" ++ content
    | none => content
  match summary with
  | some summary => "title: " ++ title ++ " | summary: " ++ summary ++ " | text: " ++ body
  | none => "title: " ++ title ++ " | text: " ++ body

/-- The text passed to the embedding model. -/
def Chunk.embeddingText (c : Chunk) : String :=
  embeddingTextOf c.name c.docstring c.summary c.content

/-! ## Stored metadata -/

/-- The values the metadata holds. -/
inductive JsonValue where
  | null
  | bool (b : Bool)
  | string (s : String)
  deriving DecidableEq, Repr

/-- A JSON object. -/
abbrev Metadata := List (String × JsonValue)

def IN_TEST_CODE_KEY : String := "in_test_code"

/-- An optional text as JSON. -/
def jsonOf : Option String → JsonValue
  | some s => .string s
  | none => .null

/-- The metadata a chunk is stored with. -/
def chunkMetadata (c : Chunk) : Metadata :=
  [("docstring", jsonOf c.docstring), ("parent_scope", jsonOf c.parentScope)]
    ++ if c.inTestCode then [(IN_TEST_CODE_KEY, .bool true)] else []

/-- The docstring read back from stored metadata. -/
def docstringOf (metadata : Option Metadata) : Option String :=
  match metadata.bind (·.lookup "docstring") with
  | some (.string s) => some s
  | _ => none

/-- The embedding text rebuilt from stored columns. -/
def reconstructEmbeddingText (name : Option String) (metadata : Option Metadata)
    (summary : Option String) (content : String) : String :=
  embeddingTextOf name (docstringOf metadata) summary content

@[simp] theorem docstringOf_chunkMetadata (c : Chunk) :
    docstringOf (some (chunkMetadata c)) = c.docstring := by
  cases hdoc : c.docstring <;> simp [docstringOf, chunkMetadata, jsonOf, hdoc]

theorem reconstructEmbeddingText_chunkMetadata (c : Chunk) :
    reconstructEmbeddingText c.name (some (chunkMetadata c)) c.summary c.content
      = c.embeddingText := by
  rw [reconstructEmbeddingText, docstringOf_chunkMetadata, Chunk.embeddingText]

/-! ## Text-only chunks -/

/-- Languages whose unnamed windows are prose or data. -/
def PROSE_LANGUAGES : List String :=
  ["markdown", "text", "docx", "pdf", "spreadsheet", "notebook"]

/-! ## Graph edges -/

inductive EdgeKind where
  | imports | calls | extends | implements
  /-- No longer written. -/
  | mentions
  deriving DecidableEq, Repr

structure Edge where
  sourceFile : String
  sourceName : Option String
  targetName : String
  kind : EdgeKind
  line : ℕ
  targetFile : Option String
  deriving DecidableEq, Repr

/-! ## One build under one configuration -/

/-- What the indexer calls: the hash, the language of a path, the parsers, the edge
    extractors, the secret scanner, the path rules of the text-only scope, the rank of a
    name in a graph, the summariser, the embedder and the tier-3 ranking.  `R` is the type
    of ranks and `V` that of vectors. -/
structure Indexer (R V : Type) where
  hash : List UInt8 → String
  detectDocLanguage : String → Option String
  detectLanguage : String → Option String
  detectTextLanguage : String → Option String
  parseDoc : List UInt8 → String → String → List Chunk
  /-- The numbered pages of a document, or a failure. -/
  extractPdfText : List UInt8 → Option (List (ℕ × String))
  parse : String → String → String → Option (List Chunk)
  /-- With the flag set, call targets are resolved. -/
  extractEdges : Bool → String → String → String → Option (List Edge)
  containsSecret : String → Bool
  isTestPath : String → Bool
  isChangelog : String → String → Bool
  computePagerank : List (String × String) → String → Option R
  composeStructuralSummary : String → Option String → List String → String → String
  embed : String → V
  splitIntoUnits : String → ChunkKind → List String
  mmrRank : List V → V → List ℕ
  estimateTokens : String → ℕ
  /-- An edge names the file it was extracted from. -/
  sourceFile_of_extract : ∀ byTree source path language edges,
    extractEdges byTree source path language = some edges → ∀ e ∈ edges, e.sourceFile = path

variable {R V : Type} (ix : Indexer R V)

/-- The part of the text-only rule a chunk's location decides. -/
def isTextOnly (path language : String) (kind : ChunkKind) (name : Option String) : Bool :=
  language == "json" || ix.isTestPath path || ix.isChangelog path language
    || (kind == .verbatim && name.isNone && !PROSE_LANGUAGES.contains language)

/-- Whether a stored chunk is kept out of the embed queue. -/
def isTextOnlyRow (path language : String) (kind : ChunkKind) (name : Option String)
    (metadata : Option Metadata) : Bool :=
  isTextOnly ix path language kind name
    || metadata.bind (·.lookup IN_TEST_CODE_KEY) == some (.bool true)

/-- A chunk whose text holds a secret is never stored. -/
def holdsSecret (c : Chunk) : Bool := ix.containsSecret c.embeddingText

/-- Whether chunks came from the file's syntax tree and not from the sliding window. -/
def chunkedByTree (chunks : List Chunk) : Bool :=
  chunks.any fun c => c.kind != .verbatim || c.name.isSome

/-- The chunks of a file that are stored. -/
def storedChunks (chunks : List Chunk) : List Chunk := chunks.filter (!holdsSecret ix ·)

def chunkedByTreeAsStored (chunks : List Chunk) : Bool := chunkedByTree (storedChunks ix chunks)

/-! ## An indexer of documents -/

/-- A character for every byte. -/
def latin1 (bytes : List UInt8) : String := String.ofList (bytes.map fun b => Char.ofNat b.toNat)

/-- A rank in whole units. -/
structure Rank where
  units : ℕ
  deriving DecidableEq, Repr

instance Rank.instZero : Zero Rank := ⟨⟨0⟩⟩

/-- Every file is a document of one chunk, named or not; no edges, no secrets, and the embedding
    of a text is the text. -/
def documentIndexer (name : Option String) : Indexer Rank String where
  hash := latin1
  detectDocLanguage _ := some "docx"
  detectLanguage _ := none
  detectTextLanguage _ := none
  parseDoc bytes _ _ :=
    [{ kind := .section, name := name, startLine := 1, endLine := 1, content := latin1 bytes,
       docstring := none, parentScope := none, summary := none, inTestCode := false }]
  extractPdfText _ := none
  parse _ _ _ := none
  extractEdges _ _ _ _ := none
  containsSecret _ := false
  isTestPath _ := false
  isChangelog _ _ := false
  computePagerank _ _ := none
  composeStructuralSummary name _ _ _ := name
  embed text := text
  splitIntoUnits content _ := [content]
  mmrRank _ _ := []
  estimateTokens _ := 0
  sourceFile_of_extract _ _ _ _ _ h := absurd h (by simp)

end Index
end Inkentry
