/-
  Inkentry.Index.Parse

  The parse phase of an index run: every listed file is read, skipped when its
  hash is the stored one, and otherwise parsed and rewritten; then the files no
  longer listed are removed.  Spreadsheets and documents, PDF files and text
  files are read in their own ways and share what follows, `processReading`;
  they differ in the test that skips a file and in what has edges.

  The hash is written first and the chunks last, each write a commit.
-/

import Inkentry.Index.Db

namespace Inkentry
namespace Index

variable {R V : Type} (ix : Indexer R V)

/-! ## The source tree -/

/-- A file the walk lists, under its path in the index. -/
structure DiskFile where
  path : String
  /-- The length its metadata gives, 0 where they cannot be read. -/
  size : ℕ
  /-- Nothing where the file cannot be read. -/
  bytes : Option (List UInt8)
  deriving DecidableEq, Repr

/-- What the walk lists, each file once. -/
structure Tree where
  files : List DiskFile
  paths_nodup : (files.map (·.path)).Nodup

/-- One document of one byte. -/
def oneDocument : Tree where
  files := [⟨"a.docx", 1, some [65]⟩]
  paths_nodup := by decide

def MAX_FILE_BYTES : ℕ := 64 * 1024 * 1024

def isFileTooLarge (f : DiskFile) : Bool := MAX_FILE_BYTES < f.size

/-- A null byte in the first 512 bytes. -/
def isBinaryFile (f : DiskFile) : Bool := ((f.bytes.getD []).take 512).contains 0

/-- The text of a file's bytes, if they are UTF-8. -/
def textOf (bytes : List UInt8) : Option String := String.fromUTF8? ⟨bytes.toArray⟩

/-! ## What is read of a file -/

/-- A file that was read, before the test that skips it. -/
structure Reading where
  path : String
  language : String
  hash : String
  /-- The file is skipped only if it has chunks. -/
  asksForChunks : Bool
  /-- The edges to store, with call targets resolved or not; nothing where extraction fails or
      the file is of a kind without edges. -/
  edges : Bool → Option (List Edge)
  /-- Nothing where parsing fails. -/
  parsed : Option (List Chunk)
  sourceFile_of_edges : ∀ byTree es, edges byTree = some es → ∀ e ∈ es, e.sourceFile = path
  edges_of_not_asks : asksForChunks = false → ∀ byTree, edges byTree = none

/-- The chunks of the numbered pages of a document. -/
def pagesToChunks (pages : List (ℕ × String)) : List Chunk :=
  pages.map fun page =>
    { kind := .section
      name := some ("page " ++ toString page.1)
      startLine := page.1
      endLine := page.1
      content := page.2
      docstring := none
      parentScope := none
      summary := none
      inTestCode := false }

/-- A spreadsheet or a document. -/
def readDocFile (f : DiskFile) (language : String) : Option Reading :=
  if isFileTooLarge f then none
  else f.bytes.map fun bytes =>
    { path := f.path
      language := language
      hash := ix.hash bytes
      asksForChunks := false
      edges := fun _ => none
      parsed := some (ix.parseDoc bytes f.path language)
      sourceFile_of_edges := fun _ _ h => absurd h (by simp)
      edges_of_not_asks := fun _ _ => rfl }

def readPdfFile (f : DiskFile) : Option Reading :=
  if isFileTooLarge f then none
  else f.bytes.map fun bytes =>
    { path := f.path
      language := "pdf"
      hash := ix.hash bytes
      asksForChunks := false
      edges := fun _ => none
      parsed := (ix.extractPdfText bytes).map pagesToChunks
      sourceFile_of_edges := fun _ _ h => absurd h (by simp)
      edges_of_not_asks := fun _ _ => rfl }

/-- A text file.  The walk lists no file without a language. -/
def readTextFile (f : DiskFile) : Option Reading :=
  match (ix.detectLanguage f.path).or (ix.detectTextLanguage f.path) with
  | none => none
  | some language =>
    if (language == "text" || language == "markdown") && isBinaryFile f then none
    else if isFileTooLarge f then none
    else f.bytes.bind fun bytes => (textOf bytes).map fun source =>
      -- the bytes of the text are the bytes of the file
      { path := f.path
        language := language
        hash := ix.hash bytes
        asksForChunks := true
        edges := fun byTree => ix.extractEdges byTree source f.path language
        parsed := ix.parse source f.path language
        sourceFile_of_edges := fun byTree es h =>
          ix.sourceFile_of_extract byTree source f.path language es h
        edges_of_not_asks := fun h => absurd h (by simp) }

def readFile (f : DiskFile) : Option Reading :=
  match ix.detectDocLanguage f.path with
  | some language => readDocFile ix f language
  | none => if ix.detectLanguage f.path == some "pdf" then readPdfFile ix f else readTextFile ix f

/-! ## Writes of a file -/

/-- The old edges are deleted, then each new one is inserted; nothing happens where extraction
    failed or the file has no edges. -/
def storeEdges (path : String) : Option (List Edge) → List (Write R V)
  | none => []
  | some edges => .deleteEdgesOf path :: edges.map .insertEdge

def storeChunks (path : String) (chunks : List Chunk) : List (Write R V) :=
  (storedChunks ix chunks).map fun c => .insertChunk path (storedChunk c)

/-- A file's rows are rewritten: the hash first, the chunks last. -/
def rewriteFile (r : Reading) (chunks : List Chunk) : List (Write R V) :=
  [.upsertFile ⟨r.path, r.language, r.hash⟩, .deleteEmbeddingsForFile r.path,
    .deleteChunksForFile r.path] ++ storeEdges r.path (r.edges (chunkedByTreeAsStored ix chunks))
    ++ storeChunks ix r.path chunks

/-- The file's hash is the stored one, and it has chunks if these are asked for. -/
def skips (force : Bool) (db : Db R V) (r : Reading) : Bool :=
  !force && db.fileHash r.path == some r.hash && (!r.asksForChunks || db.fileHasChunks r.path)

def processReading (force owed : Bool) (r : Reading) (db : Db R V) : List (Write R V) :=
  if skips force db r then
    if owed then storeEdges r.path (r.edges (db.fileChunkedByTree r.path)) else []
  else
    match r.parsed with
    | none => []
    | some chunks => rewriteFile ix r chunks

/-- One file of the walk; one that cannot be read is left as it is. -/
def processFile (force owed : Bool) (f : DiskFile) : Stage R V := fun db =>
  match readFile ix f with
  | none => []
  | some r => processReading ix force owed r db

/-! ## Files no longer listed -/

def deleteFile (path : String) : List (Write R V) :=
  [.deleteEmbeddingsForFile path, .deleteChunksForFile path, .deleteEdgesOf path,
    .deleteFileRow path]

def cleanupStale (tree : Tree) : Stage R V := fun db =>
  (db.allFilePaths.filter (· ∉ tree.files.map (·.path))).flatMap deleteFile

/-- The re-extraction is done once every file was seen. -/
def finish (owed : Bool) : Stage R V := fun _ => if owed then [.clearReextractOwed] else []

/-! ## The phase -/

/-- With nothing listed the phase ends before the clean-up. -/
def parsePhase (force owed : Bool) (tree : Tree) : List (Stage R V) :=
  if tree.files.isEmpty then []
  else tree.files.map (processFile ix force owed) ++ [cleanupStale tree, finish owed]

/-! ## Readings -/

/-- What is read of a file: it goes by the path and the bytes, and by the length only in that
    a file too large is not read. -/
theorem readFile_eq_some {f : DiskFile} {r : Reading} (h : readFile ix f = some r) :
    r.path = f.path ∧ (∃ bytes, f.bytes = some bytes ∧ r.hash = ix.hash bytes)
      ∧ readFile ix { f with size := 0 } = some r := by
  have hsmall : ∀ path bytes, isFileTooLarge ⟨path, 0, bytes⟩ = false := by
    intro path bytes
    simp [isFileTooLarge]
  -- the size only decides whether a file is read at all
  unfold readFile at h ⊢
  cases hdoc : ix.detectDocLanguage f.path with
  | some language =>
    simp only [hdoc, readDocFile] at h
    by_cases hlarge : isFileTooLarge f
    · simp [hlarge] at h
    · rw [if_neg hlarge] at h
      obtain ⟨bytes, hbytes, rfl⟩ := Option.map_eq_some_iff.mp h
      exact ⟨rfl, ⟨bytes, hbytes, rfl⟩, by simp [readDocFile, hsmall, hbytes]⟩
  | none =>
    simp only [hdoc] at h
    by_cases hpdf : ix.detectLanguage f.path == some "pdf"
    · simp only [hpdf, if_true, readPdfFile] at h ⊢
      by_cases hlarge : isFileTooLarge f
      · simp [hlarge] at h
      · rw [if_neg hlarge] at h
        obtain ⟨bytes, hbytes, rfl⟩ := Option.map_eq_some_iff.mp h
        exact ⟨rfl, ⟨bytes, hbytes, rfl⟩, by simp [hsmall, hbytes]⟩
    · simp only [hpdf, readTextFile] at h ⊢
      cases hlanguage : (ix.detectLanguage f.path).or (ix.detectTextLanguage f.path) with
      | none => simp [hlanguage] at h
      | some language =>
        simp only [hlanguage] at h
        by_cases hbinary : (language == "text" || language == "markdown") && isBinaryFile f
        · simp [hbinary] at h
        by_cases hlarge : isFileTooLarge f
        · simp [hlarge] at h
        rw [if_neg (by simp), if_neg hbinary, if_neg hlarge] at h
        obtain ⟨bytes, hbytes, htext⟩ := Option.bind_eq_some_iff.mp h
        obtain ⟨source, hsource, rfl⟩ := Option.map_eq_some_iff.mp htext
        refine ⟨rfl, ⟨bytes, hbytes, rfl⟩, ?_⟩
        have hbinary' : ¬ ((language == "text" || language == "markdown")
            && isBinaryFile { f with size := 0 }) := hbinary
        rw [if_neg (by simp)]
        simp only []
        rw [if_neg hbinary', if_neg (by simp [hsmall])]
        simp [hbytes, hsource]

theorem readFile_congr {f f' : DiskFile} {r r' : Reading} (hpath : f'.path = f.path)
    (hbytes : f'.bytes = f.bytes) (h : readFile ix f = some r) (h' : readFile ix f' = some r') :
    r' = r := by
  have hsame : ({ f' with size := 0 } : DiskFile) = { f with size := 0 } := by
    rw [hpath, hbytes]
  have hr := (readFile_eq_some ix h).2.2
  have hr' := (readFile_eq_some ix h').2.2
  rw [hsame, hr] at hr'
  exact (Option.some.inj hr').symm

end Index
end Inkentry
