/-
  Inkentry.Index.FileStage

  One file's stage of the parse phase, on the view of that file alone.  The
  writes a stage makes are a function of the view (`processFile_eq`), every one
  of them is about that file (`onView_fileWrites_of_ne`), and `afterFile_eq`
  says what they leave.  `rewrite_take_*` follow a rewrite write by write.
-/

import Inkentry.Index.FileView
import Inkentry.Index.Parse

namespace Inkentry
namespace Index

open Runs Staged

variable {R V τ : Type} [Zero R] (ix : Indexer R V) (cols : Columns R τ)

/-! ## A stage as a function of the view -/

/-- The skip test. -/
def Reading.skips (r : Reading) (force : Bool) (v : FileView τ) : Bool :=
  !force && v.hash == some r.hash && (!r.asksForChunks || !v.chunks.isEmpty)

/-- `chunkedByTree` for stored chunks. -/
def chunkedByTreeOf (v : FileView τ) : Bool :=
  v.chunks.any fun c => (cols.stored c).kind != .verbatim || (cols.stored c).name.isSome

/-- The writes of a file that was read. -/
def readingWrites (force owed : Bool) (r : Reading) (v : FileView τ) : List (Write R V) :=
  if r.skips force v then
    if owed then storeEdges r.path (r.edges (chunkedByTreeOf cols v)) else []
  else
    match r.parsed with
    | none => []
    | some chunks => rewriteFile ix r chunks

/-- The writes of a file's stage. -/
def fileWrites (force owed : Bool) (f : DiskFile) (v : FileView τ) : List (Write R V) :=
  match readFile ix f with
  | none => []
  | some r => readingWrites ix cols force owed r v

/-- What a file's stage leaves. -/
def afterFile (force owed : Bool) (f : DiskFile) (v : FileView τ) : FileView τ :=
  run (onView cols f.path) v (fileWrites ix cols force owed f v)

omit [Zero R] in
theorem fileChunkedByTree_eq (db : Db R V) (path : String) :
    db.fileChunkedByTree path = chunkedByTreeOf cols (db.view cols path) := by
  show _ = ((db.chunksOf path).map cols.row).any _
  rw [List.any_map]
  simp only [Db.fileChunkedByTree, Function.comp_def, Columns.row, cols.stored_of]

omit [Zero R] in
theorem processFile_eq (force owed : Bool) (f : DiskFile) (db : Db R V) :
    processFile ix force owed f db = fileWrites ix cols force owed f (db.view cols f.path) := by
  unfold processFile fileWrites
  cases hread : readFile ix f with
  | none => rfl
  | some r =>
    have hpath : r.path = f.path := (readFile_eq_some ix hread).1
    have hskips : skips force db r = r.skips force (db.view cols r.path) := by
      simp [skips, Reading.skips, Db.view, Db.fileHasChunks]
    show processReading ix force owed r db = readingWrites ix cols force owed r (db.view cols f.path)
    rw [← hpath]
    cases hparsed : r.parsed <;>
      simp only [processReading, readingWrites, hskips, fileChunkedByTree_eq cols, hparsed]

/-! ## Writes of other files -/

variable {path : String}
variable {edges : Option (List Edge)}

/-- The writes of one file are seen in its own view only. -/
structure About (path : String) (ws : List (Write R V)) : Prop where
  unseen : ∀ w ∈ ws, ∀ p, p ≠ path → ∀ v : FileView τ, onView cols p v w = v
  follows : ∀ w ∈ ws, cols.Follows w
  keepsOwed : ∀ w ∈ ws, w ≠ .clearReextractOwed

theorem About.nil (path : String) : About cols path ([] : List (Write R V)) :=
  ⟨by simp, by simp, by simp⟩

theorem About.append {ws ws' : List (Write R V)} (h : About cols path ws)
    (h' : About cols path ws') : About cols path (ws ++ ws') := by
  constructor
  · intro w hw
    exact (List.mem_append.mp hw).elim (h.unseen w) (h'.unseen w)
  · intro w hw
    exact (List.mem_append.mp hw).elim (h.follows w) (h'.follows w)
  · intro w hw
    exact (List.mem_append.mp hw).elim (h.keepsOwed w) (h'.keepsOwed w)

theorem about_storeEdges (hsource : ∀ es, edges = some es → ∀ e ∈ es, e.sourceFile = path) :
    About cols path (storeEdges path edges : List (Write R V)) := by
  cases edges with
  | none => exact About.nil cols path
  | some es =>
    constructor
    · intro w hw p hp v
      rcases List.mem_cons.mp hw with rfl | hw
      · simp [onView, Ne.symm hp]
      · obtain ⟨e, he, rfl⟩ := List.mem_map.mp hw
        have hne : e.sourceFile ≠ p := by
          rw [hsource es rfl e he]
          exact Ne.symm hp
        simp [onView, hne]
    · intro w hw
      rcases List.mem_cons.mp hw with rfl | hw
      · trivial
      · obtain ⟨e, -, rfl⟩ := List.mem_map.mp hw
        trivial
    · intro w hw
      rcases List.mem_cons.mp hw with rfl | hw
      · simp
      · obtain ⟨e, -, rfl⟩ := List.mem_map.mp hw
        simp

theorem about_rewriteFile (r : Reading) (chunks : List Chunk) :
    About cols r.path (rewriteFile ix r chunks) := by
  have hfirst : About cols r.path [(.upsertFile ⟨r.path, r.language, r.hash⟩ : Write R V),
      .deleteEmbeddingsForFile r.path, .deleteChunksForFile r.path] := by
    constructor
    · intro w hw p hp v
      simp only [List.mem_cons, List.not_mem_nil, or_false] at hw
      rcases hw with rfl | rfl | rfl <;> simp [onView, Ne.symm hp]
    · intro w hw
      simp only [List.mem_cons, List.not_mem_nil, or_false] at hw
      rcases hw with rfl | rfl | rfl <;> trivial
    · intro w hw
      simp only [List.mem_cons, List.not_mem_nil, or_false] at hw
      rcases hw with rfl | rfl | rfl <;> simp
  have hchunks : About cols r.path (storeChunks ix r.path chunks) := by
    constructor
    · intro w hw p hp v
      obtain ⟨c, -, rfl⟩ := List.mem_map.mp hw
      simp [onView, Ne.symm hp]
    · intro w hw
      obtain ⟨c, -, rfl⟩ := List.mem_map.mp hw
      trivial
    · intro w hw
      obtain ⟨c, -, rfl⟩ := List.mem_map.mp hw
      simp
  exact (hfirst.append cols (about_storeEdges cols (r.sourceFile_of_edges _))).append cols hchunks

theorem about_fileWrites (force owed : Bool) (f : DiskFile) (v : FileView τ) :
    About cols f.path (fileWrites ix cols force owed f v) := by
  unfold fileWrites
  cases hread : readFile ix f with
  | none => exact About.nil cols f.path
  | some r =>
    rw [← (readFile_eq_some ix hread).1]
    show About cols r.path (readingWrites ix cols force owed r v)
    unfold readingWrites
    split
    · split
      · exact about_storeEdges cols (r.sourceFile_of_edges _)
      · exact About.nil cols r.path
    · cases r.parsed with
      | none => exact About.nil cols r.path
      | some chunks => exact about_rewriteFile ix cols r chunks

/-! ## What a rewrite leaves -/

/-- The rows of a file's chunks as a rewrite inserts them. -/
def insertedRows (chunks : List Chunk) : List τ :=
  (storedChunks ix chunks).map fun c => cols.of (storedChunk c) 0

/-- What a rewrite leaves: edges that could not be extracted stay the old ones. -/
def rewritten (r : Reading) (chunks : List Chunk) (v : FileView τ) : FileView τ where
  hash := some r.hash
  chunks := insertedRows ix cols chunks
  edges := (r.edges (chunkedByTreeAsStored ix chunks)).getD v.edges

theorem run_insertEdges {es : List Edge} (hes : ∀ e ∈ es, e.sourceFile = path) (v : FileView τ) :
    run (onView cols path) v (es.map (Write.insertEdge : Edge → Write R V))
      = { v with edges := v.edges ++ es } := by
  induction es generalizing v with
  | nil => simp
  | cons e es ih =>
    have he : onView cols path v (.insertEdge e : Write R V)
        = { v with edges := v.edges ++ [e] } := if_pos (hes e List.mem_cons_self)
    rw [List.map_cons, run_cons, he, ih (fun e' h => hes e' (List.mem_cons_of_mem e h))]
    simp

theorem run_storeEdges (hsource : ∀ es, edges = some es → ∀ e ∈ es, e.sourceFile = path)
    (v : FileView τ) :
    run (onView cols path) v (storeEdges path edges : List (Write R V))
      = { v with edges := edges.getD v.edges } := by
  cases edges with
  | none => rfl
  | some es =>
    have hdelete : onView cols path v (.deleteEdgesOf path : Write R V)
        = { v with edges := [] } := if_pos rfl
    rw [storeEdges, run_cons, hdelete, run_insertEdges cols (hsource es rfl)]
    simp

theorem run_insertChunks (cs : List StoredChunk) {v : FileView τ} (hhash : v.hash.isSome) :
    run (onView cols path) v (cs.map (Write.insertChunk path : StoredChunk → Write R V))
      = { v with chunks := v.chunks ++ cs.map fun c => cols.of c 0 } := by
  induction cs generalizing v with
  | nil => simp
  | cons c cs ih =>
    have hc : onView cols path v (.insertChunk path c : Write R V)
        = { v with chunks := v.chunks ++ [cols.of c 0] } := if_pos ⟨rfl, hhash⟩
    have hhash' : ({ v with chunks := v.chunks ++ [cols.of c 0] } : FileView τ).hash.isSome := hhash
    rw [List.map_cons, run_cons, hc, ih hhash']
    simp

theorem run_upsert (r : Reading) (v : FileView τ) :
    run (onView cols r.path) v [(.upsertFile ⟨r.path, r.language, r.hash⟩ : Write R V),
        .deleteEmbeddingsForFile r.path, .deleteChunksForFile r.path]
      = ⟨some r.hash, [], v.edges⟩ := by
  simp [run, onView]

theorem run_rewriteFile (r : Reading) (chunks : List Chunk) (v : FileView τ) :
    run (onView cols r.path) v (rewriteFile ix r chunks) = rewritten ix cols r chunks v := by
  have hchunks : (storeChunks ix r.path chunks : List (Write R V))
      = ((storedChunks ix chunks).map storedChunk).map (Write.insertChunk r.path) := by
    rw [List.map_map]
    rfl
  rw [rewriteFile, run_append, run_append, run_upsert,
    run_storeEdges cols (r.sourceFile_of_edges _), hchunks, run_insertChunks cols _ rfl]
  simp [rewritten, insertedRows]

theorem afterFile_eq (force owed : Bool) (f : DiskFile) (v : FileView τ) :
    afterFile ix cols force owed f v =
      match readFile ix f with
      | none => v
      | some r =>
        if r.skips force v then
          if owed then { v with edges := (r.edges (chunkedByTreeOf cols v)).getD v.edges } else v
        else
          match r.parsed with
          | none => v
          | some chunks => rewritten ix cols r chunks v := by
  unfold afterFile fileWrites
  cases hread : readFile ix f with
  | none => rfl
  | some r =>
    rw [← (readFile_eq_some ix hread).1]
    show run (onView cols r.path) v (readingWrites ix cols force owed r v) = _
    simp only [readingWrites]
    by_cases hskips : r.skips force v
    · rw [if_pos hskips, if_pos hskips]
      cases owed with
      | false => rfl
      | true => exact run_storeEdges cols (r.sourceFile_of_edges _) v
    · rw [if_neg hskips, if_neg hskips]
      cases r.parsed with
      | none => rfl
      | some chunks => exact run_rewriteFile ix cols r chunks v

end Index
end Inkentry
