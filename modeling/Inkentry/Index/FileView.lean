/-
  Inkentry.Index.FileView

  What the index holds about one file: its hash, its chunks and the edges that
  start in it.  Every write of an index run touches one file's view at most, or
  only columns that the later phases fill in, so a run is followed file by
  file: `view_apply` says what each write does to the view of one path.

  `Columns` chooses what of a chunk row the view shows: the columns that the
  parsers decide, with or without the graph rank.
-/

import Inkentry.Index.Db

namespace Inkentry
namespace Index

open Staged

variable {R V τ : Type} [Zero R]

/-! ## Views -/

/-- The part of a chunk row a view shows: at least what the parsers decide. -/
structure Columns (R τ : Type) where
  of : StoredChunk → R → τ
  stored : τ → StoredChunk
  stored_of : ∀ c r, stored (of c r) = c

/-- What the parsers decide. -/
def parsedColumns : Columns R StoredChunk where
  of c _ := c
  stored c := c
  stored_of _ _ := rfl

/-- The same with the graph rank. -/
def rankedColumns : Columns R (StoredChunk × R) where
  of c r := (c, r)
  stored := Prod.fst
  stored_of _ _ := rfl

/-- The columns shown do not change with the rank. -/
def Columns.RankFree (cols : Columns R τ) : Prop := ∀ c r r', cols.of c r = cols.of c r'

omit [Zero R] in
theorem parsedColumns_rankFree : (parsedColumns : Columns R StoredChunk).RankFree :=
  fun _ _ _ => rfl

def Columns.row (cols : Columns R τ) (c : ChunkRow R V) : τ := cols.of c.toStoredChunk c.graphRank

/-- What the index holds about one file. -/
@[ext]
structure FileView (τ : Type) where
  hash : Option String
  chunks : List τ
  edges : List Edge
  deriving DecidableEq, Repr

/-- A file the index knows nothing of. -/
def FileView.empty : FileView τ := ⟨none, [], []⟩

def Db.view (cols : Columns R τ) (db : Db R V) (path : String) : FileView τ where
  hash := db.fileHash path
  chunks := (db.chunksOf path).map cols.row
  edges := db.edgesOf path

/-- What a write does to the view of `path`. -/
def onView (cols : Columns R τ) (path : String) (v : FileView τ) : Write R V → FileView τ
  | .upsertFile row => if row.path = path then { v with hash := some row.hash } else v
  | .deleteChunksForFile p => if p = path then { v with chunks := [] } else v
  | .insertChunk p c =>
    if p = path ∧ v.hash.isSome then { v with chunks := v.chunks ++ [cols.of c 0] } else v
  | .deleteEdgesOf p => if p = path then { v with edges := [] } else v
  | .insertEdge e => if e.sourceFile = path then { v with edges := v.edges ++ [e] } else v
  | .deleteFileRow p => if p = path then { v with hash := none } else v
  | _ => v

/-- A view sees a change of rank only if it shows ranks. -/
def Columns.Follows (cols : Columns R τ) : Write R V → Prop
  | .updateGraphRanks _ => cols.RankFree
  | _ => True

/-! ## Queries after each statement -/

omit [Zero R]

variable {cols : Columns R τ}

theorem view_modifyChunks {f : ChunkRow R V → ChunkRow R V} (hf : ∀ c, (f c).id = c.id)
    (hpath : ∀ c, (f c).path = c.path) (hrow : ∀ c, cols.row (f c) = cols.row c) (db : Db R V)
    (path : String) : (db.modifyChunks f hf).view cols path = db.view cols path := by
  have hchunks : ((db.modifyChunks f hf).chunksOf path).map cols.row
      = (db.chunksOf path).map cols.row := by
    show ((db.chunks.map f).filter _).map cols.row = (db.chunks.filter _).map cols.row
    rw [List.filter_map, List.map_map]
    have hsame : (fun c : ChunkRow R V => c.path == path) ∘ f = fun c => c.path == path := by
      funext c
      simp [hpath]
    rw [hsame]
    exact List.map_congr_left fun c _ => hrow c
  show FileView.mk _ _ _ = FileView.mk _ _ _
  rw [hchunks]
  rfl

theorem find?_map_replace (files : List FileRow) (row : FileRow) (path : String) :
    (files.map fun f => if f.path = row.path then row else f).find? (·.path == path)
      = if row.path = path ∧ row.path ∈ files.map (·.path) then some row
        else files.find? (·.path == path) := by
  induction files with
  | nil => simp
  | cons f files ih =>
    by_cases hf : f.path = row.path
    · rw [List.map_cons, if_pos hf]
      by_cases hp : row.path = path
      · rw [List.find?_cons_of_pos (by simpa using hp), if_pos ⟨hp, by simp [hf]⟩]
      · rw [List.find?_cons_of_neg (by simpa using hp),
          List.find?_cons_of_neg (by simpa [hf] using hp), ih, if_neg (fun h => hp h.1),
          if_neg (fun h => hp h.1)]
    · rw [List.map_cons, if_neg hf]
      by_cases hfp : f.path = path
      · have hp : ¬ row.path = path := fun h => hf (hfp.trans h.symm)
        rw [List.find?_cons_of_pos (by simpa using hfp),
          List.find?_cons_of_pos (by simpa using hfp), if_neg (fun h => hp h.1)]
      · rw [List.find?_cons_of_neg (by simpa using hfp),
          List.find?_cons_of_neg (by simpa using hfp), ih]
        simp [Ne.symm hf]

theorem fileHash_upsertFile (db : Db R V) (row : FileRow) (path : String) :
    (db.upsertFile row).fileHash path = if row.path = path then some row.hash
      else db.fileHash path := by
  unfold Db.upsertFile
  by_cases h : row.path ∈ db.allFilePaths
  · rw [dif_pos h]
    show Option.map _ ((db.files.map _).find? _) = _
    rw [find?_map_replace]
    by_cases hp : row.path = path
    · have hmem : row.path ∈ db.files.map (·.path) := h
      rw [if_pos ⟨hp, hmem⟩, if_pos hp]
      rfl
    · rw [if_neg (fun h => hp h.1), if_neg hp]
      rfl
  · rw [dif_neg h]
    show Option.map _ ((db.files ++ [row]).find? _) = _
    rw [List.find?_append]
    by_cases hp : row.path = path
    · have hnone : db.files.find? (·.path == path) = none := by
        rw [List.find?_eq_none]
        intro f hf hfp
        exact h (List.mem_map.mpr ⟨f, hf, by rw [hp]; exact eq_of_beq hfp⟩)
      rw [hnone, if_pos hp]
      simp [hp]
    · rw [if_neg hp]
      simp [hp, Db.fileHash, Db.fileRow]

theorem fileHash_deleteFileRow (db : Db R V) (p path : String) :
    (db.deleteFileRow p).fileHash path = if p = path then none else db.fileHash path := by
  show Option.map _ ((db.files.filter _).find? _) = _
  rw [List.find?_filter]
  by_cases hp : p = path
  · subst hp
    rw [if_pos rfl, Option.map_eq_none_iff, List.find?_eq_none]
    intro f _
    simp
  · rw [if_neg hp]
    congr 2
    funext f
    by_cases hf : f.path = path <;> simp [hf, Ne.symm hp]

theorem filter_filter_ne {α : Type} (f : α → String) (l : List α) (p path : String) :
    (l.filter fun a => f a != p).filter (fun a => f a == path)
      = if p = path then [] else l.filter fun a => f a == path := by
  rw [List.filter_filter]
  by_cases hp : p = path
  · subst hp
    rw [if_pos rfl, List.filter_eq_nil_iff]
    intro a _
    simp
  · rw [if_neg hp]
    apply List.filter_congr
    intro a _
    by_cases ha : f a = path <;> simp [ha, Ne.symm hp]

/-! ## Updates of rows -/

namespace ChunkRow

theorem setRank_toStoredChunk (c : ChunkRow R V) (rank : ℕ × R) :
    (c.setRank rank).toStoredChunk = c.toStoredChunk ∧ (c.setRank rank).path = c.path := by
  by_cases h : c.id = rank.1 <;> simp [setRank, h]

theorem foldl_setRank_toStoredChunk (c : ChunkRow R V) (ranks : List (ℕ × R)) :
    (ranks.foldl setRank c).toStoredChunk = c.toStoredChunk
      ∧ (ranks.foldl setRank c).path = c.path :=
  run_keeps (P := fun c' : ChunkRow R V => c'.toStoredChunk = c.toStoredChunk ∧ c'.path = c.path)
    setRank
    (fun c' rank _ h => by
      have hset := setRank_toStoredChunk c' rank
      exact ⟨hset.1.trans h.1, hset.2.trans h.2⟩)
    ⟨rfl, rfl⟩

theorem row_forgetVector (cols : Columns R τ) (c : ChunkRow R V) (p : String) :
    cols.row (c.forgetVector p) = cols.row c ∧ (c.forgetVector p).path = c.path := by
  by_cases h : c.path = p <;> simp [forgetVector, h, Columns.row]

theorem row_setSummary (cols : Columns R τ) (c : ChunkRow R V) (id : ℕ) (summary : String) :
    cols.row (c.setSummary id summary) = cols.row c ∧ (c.setSummary id summary).path = c.path := by
  by_cases h : c.id = id <;> simp [setSummary, h, Columns.row]

theorem row_setSummaryPending (cols : Columns R τ) (c : ChunkRow R V) (id : ℕ) (summary : String) :
    cols.row (c.setSummaryPending id summary) = cols.row c
      ∧ (c.setSummaryPending id summary).path = c.path := by
  by_cases h : c.id = id <;> simp [setSummaryPending, h, Columns.row]

theorem row_foldl_setVector (cols : Columns R τ) (c : ChunkRow R V) (rows : List (ℕ × V)) :
    cols.row (rows.foldl setVector c) = cols.row c ∧ (rows.foldl setVector c).path = c.path :=
  run_keeps (P := fun c' : ChunkRow R V => cols.row c' = cols.row c ∧ c'.path = c.path) setVector
    (fun c' row _ h => by
      have hset : cols.row (c'.setVector row) = cols.row c' ∧ (c'.setVector row).path = c'.path := by
        by_cases hid : c'.id = row.1 <;> simp [setVector, hid, Columns.row]
      exact ⟨hset.1.trans h.1, hset.2.trans h.2⟩)
    ⟨rfl, rfl⟩

end ChunkRow

/-! ## The view after a write -/

variable [Zero R] (ix : Indexer R V)

theorem view_upsertFile (db : Db R V) (row : FileRow) (path : String) :
    (db.upsertFile row).view cols path
      = onView cols path (db.view cols path) (.upsertFile row : Write R V) := by
  have hchunks : (db.upsertFile row).chunks = db.chunks := by
    unfold Db.upsertFile
    split <;> rfl
  have hedges : (db.upsertFile row).edges = db.edges := by
    unfold Db.upsertFile
    split <;> rfl
  rw [Db.view, fileHash_upsertFile, Db.chunksOf, Db.edgesOf, hchunks, hedges]
  by_cases hp : row.path = path <;> simp [onView, hp, Db.view, Db.chunksOf, Db.edgesOf]

theorem view_insertChunk (db : Db R V) (p : String) (c : StoredChunk) (path : String) :
    (db.insertChunk ix p c).view cols path
      = onView cols path (db.view cols path) (.insertChunk p c : Write R V) := by
  unfold Db.insertChunk
  cases hfile : db.fileRow p with
  | none =>
    have hnone : ¬ (p = path ∧ (db.view cols path).hash.isSome) := by
      rintro ⟨rfl, h⟩
      simp [Db.view, Db.fileHash, hfile] at h
    rw [onView, if_neg hnone]
  | some file =>
    have hpath : file.path = p := eq_of_beq (List.find?_some hfile :)
    show FileView.mk _ _ _ = _
    by_cases hp : p = path
    · have hhash : (db.view cols path).hash.isSome := by
        rw [← hp]
        simp [Db.view, Db.fileHash, hfile]
      rw [onView, if_pos ⟨hp, hhash⟩]
      congr 1
      simp [Db.view, Db.chunksOf, Db.newRow, hpath, hp, Columns.row]
    · rw [onView, if_neg (fun h => hp h.1)]
      congr 1
      simp [Db.chunksOf, Db.newRow, hpath, hp]

theorem view_apply (path : String) (db : Db R V) {w : Write R V} (hw : cols.Follows w) :
    (db.apply ix w).view cols path = onView cols path (db.view cols path) w := by
  -- one write at a time: of the path, of another one, or of what no file view shows
  cases w with
  | upsertFile row => exact view_upsertFile db row path
  | insertChunk p c => exact view_insertChunk ix db p c path
  | deleteEmbeddingsForFile p =>
    exact view_modifyChunks (fun c => c.forgetVector_id p)
      (fun c => (ChunkRow.row_forgetVector cols c p).2)
      (fun c => (ChunkRow.row_forgetVector cols c p).1) db path
  | deleteChunksForFile p =>
    have hchunks : (db.deleteChunksForFile p).chunksOf path
        = if p = path then [] else db.chunksOf path :=
      filter_filter_ne (fun c : ChunkRow R V => c.path) db.chunks p path
    show FileView.mk _ (((db.deleteChunksForFile p).chunksOf path).map cols.row) _ = _
    rw [hchunks, onView]
    by_cases hp : p = path
    · rw [if_pos hp, if_pos hp]
      rfl
    · rw [if_neg hp, if_neg hp]
      rfl
  | deleteEdgesOf p =>
    have hedges : (db.deleteEdgesOf p).edgesOf path = if p = path then [] else db.edgesOf path :=
      filter_filter_ne (fun e : Edge => e.sourceFile) db.edges p path
    show FileView.mk _ _ ((db.deleteEdgesOf p).edgesOf path) = _
    rw [hedges, onView]
    by_cases hp : p = path
    · rw [if_pos hp, if_pos hp]
      rfl
    · rw [if_neg hp, if_neg hp]
      rfl
  | insertEdge e =>
    have hedges : (db.insertEdge e).edgesOf path
        = if e.sourceFile = path then db.edgesOf path ++ [e] else db.edgesOf path := by
      show (db.edges ++ [e]).filter _ = _
      rw [List.filter_append]
      by_cases he : e.sourceFile = path <;> simp [he, Db.edgesOf]
    show FileView.mk _ _ ((db.insertEdge e).edgesOf path) = _
    rw [hedges, onView]
    by_cases he : e.sourceFile = path
    · rw [if_pos he, if_pos he]
      rfl
    · rw [if_neg he, if_neg he]
      rfl
  | deleteFileRow p =>
    show FileView.mk ((db.deleteFileRow p).fileHash path) _ _ = _
    rw [fileHash_deleteFileRow, onView]
    by_cases hp : p = path
    · rw [if_pos hp, if_pos hp]
      rfl
    · rw [if_neg hp, if_neg hp]
      rfl
  | clearReextractOwed => rfl
  | updateGraphRanks ranks =>
    have hfree : cols.RankFree := hw
    refine view_modifyChunks (fun c => c.foldl_setRank_id ranks)
      (fun c => (ChunkRow.foldl_setRank_toStoredChunk c ranks).2)
      (fun c => ?_) db path
    show cols.of _ _ = cols.of _ _
    rw [(ChunkRow.foldl_setRank_toStoredChunk c ranks).1]
    exact hfree _ _ _
  | updateChunkSummary id summary =>
    exact view_modifyChunks (fun c => c.setSummary_id id summary)
      (fun c => (ChunkRow.row_setSummary cols c id summary).2)
      (fun c => (ChunkRow.row_setSummary cols c id summary).1) db path
  | setSummaryAndMarkPending id summary =>
    exact view_modifyChunks (fun c => c.setSummaryPending_id id summary)
      (fun c => (ChunkRow.row_setSummaryPending cols c id summary).2)
      (fun c => (ChunkRow.row_setSummaryPending cols c id summary).1) db path
  | insertEmbeddings rows =>
    exact view_modifyChunks (fun c => c.foldl_setVector_id rows)
      (fun c => (ChunkRow.row_foldl_setVector cols c rows).2)
      (fun c => (ChunkRow.row_foldl_setVector cols c rows).1) db path

end Index
end Inkentry
