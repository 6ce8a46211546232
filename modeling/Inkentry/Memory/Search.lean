/-
  Inkentry.Memory.Search

  Semantic search over the local store: the `note_embeddings` table beside the
  rows, the query that cuts it to the nearest vectors and then joins and
  filters, and what is built on that query: the pre-write candidates, harvest's
  duplicate check and the near-duplicate metric.

  The vector index is a virtual table; what it promises is the field
  `Knn.isNearest`, and how it breaks ties is left open.  Distances are any
  linear order, and so are the floors they are compared with.  The title match
  is a full-text query, whose hits enter as an argument.
-/

import Inkentry.Candidates
import Inkentry.Lib.NearestCut
import Inkentry.Memory.Sync
import Mathlib.Data.Prod.Lex

namespace Inkentry
namespace Memory

open OrderLimit NearestCut

variable {Vec D : Type*} [LinearOrder D]

/-- The vector index: `SELECT note_id, distance .. MATCH query AND k = ..`. -/
structure Knn (Vec D : Type*) [LinearOrder D] where
  distance : Vec → Vec → D
  nearest : Vec → Nat → List (NoteId × Vec) → List (NoteId × D)
  isNearest : ∀ query k table, (table.map Prod.fst).Nodup →
    IsNearest Prod.snd k (table.map fun e => (e.1, distance query e.2)) (nearest query k table)

/-- The index that measures every vector and sorts. -/
def Knn.scan (distance : Vec → Vec → D) : Knn Vec D where
  distance := distance
  nearest query k table :=
    orderLimit Prod.snd k (table.map fun e => (e.1, distance query e.2))
  isNearest query k table hkeys := by
    refine isNearest_orderLimit (fun _ _ h => h) k (List.Nodup.of_map Prod.fst ?_)
    rw [List.map_map]
    exact hkeys

/-! ## The embedded store -/

/-- A store and its vectors: at most one for a row, and none without a row. -/
structure EmbeddedStore (Vec : Type*) where
  store : Store
  vectors : List (NoteId × Vec)
  vectorUnique : (vectors.map Prod.fst).Nodup
  rowsExist : ∀ e ∈ vectors, store.hasNote e.1 = true

def EmbeddedStore.empty : EmbeddedStore Vec := ⟨Store.empty, [], List.nodup_nil, by simp⟩

/-- The same vectors beside rows that were rewritten or added to. -/
def EmbeddedStore.withStore (s : EmbeddedStore Vec) (store : Store) (h : s.store.Keeps store) :
    EmbeddedStore Vec where
  store := store
  vectors := s.vectors
  vectorUnique := s.vectorUnique
  rowsExist e he := h.hasNote (s.rowsExist e he)

/-- A write to the rows; archiving and superseding are among them, and no write
    takes a vector away. -/
def EmbeddedStore.write (env : StoreEnv) (s : EmbeddedStore Vec) (op : LocalWrite) :
    EmbeddedStore Vec :=
  s.withStore (applyWrite env s.store op) (keeps_applyWrite env s.store op)

/-- Deletes a row's vector and inserts the new one; an error without the row. -/
def EmbeddedStore.insertEmbedding (s : EmbeddedStore Vec) (id : NoteId) (blob : Vec) :
    Option (EmbeddedStore Vec) :=
  if h : s.store.hasNote id = true then
    some
      { store := s.store
        vectors := s.vectors.filter (fun e => e.1 ≠ id) ++ [(id, blob)]
        vectorUnique := by
          rw [List.map_append, List.map_singleton]
          refine (s.vectorUnique.sublist (List.filter_sublist.map _)).append
            (List.nodup_singleton _) ?_
          rw [List.disjoint_singleton]
          intro hmem
          obtain ⟨e, he, hid⟩ := List.mem_map.mp hmem
          exact absurd hid (by simpa using (List.mem_filter.mp he).2)
        rowsExist := by
          intro e he
          rcases List.mem_append.mp he with hold | hnew
          · exact s.rowsExist e (List.mem_of_mem_filter hold)
          · rw [List.mem_singleton.mp hnew]
            exact h }
  else none

def EmbeddedStore.getEmbedding (s : EmbeddedStore Vec) (id : NoteId) : Option Vec :=
  (s.vectors.find? fun e => e.1 = id).map Prod.snd

/-! ## Adding and reindexing -/

/-- What follows an insert: the vector, when the embedder gave one, and on a new
    row the origin.  A vector that cannot be stored ends the command. -/
def EmbeddedStore.finishAdd (s : EmbeddedStore Vec) (id : NoteId) (created : Bool)
    (embedding : Option Vec) (origin : Option Origin) : EmbeddedStore Vec :=
  match embedding.elim (some s) (s.insertEmbedding id), created, origin with
  | none, _, _ => s
  | some s', true, some o =>
    s'.withStore (s'.store.setOrigin id o) (s'.store.keeps_edit (originEdit o) _)
  | some s', _, _ => s'

/-- Adds an entry. -/
def EmbeddedStore.add (env : StoreEnv) (s : EmbeddedStore Vec) (uuid : NoteId) (now : Int)
    (input : RowInput) (embedding : Option Vec) (origin : Option Origin) : EmbeddedStore Vec :=
  match s.store.addNote env uuid now input with
  | some (id, created, _) =>
    (s.write env (.add uuid now input)).finishAdd id created embedding origin
  | none => s

/-- Adds an entry in place of an active one. -/
def EmbeddedStore.addSuperseding (env : StoreEnv) (s : EmbeddedStore Vec) (uuid : NoteId)
    (now sqlNow : Int) (input : RowInput) (oldId : NoteId) (embedding : Option Vec)
    (origin : Option Origin) : EmbeddedStore Vec :=
  match s.store.addNoteSuperseding env uuid now sqlNow input oldId with
  | some (id, created, _) =>
    (s.write env (.addSuperseding uuid now sqlNow input oldId)).finishAdd id created embedding
      origin
  | none => s

/-- Active rows, and archived ones when asked for. -/
def EmbeddedStore.reembedRows (s : EmbeddedStore Vec) (includeArchived : Bool) : List Note :=
  s.store.rows.filter fun n => includeArchived || n.status = "active"

/-- Those of them without a vector. -/
def EmbeddedStore.notesMissingEmbeddings (s : EmbeddedStore Vec) (includeArchived : Bool) :
    List Note :=
  (s.reembedRows includeArchived).filter fun n => (s.getEmbedding n.id).isNone

/-- The text an entry's vector is made from. -/
def embedDocument (n : Note) : String := "title: " ++ n.title ++ " | text: " ++ n.body

/-- Embeds the candidates one after the other, and stops at the first failure. -/
def EmbeddedStore.reindexRows (embedText : String → Option Vec) :
    EmbeddedStore Vec → List Note → EmbeddedStore Vec
  | s, [] => s
  | s, n :: rest =>
    match embedText (embedDocument n) with
    | none => s
    | some blob =>
      match s.insertEmbedding n.id blob with
      | none => s
      | some s' => s'.reindexRows embedText rest

/-- `memory reindex`, with its `--force` and `--include-archived`. -/
def EmbeddedStore.reindex (s : EmbeddedStore Vec) (embedText : String → Option Vec)
    (force includeArchived : Bool) : EmbeddedStore Vec :=
  s.reindexRows embedText
    (if force then s.reembedRows includeArchived else s.notesMissingEmbeddings includeArchived)

/-! ## Search -/

/-- A row as a search returns it, with its distance to the query. -/
structure Hit (D : Type*) where
  note : Note
  distance : D

/-- `JOIN notes n ON n.id = k.note_id`. -/
def EmbeddedStore.join (s : EmbeddedStore Vec) (k : NoteId × D) : Option (Hit D) :=
  (s.store.row? k.1).map fun n => ⟨n, k.2⟩

/-- Active, or, at an instant, valid at it whatever the status is now. -/
def liveAt : Option Int → Note → Bool
  | some ts, n => n.validAt.getD n.createdAt ≤ ts && n.invalidAt.all fun t => ts < t
  | none, n => n.status = "active"

/-- `ORDER BY k.distance, n.uuid`. -/
def Hit.key (h : Hit D) : D ×ₗ String := toLex (h.distance, h.note.id.token)

/-- The rows of the `k` nearest vectors. -/
def EmbeddedStore.knnRows (knn : Knn Vec D) (s : EmbeddedStore Vec) (query : Vec) (k : Nat) :
    List (Hit D) :=
  (knn.nearest query k s.vectors).filterMap s.join

def MAX_SEARCH_LIMIT : Nat := 100

/-- Semantic KNN search: the cut first, then the filter. -/
def EmbeddedStore.search (knn : Knn Vec D) (s : EmbeddedStore Vec) (query : Vec) (limit : Nat)
    (asOf : Option Int) : List (Hit D) :=
  sortBy Hit.key
    ((s.knnRows knn query (min limit MAX_SEARCH_LIMIT)).filter fun h => liveAt asOf h.note)

/-! ## Candidates -/

def Hit.toCandidateHit (h : Hit D) : CandidateHit D :=
  ⟨h.note.id.token, h.note.kind, h.note.title, h.note.createdAt, some h.distance⟩

/-- A title match as a hit. -/
def titleHit (n : Note) : CandidateHit D := ⟨n.id.token, n.kind, n.title, n.createdAt, none⟩

/-- How many hits each source puts in the pool. -/
def CANDIDATE_POOL : Nat := 20

/-- The pre-write candidates; `titleMatches` is what the title query found. -/
def EmbeddedStore.findCandidates (knn : Knn Vec D) (floors : Floors D) (s : EmbeddedStore Vec)
    (embedding : Option Vec) (titleMatches : List Note) (excludeId : Option NoteId) :
    List (Candidate D) :=
  let vectorHits := match embedding with
    | some blob => s.search knn blob CANDIDATE_POOL none
    | none => []
  classifyCandidates floors (vectorHits.map Hit.toCandidateHit) (titleMatches.map titleHit)
    (excludeId.map NoteId.token)

/-! ## Harvest and the metric -/

/-- Whether the nearest entry is a duplicate. -/
def isDuplicateBand (floors : Floors D) (top : Hit D) : Bool :=
  match classifyCandidates floors [top.toCandidateHit] [] none with
  | c :: _ => c.band = .duplicate
  | [] => false

/-- Whether harvest skips an entry as too similar to one that is there. -/
def EmbeddedStore.harvestSkips (knn : Knn Vec D) (floors : Floors D) (s : EmbeddedStore Vec)
    (blob : Vec) : Bool :=
  match s.search knn blob 1 none with
  | top :: _ => isDuplicateBand floors top
  | [] => false

structure NearDuplicateRate where
  numerator : Nat
  denominator : Nat
  excludedWithoutVector : Nat
  deriving DecidableEq, Repr

/-- The active entries with a vector, each with it. -/
def EmbeddedStore.withVector (s : EmbeddedStore Vec) : List (Note × Vec) :=
  (s.store.rows.filter fun n => n.status = "active").filterMap fun n =>
    (s.getEmbedding n.id).map fun blob => (n, blob)

def NEAR_DUPLICATE_K : Nat := 5

/-- A hit that counts an entry as having a near-duplicate. -/
def isNearDuplicateOf (threshold : D) (n : Note) (nb : Hit D) : Bool :=
  nb.note.id ≠ n.id && nb.distance < threshold

/-- Active entries that have another one within the threshold. -/
def EmbeddedStore.nearDuplicateRate (knn : Knn Vec D) (threshold : D) (s : EmbeddedStore Vec) :
    NearDuplicateRate where
  numerator := s.withVector.countP fun e =>
    (s.search knn e.2 NEAR_DUPLICATE_K none).any (isNearDuplicateOf threshold e.1)
  denominator := s.withVector.length
  excludedWithoutVector := (s.store.rows.filter fun n => n.status = "active").countP fun n =>
    (s.getEmbedding n.id).isNone

end Memory
end Inkentry
