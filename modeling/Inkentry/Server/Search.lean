/-
  Inkentry.Server.Search

  Vector search on the team server: `search_notes`, `search_notes_for_conflicts`
  and `find_candidates`.  Each takes the nearest vectors of the whole server and
  then keeps the rows of one project that the query is after.

  The index returns the nearest vectors, equally near ones in table order.
-/

import Inkentry.Candidates
import Inkentry.Lib.NearestCut
import Inkentry.Server.Db

namespace Inkentry
namespace Server

open OrderLimit

variable {Vec D : Type*} [LinearOrder D]

/-- How many hits the candidate pool fetches. -/
def CANDIDATE_POOL : Nat := 20

/-- A stored vector by its distance to the query. -/
def toQuery (distance : Vec → Vec → D) (query : Vec) (e : Nat × Vec) : D := distance query e.2

/-- `SELECT note_id, distance FROM note_embeddings WHERE embedding MATCH .. AND k = ..`. -/
def ServerDb.knn (distance : Vec → Vec → D) (db : ServerDb Vec) (query : Vec) (k : Nat) :
    List (Nat × Vec) :=
  orderLimit (toQuery distance query) k db.embeddings

/-- `JOIN notes n ON n.id = k.note_id WHERE ..`. -/
def ServerDb.joins (db : ServerDb Vec) (cond : NoteRow → Bool) (e : Nat × Vec) : Bool :=
  (db.row? e.1).any cond

/-- `n.project_id = ? AND n.status = 'active'`. -/
def activeIn (projectId : Nat) (n : NoteRow) : Bool :=
  n.projectId = projectId && n.status = "active"

/-- The same, with `AND n.id != ?`; no rowid is excluded where the source passes -1. -/
def activeExcept (projectId : Nat) (excludeRowid : Option Nat) (n : NoteRow) : Bool :=
  activeIn projectId n && excludeRowid ≠ some n.rowid

/-! ## What a search returns -/

/-- An entry as it is read back, with its successor's identity. -/
structure ServerNote (D : Type*) where
  id : String
  kind : String
  title : String
  body : String
  tags : List String
  linkedFiles : List String
  createdAt : Int
  status : String
  supersededBy : Option String
  remoteId : Option String
  distance : Option D
  deriving DecidableEq

/-- `LEFT JOIN notes s ON s.id = n.superseded_by`. -/
def ServerDb.successorId (db : ServerDb Vec) (n : NoteRow) : Option String :=
  (n.supersededBy.bind db.row?).map NoteRow.syncId

/-- `row_to_note_with_distance`. -/
def ServerDb.toNote (db : ServerDb Vec) (n : NoteRow) (d : D) : ServerNote D where
  id := n.syncId
  kind := n.kind
  title := n.title
  body := n.body
  tags := n.tags
  linkedFiles := n.linkedFiles
  createdAt := n.createdAt
  status := n.status
  supersededBy := db.successorId n
  remoteId := n.remoteId
  distance := some d

/-- The nearest of the server's vectors, then the project's active rows among them. -/
def ServerDb.searchNotes (distance : Vec → Vec → D) (db : ServerDb Vec) (projectId : Nat)
    (query : Vec) (limit : Nat) : List (ServerNote D) :=
  (sortBy (toQuery distance query)
      ((db.knn distance query (min limit 100)).filter (db.joins (activeIn projectId)))).filterMap
    fun e => (db.row? e.1).map fun n => db.toNote n (distance query e.2)

/-- A near-duplicate of an entry just written. -/
structure ConflictCandidate (D : Type*) where
  rowid : Nat
  id : String
  title : String
  distance : D
  deriving DecidableEq

/-- The rows within a distance of the query, the one just written left out. -/
def ServerDb.conflictCond (distance : Vec → Vec → D) (db : ServerDb Vec) (projectId : Nat)
    (query : Vec) (maxDistance : D) (excludeRowid : Nat) (e : Nat × Vec) : Bool :=
  db.joins (activeExcept projectId (some excludeRowid)) e && distance query e.2 ≤ maxDistance

/-- The index is asked for one more than the limit, for the row just written. -/
def ServerDb.searchNotesForConflicts (distance : Vec → Vec → D) (db : ServerDb Vec)
    (projectId : Nat) (query : Vec) (maxDistance : D) (excludeRowid limit : Nat) :
    List (ConflictCandidate D) :=
  ((sortBy (toQuery distance query)
      ((db.knn distance query (min limit 50 + 1)).filter
        (db.conflictCond distance projectId query maxDistance excludeRowid))).take
      (min limit 50)).filterMap
    fun e => (db.row? e.1).map fun n => ⟨n.rowid, n.syncId, n.title, distance query e.2⟩

/-- A row as a hit of the candidate pool. -/
def NoteRow.toHit (n : NoteRow) (d : D) : CandidateHit D :=
  ⟨n.syncId, n.kind, n.title, n.createdAt, some d⟩

/-- The pre-write candidates; without an embedding there are none. -/
def ServerDb.findCandidates (distance : Vec → Vec → D) (floors : Floors D) (db : ServerDb Vec)
    (projectId : Nat) (embedding : Option Vec) (excludeRowid : Option Nat) : List (Candidate D) :=
  match embedding with
  | none => []
  | some vec =>
    classifyCandidates floors
      ((sortBy (toQuery distance vec)
        ((db.knn distance vec CANDIDATE_POOL).filter
          (db.joins (activeExcept projectId excludeRowid)))).filterMap
        fun e => (db.row? e.1).map fun n => n.toHit (distance vec e.2)) [] none

end Server
end Inkentry
