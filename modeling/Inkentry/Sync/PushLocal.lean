/-
  Inkentry.Sync.PushLocal

  One run of the push: the local rows are sent in chunks, and every row the
  server answers for as stored is stamped with the id it answered.  A run may
  die anywhere; it stops by itself at a chunk that is not answered.

  The server handles a batch as `Feed.pushMemoryBatch` does
  (`handleBatch_of_no_refusal`).  The client is written for servers that refuse
  single entries too, so an entry of a batch may be refused on its own here.

  Vectors, edges and anchor updates decide nothing of this and are left out.
  `log` and `heard` record what happened; no step reads them.
-/

import Inkentry.Lib.Lifetimes
import Inkentry.Lib.SplitQueue
import Inkentry.Sync.Round

namespace Inkentry
namespace Sync

open Memory Server Lifetimes SplitQueue

/-! ## The server -/

/-- The project on the server, with the rows of local entries that came and went. -/
structure Remote where
  feed : Feed
  log : List (Event String)

/-- What a server answers for an entry that it refuses on its own. -/
structure ItemRefusal where
  status : String
  id : Option String
  notStored : status ≠ "created" ∧ status ≠ "skipped"

/-- One entry of a batch as the server meets it: whether it is refused, and the id that
    would be minted for it. -/
structure PushSlot where
  refusal : Option ItemRefusal
  minted : SyncId
  item : BatchPushItem

/-- Stores the entries of a batch in order; no results when an insert fails, and what was
    stored before it stays. -/
def handleBatch (now : Int) : List PushSlot → Remote → Option (List BatchItemResult) × Remote
  | [], srv => (some [], srv)
  | slot :: rest, srv =>
    match slot.refusal with
    | some refusal =>
      let (results, srv') := handleBatch now rest srv
      (results.map (⟨refusal.status, slot.item.externalId, refusal.id⟩ :: ·), srv')
    | none =>
      match srv.feed.pushItem now slot.minted slot.item with
      | none => (none, srv)
      | some (result, f) =>
        let log := if result.status = "created" then srv.log ++ [.born slot.item.externalId]
          else srv.log
        let (results, srv') := handleBatch now rest ⟨f, log⟩
        (results.map (result :: ·), srv')

/-- The answer to a batch. -/
structure BatchPushResponse where
  created : ℕ
  skipped : ℕ
  failed : ℕ
  results : List BatchItemResult

def batchPushResponse (results : List BatchItemResult) : BatchPushResponse where
  created := results.countP fun r => r.status = "created"
  skipped := results.countP fun r => r.status = "skipped"
  failed := results.countP fun r => ¬ (r.status = "created" ∨ r.status = "skipped")
  results := results

/-- `DELETE memory/{id}`; an id that is not there is no error. -/
def Feed.deleteNote (f : Feed) (id : String) : Feed where
  entries := f.entries.filter fun e => e.id ≠ id
  idUnique := f.idUnique.sublist (List.filter_sublist.map _)
  externalUnique := f.externalUnique.sublist (List.filter_sublist.filterMap _)

def Remote.deleteNote (srv : Remote) (id : String) : Remote where
  feed := Feed.deleteNote srv.feed id
  log := srv.log ++ ((srv.feed.entries.filter fun e => e.id = id).filterMap
    ServerEntry.externalId).map .gone

/-! ## One chunk -/

structure PushState where
  store : Store
  remote : Remote
  /-- The results that reached the client. -/
  heard : List BatchItemResult

/-- The counts of a run. -/
structure Tally where
  created : ℕ
  skipped : ℕ
  failed : ℕ
  deriving DecidableEq

def Tally.total (t : Tally) : ℕ := t.created + t.skipped + t.failed

/-- Counts one result by its status. -/
def Tally.count (t : Tally) (r : BatchItemResult) : Tally :=
  if r.status = "created" then { t with created := t.created + 1 }
  else if r.status = "skipped" then { t with skipped := t.skipped + 1 }
  else { t with failed := t.failed + 1 }

/-- Counts an answer.  Its own counts are only for an answer without results. -/
def Tally.add (t : Tally) (res : BatchPushResponse) : Tally :=
  let t := if res.results.isEmpty then
      ⟨t.created + res.created, t.skipped + res.skipped, t.failed + res.failed⟩
    else t
  res.results.foldl Tally.count t

/-- Stamps the rows of a chunk that the results name; whether the store took them all. -/
def stampResults (chunk : List Note) : Store → List BatchItemResult → Store × Bool
  | s, [] => (s, true)
  | s, r :: rest =>
    match stampResult s chunk r with
    | some s' => stampResults chunk s' rest
    | none => (s, false)

/-- The id a row is sent with: with `force`, the one it was stamped with.  `none` when
    that is no UUIDv7, which a batch is rejected for. -/
def sentId (force : Bool) (n : Note) : Option (Option SyncId) :=
  match if force then n.remoteId else none with
  | none => some none
  | some id => if h : nilUuid < id then some (some ⟨id, h⟩) else none

/-- The entries of a chunk as they are sent. -/
def chunkItems (force : Bool) (chunk : List Note) : Option (List BatchPushItem) :=
  chunk.mapM fun n => (sentId force n).map fun id => { pushedRow n with id := id }

/-- What becomes of the request with a chunk. -/
inductive Delivery where
  /-- The process ends before it is sent. -/
  | unsent
  /-- The batch is rejected as a whole, or its request gets lost. -/
  | rejected (reason : String)
  /-- The server handles it.  `reason` is what the client is told when it gets no results,
      because an insert failed or the answer got lost; with them it may die after stamping
      some. -/
  | handled (now : Int) (minted : ℕ → SyncId) (refused : ℕ → Option ItemRefusal)
      (answered : Bool) (reason : String) (dies : Option ℕ)

inductive ChunkEnd where
  | died
  | interrupted (reason : String)
  | answered (res : BatchPushResponse)

/-- Sends a chunk, and stamps what it is answered. -/
def sendChunk (force : Bool) (chunk : List Note) (d : Delivery) (w : PushState) :
    PushState × ChunkEnd :=
  match d with
  | .unsent => (w, .died)
  | .rejected reason => (w, .interrupted reason)
  | .handled now minted refused answered reason dies =>
    match chunkItems force chunk with
    | none => (w, .interrupted reason)
    | some items =>
      let (results, remote) :=
        handleBatch now (items.mapIdx fun i item => ⟨refused i, minted i, item⟩) w.remote
      match results, answered with
      | some results, true =>
        let heard := w.heard ++ results
        match dies with
        | some k => (⟨(stampResults chunk w.store (results.take k)).1, remote, heard⟩, .died)
        | none =>
          match stampResults chunk w.store results with
          | (s, true) => (⟨s, remote, heard⟩, .answered (batchPushResponse results))
          | (s, false) => (⟨s, remote, heard⟩, .died)
      | _, _ => ({ w with remote := remote }, .interrupted reason)

/-! ## One run -/

/-- Sends the chunks in order, until one is not answered. -/
def pushChunks (force : Bool) (deliveries : ℕ → Delivery) :
    ℕ → List (List Note) → PushState → Tally → PushState × Option (Tally × Option String)
  | _, [], w, t => (w, some (t, none))
  | i, chunk :: rest, w, t =>
    match sendChunk force chunk (deliveries i) w with
    | (w', .died) => (w', none)
    | (w', .interrupted reason) => (w', some (t, some reason))
    | (w', .answered res) => pushChunks force deliveries (i + 1) rest w' (t.add res)

/-- What becomes of a delete: it goes through, or fails before or after the server has
    handled it. -/
inductive Deletion where
  | done
  | failed (handled : Bool)

/-- Deletes the entries in order; whether all went through. -/
def deleteRemotes (deletions : ℕ → Deletion) : ℕ → List String → Remote → Remote × Bool
  | _, [], srv => (srv, true)
  | i, id :: rest, srv =>
    match deletions i with
    | .done => deleteRemotes deletions (i + 1) rest (srv.deleteNote id)
    | .failed handled => (if handled then srv.deleteNote id else srv, false)

/-- The rows of the store, oldest first. -/
def rowsForSync (s : Store) (includeArchived : Bool) : List Note :=
  (s.rows.filter fun n => includeArchived || n.status = "active").insertionSort
    fun m n => m.createdAt ≤ n.createdAt

structure PushSummary where
  attempted : ℕ
  created : ℕ
  skipped : ℕ
  failed : ℕ
  alreadySynced : ℕ
  interrupted : Option String
  deriving DecidableEq

/-- What a run is asked for. -/
structure PushOptions where
  includeArchived : Bool
  force : Bool

/-- What becomes of the requests of a run. -/
structure PushFaults where
  deliveries : ℕ → Delivery
  deletions : ℕ → Deletion

/-- The rows a run sends. -/
def liveRows (o : PushOptions) (s : Store) : List Note :=
  (rowsForSync s o.includeArchived).filter fun n =>
    n.status ≠ "archived" && (o.force || n.remoteId.isNone)

/-- The entries a run deletes: those of archived rows that were synced. -/
def tombstones (o : PushOptions) (s : Store) : List String :=
  ((rowsForSync s o.includeArchived).filter fun n => n.status = "archived").filterMap Note.remoteId

/-- A run of the push; no summary when it dies or fails. -/
def pushLocalReporting (o : PushOptions) (faults : PushFaults) (w : PushState) :
    PushState × Option PushSummary :=
  let rows := rowsForSync w.store o.includeArchived
  if rows.isEmpty then (w, some ⟨0, 0, 0, 0, 0, none⟩)
  else
    let live := liveRows o w.store
    let alreadySynced :=
      if o.force then 0 else rows.countP fun n => n.status ≠ "archived" && n.remoteId.isSome
    match pushChunks o.force faults.deliveries 0 (chunks pushBatchChunkSize live) w ⟨0, 0, 0⟩ with
    | (w', none) => (w', none)
    | (w', some (t, interrupted)) =>
      let summary :=
        ⟨live.length, t.created, t.skipped, t.failed, alreadySynced, interrupted⟩
      if interrupted.isNone && o.includeArchived then
        match deleteRemotes faults.deletions 0 (tombstones o w.store) w'.remote with
        | (remote, true) => ({ w' with remote := remote }, some summary)
        | (remote, false) => ({ w' with remote := remote }, none)
      else (w', some summary)

/-! ## The server's batch -/

theorem handleBatch_of_no_refusal (now : Int) (items : List (SyncId × BatchPushItem))
    (srv : Remote) :
    (handleBatch now (items.map fun p => ⟨none, p.1, p.2⟩) srv).1
        = (srv.feed.pushMemoryBatch now items).1
      ∧ (handleBatch now (items.map fun p => ⟨none, p.1, p.2⟩) srv).2.feed
        = (srv.feed.pushMemoryBatch now items).2 := by
  induction items generalizing srv with
  | nil => exact ⟨rfl, rfl⟩
  | cons p rest ih =>
    obtain ⟨minted, item⟩ := p
    rw [List.map_cons, handleBatch, Feed.pushMemoryBatch]
    dsimp only
    cases hpush : srv.feed.pushItem now minted item with
    | none => exact ⟨rfl, rfl⟩
    | some stored =>
      obtain ⟨result, f⟩ := stored
      obtain ⟨hresults, hfeed⟩ := ih ⟨f, if result.status = "created"
        then srv.log ++ [.born item.externalId] else srv.log⟩
      exact ⟨congrArg (Option.map (result :: ·)) hresults, hfeed⟩

end Sync
end Inkentry
