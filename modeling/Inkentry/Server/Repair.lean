/-
  Inkentry.Server.Repair

  The background pass that gives stored entries their missing vectors.  It reads
  a page of rows under the lock, embeds their texts without it, and writes the
  vectors back under the lock, row by row where a batch fails; a cursor moves
  past every row read, embedded or not.

  Everybody else who holds the lock in between may leave the tables as they
  please, so whatever is inserted, archived, deleted or embedded meanwhile is a
  label with the tables it leaves.  A turn of the pass brings what it meets: the
  embedder's answer and the statements that fail.
-/

import Inkentry.Lib.OrderLimit
import Inkentry.Lib.Runs
import Inkentry.Server.Batch

namespace Inkentry
namespace Server

open Batch (StorageEmbedding)

variable {Vec : Type*}

/-! ## The tables -/

/-- The tables, with rowids of an `i64`; a rowid is handed out once. -/
structure RepairDb (Vec : Type*) extends LinkedDb Vec where
  rowidMax : ∀ n ∈ notes, n.rowid ≤ 9223372036854775807

structure VectorlessNote where
  rowid : ℕ
  title : String
  body : String
  deriving DecidableEq

/-- The row is active and has no vector. -/
def ServerDb.Missing (db : ServerDb Vec) (rowid : ℕ) : Prop :=
  (∃ n ∈ db.notes, n.rowid = rowid ∧ n.status = "active") ∧ rowid ∉ db.embeddings.map Prod.fst

instance (db : ServerDb Vec) (rowid : ℕ) : Decidable (db.Missing rowid) :=
  inferInstanceAs (Decidable (_ ∧ _))

/-- A limit is cast to an `i64`, and a negative `LIMIT` is none. -/
def sqlLimit {α : Type*} (limit : ℕ) (rows : List α) : List α :=
  if limit < 9223372036854775808 then rows.take limit else rows

def ServerDb.notesMissingEmbeddings (db : ServerDb Vec) (afterRowid limit : ℕ) :
    List VectorlessNote :=
  let rows := db.notes.filter fun n =>
    n.status = "active" ∧ afterRowid < n.rowid ∧ n.rowid ∉ db.embeddings.map Prod.fst
  (sqlLimit limit (OrderLimit.sortBy NoteRow.rowid rows)).map fun n => ⟨n.rowid, n.title, n.body⟩

/-- The insert of a vector is guarded; whether anything was written. -/
def RepairDb.insertEmbeddingIfMissing (db : RepairDb Vec) (rowid : ℕ) (v : Vec) :
    RepairDb Vec × Bool :=
  if h : db.Missing rowid then
    ({ toLinkedDb := db.insertVector rowid v
        ⟨let ⟨n, hn, hid, _⟩ := h.1; List.mem_map.mpr ⟨n, hn, hid⟩, h.2⟩
       rowidMax := db.rowidMax }, true)
  else (db, false)

/-! ## The embedder -/

/-- What a call meets: whether a backend is ready, whether the call is admitted, and what the
    backend answers. -/
structure EmbedCall (Vec : Type*) where
  ready : Bool
  admitted : Bool
  answer : List String → Option (List Vec)

/-- No result is a full admission queue. -/
def embedForStorage (call : EmbedCall Vec) (texts : List String) : Option (StorageEmbedding Vec) :=
  if texts = [] then some (.vectors [])
  else if call.ready = false then some .notReady
  else if call.admitted = false then none
  else
    match call.answer texts with
    | none => some .failed
    | some vs => if vs.length = texts.length then some (.vectors vs) else some .failed

def storageEmbeddingText (note : VectorlessNote) : String :=
  "title: " ++ note.title ++ " | text: " ++ note.body

/-! ## The pass -/

structure RepairStats where
  scanned : ℕ
  repaired : ℕ
  failed : ℕ
  stoppedEarly : Bool
  stoppedSaturated : Bool
  deriving DecidableEq

/-- Where the pass stands; between any two of these everybody else may hold the lock. -/
inductive Phase (Vec : Type*) where
  | reading
  | embedding (page : List VectorlessNote)
  | retrying (page : List VectorlessNote) (out : List (Option Vec))
  | writing (page : List VectorlessNote) (vectors : List (Option Vec))
  | finished (ok : Bool)

structure Sweep (Vec : Type*) where
  db : RepairDb Vec
  stats : RepairStats
  cursor : ℕ
  phase : Phase Vec

def Sweep.start (db : RepairDb Vec) : Sweep Vec := ⟨db, ⟨0, 0, 0, false, false⟩, 0, .reading⟩

/-- What one turn of the pass meets. -/
structure Turn (Vec : Type*) where
  readFails : Bool
  call : EmbedCall Vec
  writeFails : ℕ → Bool

/-- The writes of a page, under one guard; whether all statements went through. -/
def storeVectors (writeFails : ℕ → Bool) (db : RepairDb Vec) (stats : RepairStats) :
    List (VectorlessNote × Option Vec) → RepairDb Vec × RepairStats × Bool
  | [] => (db, stats, true)
  | (_, none) :: rest => storeVectors writeFails db { stats with failed := stats.failed + 1 } rest
  | (note, some v) :: rest =>
    if writeFails note.rowid then (db, stats, false)
    else
      let (db', written) := db.insertEmbeddingIfMissing note.rowid v
      storeVectors writeFails db'
        (if written then { stats with repaired := stats.repaired + 1 } else stats) rest

namespace Sweep

/-- An early end: the embedder is not ready, or the admission queue is full. -/
def stop (s : Sweep Vec) (saturated : Bool) : Sweep Vec :=
  { s with
    stats := { s.stats with
      stoppedEarly := true
      stoppedSaturated := saturated }
    phase := .finished true }

/-- The page has its vectors. -/
def embedded (s : Sweep Vec) (page : List VectorlessNote) (vectors : List (Option Vec)) : Sweep Vec :=
  { s with
    stats := { s.stats with scanned := s.stats.scanned + page.length }
    phase := .writing page vectors }

def turn (pageSize : ℕ) (s : Sweep Vec) (t : Turn Vec) : Sweep Vec :=
  match s.phase with
  | .reading =>
    if t.readFails then { s with phase := .finished false }
    else
      let page := s.db.notesMissingEmbeddings s.cursor (max pageSize 1)
      match page.getLast? with
      | none => { s with phase := .finished true }
      | some last => { s with cursor := last.rowid, phase := .embedding page }
  | .embedding page =>
    match embedForStorage t.call (page.map storageEmbeddingText) with
    | none => s.stop true
    | some .notReady => s.stop false
    | some .failed => { s with phase := .retrying page [] }
    | some (.vectors vs) => s.embedded page (vs.map some)
  | .retrying page out =>
    match page[out.length]? with
    | none => s.embedded page out
    | some note =>
      match embedForStorage t.call [storageEmbeddingText note] with
      | none => s.stop true
      | some .notReady => s.stop false
      | some .failed => { s with phase := .retrying page (out ++ [none]) }
      | some (.vectors vs) => { s with phase := .retrying page (out ++ [vs.getLast?]) }
  | .writing page vectors =>
    let (db, stats, ok) := storeVectors t.writeFails s.db s.stats (page.zip vectors)
    { s with
      db := db
      stats := stats
      phase := if ok then .reading else .finished false }
  | .finished _ => s

end Sweep

/-- A turn of the pass, or somebody else's hold of the lock and the tables it leaves. -/
inductive RepairLabel (Vec : Type*) where
  | turn (t : Turn Vec)
  | others (db : RepairDb Vec)

def Sweep.step (pageSize : ℕ) (s : Sweep Vec) : RepairLabel Vec → Sweep Vec
  | .turn t => s.turn pageSize t
  | .others db => { s with db := db }

end Server
end Inkentry
