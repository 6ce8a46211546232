/-
  Inkentry.Server.Batch

  The batch push of the team server: the project is registered, the entries that
  a live row already carries are looked up, and the others are inserted one by
  one.  Nothing opens a transaction, so every statement is committed by itself.

  The request is one that has passed validation; what validation reads and
  nothing later does (the model and precision tags of a pushed vector) is left
  out.  The text of an entry is embedded before the database is locked, and the
  outcome of that call is part of the request here.
-/

import Mathlib.Logic.Function.Basic
import Inkentry.Server.Projects

namespace Inkentry
namespace Server
namespace Batch

open Transaction

variable {Vec : Type*}

/-! ## The request -/

structure BatchNoteItem (Vec : Type*) where
  id : Option String
  kind : String
  title : String
  body : Option String
  externalId : String
  sourceCommit : Option String
  vector : Option Vec
  deriving DecidableEq, Repr

/-- What the embedder gave for the entries that came without a vector. -/
inductive StorageEmbedding (Vec : Type*) where
  | vectors (found : List Vec)
  | notReady
  | failed

/-- The server's vectors, in the places of the entries that need one. -/
def serverEmbeddings : List (BatchNoteItem Vec) → List Vec → List (Option Vec)
  | [], _ => []
  | entry :: rest, found =>
    if entry.vector.isSome then none :: serverEmbeddings rest found
    else
      match found with
      | [] => none :: serverEmbeddings rest []
      | v :: found => some v :: serverEmbeddings rest found

def StorageEmbedding.assign (entries : List (BatchNoteItem Vec)) :
    StorageEmbedding Vec → List (Option Vec)
  | .vectors found => serverEmbeddings entries found
  | .notReady => entries.map fun _ => none
  | .failed => entries.map fun _ => none

/-- An entry as the write loop meets it: its vector, the id minted for it should it need one,
    and how the statements of its insert end. -/
structure Slot (Vec : Type*) where
  item : BatchNoteItem Vec
  embedding : Option Vec
  minted : String
  faults : InsertFaults

/-- The id the entry is stored under: the client's, or a new one. -/
def Slot.syncId (slot : Slot Vec) : String := slot.item.id.getD slot.minted

/-- The row the entry asks for; its commit is folded into the tags. -/
def Slot.note (projectId : Nat) (now : Int) (slot : Slot Vec) : NewNote where
  projectId := projectId
  kind := slot.item.kind
  title := slot.item.title
  body := slot.item.body.getD ""
  tags := slot.item.sourceCommit.elim [] fun sha => ["git:" ++ sha]
  linkedFiles := []
  remoteId := some slot.item.externalId
  syncId := slot.syncId
  createdAt := now

structure Faults where
  registering : RegisterFaults
  lookup : Outcome
  inserting : Nat → InsertFaults

structure Push (Vec : Type*) where
  slug : String
  entries : List (BatchNoteItem Vec)
  embedded : StorageEmbedding Vec
  minted : Nat → String
  now : Int
  faults : Faults

/-- The entries with what the loop needs at each place. -/
def slotsFrom (minted : Nat → String) (faults : Nat → InsertFaults) :
    Nat → List (BatchNoteItem Vec) → List (Option Vec) → List (Slot Vec)
  | _, [], _ => []
  | i, entry :: rest, server =>
    ⟨entry, entry.vector.or server.head?.join, minted i, faults i⟩ ::
      slotsFrom minted faults (i + 1) rest server.tail

def Push.slots (push : Push Vec) : List (Slot Vec) :=
  slotsFrom push.minted push.faults.inserting 0 push.entries (push.embedded.assign push.entries)

/-! ## The response -/

inductive ItemStatus where
  | created
  | skipped
  deriving DecidableEq, Repr

structure BatchItemResult where
  status : ItemStatus
  externalId : String
  id : String
  embedded : Bool
  deriving DecidableEq, Repr

structure BatchPushResponse where
  created : Nat
  skipped : Nat
  failed : Nat
  results : List BatchItemResult
  deriving DecidableEq, Repr

/-! ## The write loop -/

structure ExistingNote where
  syncId : String
  hasEmbedding : Bool
  deriving DecidableEq, Repr

/-- The live row of the project that carries an external id. -/
def liveWith (projectId : Nat) (externalId : String) (n : NoteRow) : Bool :=
  n.projectId = projectId && n.status = "active" && n.remoteId = some externalId

/-- `find_by_remote_ids`, as a lookup by external id. -/
def findByRemoteIds (db : LinkedDb Vec) (projectId : Nat) (ids : List String) :
    String → Option ExistingNote := fun externalId =>
  if externalId ∈ ids then
    (db.notes.find? (liveWith projectId externalId)).map fun n =>
      ⟨n.syncId, db.embeddings.any fun e => e.1 = n.rowid⟩
  else none

/-- The variables of the loop. -/
structure Progress where
  existing : String → Option ExistingNote
  results : List BatchItemResult
  created : Nat
  skipped : Nat
  needsRepair : Bool

def pushSlot (projectId : Nat) (now : Int) (slot : Slot Vec) (s : Progress) :
    Sql (LinkedDb Vec) Progress :=
  match s.existing slot.item.externalId with
  | some found =>
    pure
      { s with
        results := s.results ++ [⟨.skipped, slot.item.externalId, found.syncId, found.hasEmbedding⟩]
        skipped := s.skipped + 1
        needsRepair := s.needsRepair || !found.hasEmbedding }
  | none => do
    let stored ← addNoteWithSyncId slot.faults (slot.note projectId now) slot.embedding
    pure
      { existing := Function.update s.existing slot.item.externalId
          (some ⟨stored.2, slot.embedding.isSome⟩)
        results := s.results ++
          [⟨.created, slot.item.externalId, stored.2, slot.embedding.isSome⟩]
        created := s.created + 1
        skipped := s.skipped
        needsRepair := s.needsRepair || slot.embedding.isNone }

def pushSlots (projectId : Nat) (now : Int) : List (Slot Vec) → Progress → Sql (LinkedDb Vec) Progress
  | [], s => pure s
  | slot :: rest, s => do
    let s ← pushSlot projectId now slot s
    pushSlots projectId now rest s

/-- The dimension and the model the server is configured with. -/
structure Config where
  embeddingDim : Nat
  embeddingModel : String

/-- The handler, with whether it raises the repair signal. -/
def pushMemoryBatch (cfg : Config) (push : Push Vec) :
    Sql (LinkedDb Vec) (BatchPushResponse × Bool) := do
  let project ← upsertProject push.faults.registering push.slug cfg.embeddingDim cfg.embeddingModel
  let existing ← Sql.statement push.faults.lookup (Write.read fun db =>
    findByRemoteIds db project.id (push.entries.map BatchNoteItem.externalId))
  let s ← pushSlots project.id push.now push.slots ⟨existing, [], 0, 0, false⟩
  pure (⟨s.created, s.skipped, 0, s.results⟩, s.needsRepair)

theorem regular_pushSlot (projectId : Nat) (now : Int) (slot : Slot Vec) (s : Progress) :
    Regular (pushSlot projectId now slot s) := by
  unfold pushSlot
  split
  · exact regular_pure _
  · exact (regular_addNoteWithSyncId _ _ _).bind fun _ => regular_pure _

theorem regular_pushSlots (projectId : Nat) (now : Int) (slots : List (Slot Vec)) (s : Progress) :
    Regular (pushSlots projectId now slots s) := by
  induction slots generalizing s with
  | nil => exact regular_pure _
  | cons slot rest ih => exact (regular_pushSlot _ _ _ _).bind fun s => ih s

end Batch
end Server
end Inkentry
