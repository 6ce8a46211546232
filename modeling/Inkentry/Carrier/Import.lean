/-
  Inkentry.Carrier.Import

  The import of the git-notes ref into the local store, which a read runs when
  the ref has moved.  The entries are listed, those whose content the store has
  are left out, the rest are inserted, the carried edges are applied, and the
  ref's OID is recorded in the same transaction.

  The listing returns the newest entries up to a cap, and the recorded OID makes
  later reads skip the ref; `importComplete_iff` says when nothing is left
  behind.  The pieces the import reads from git are arguments of
  `importIntoMemory`, since another process can append between two of them.
-/

import Inkentry.GitNotes.Repo
import Inkentry.Lib.OrderLimit
import Inkentry.Memory.Store

namespace Inkentry
namespace Carrier

open OrderLimit GitNotes Memory

/-! ## Listing the ref -/

/-- Hard cap on the entries a listing returns. -/
def GIT_NOTES_MAX_LIST : Nat := 500

/-- How many entries an import lists. -/
def GIT_NOTES_IMPORT_LIMIT : Nat := 500

/-- The archived and point-in-time gate; with `asOf` set the window alone decides. -/
def recordInWindow (includeArchived : Bool) (asOf : Option Int) (r : NoteRecord) : Bool :=
  match asOf with
  | some ts => r.validAt.getD r.createdAt ≤ ts && !r.invalidAt.any fun t => t ≤ ts
  | none => includeArchived || r.status ≠ "archived"

/-- The newest folded entries that pass the filters, oldest first. -/
def collect (sha : String → String) (repo : Repo) (kindFilter : Option String)
    (includeArchived : Bool) (asOf : Option Int) (limit : Nat) : List Note :=
  let folded := sortBy NoteRecord.createdAt ((repo.foldedRecords sha).filter fun r =>
    kindFilter.all (fun k => r.kind = k) && recordInWindow includeArchived asOf r)
  (folded.drop (folded.length - limit)).map (recordToNote sha)

/-- The notes are read up to this schema version; a newer line fails the read. -/
def readable (repo : Repo) : Bool := repo.recordsWithCommit.all fun p => p.2.schemaVersion ≤ 1

/-- `GitNotesBackend::list`. -/
def list (sha : String → String) (repo : Repo) (kindFilter : Option String) (limit : Nat)
    (includeArchived : Bool) (asOf : Option Int) : Option (List Note) :=
  if readable repo then
    some (collect sha repo kindFilter includeArchived asOf (min limit GIT_NOTES_MAX_LIST))
  else none

/-- What an import lists: archived entries too. -/
def listForImport (sha : String → String) (repo : Repo) : Option (List Note) :=
  list sha repo none GIT_NOTES_IMPORT_LIMIT true none

/-- Every outgoing edge on the ref with the entity it starts from. -/
def carriedEdges (sha : String → String) (repo : Repo) : Option (List (String × CarriedEdge)) :=
  if readable repo then
    some ((repo.foldedRecords sha).flatMap fun r =>
      r.edges.map fun edge => (r.resolveEntityId sha, edge))
  else none

/-- Every supersede on the ref: the entity, and the entity that replaced it. -/
def carriedSupersedeEdges (sha : String → String) (repo : Repo) :
    Option (List (String × String)) :=
  if readable repo then
    some ((repo.foldedRecords sha).filterMap fun r =>
      r.supersededByEntityId.map fun successor => (r.resolveEntityId sha, successor))
  else none

/-! ## Writing rows and edges -/

/-- The functions an import is given: those of a store, and which linked paths leave
    the project and so fail the write. -/
structure ImportEnv extends StoreEnv where
  escapes : String → Bool

/-- The row an imported entry becomes; its validity window is not carried over. -/
def importedRow (env : StoreEnv) (uuid : NoteId) (n : Note) : Note :=
  { freshRow env uuid n.createdAt
      ⟨n.kind, n.title, n.body, n.tags, n.linkedFiles, some "init:git-notes", none⟩ with
    status := if n.status = "archived" then "archived" else "active" }

/-- `add_note_with_created_at`; `none` is an error. -/
def addNoteWithCreatedAt (env : ImportEnv) (s : Store) (uuid : NoteId) (n : Note) : Option Store :=
  if n.linkedFiles.any fun p => (env.linkPath p).isSome && env.escapes p then none
  else
    (s.insertOrRecover env.toStoreEnv (importedRow env.toStoreEnv uuid n) n.tags
      n.linkedFiles).map fun r => r.2.2

/-- Inserts the entries in order; `mint` gives the ids. -/
def importNotes (env : ImportEnv) (mint : Nat → NoteId) : Nat → Store → List Note → Option Store
  | _, s, [] => some s
  | i, s, n :: rest =>
    (addNoteWithCreatedAt env s (mint i) n).bind fun s' => importNotes env mint (i + 1) s' rest

/-- What applying a batch of carried edges did. -/
structure CarriedEdgeImport where
  applied : Nat
  alreadyPresent : Nat
  unresolved : Nat
  deriving DecidableEq, Repr

/-- Applies one edge between two entities, if both have rows. -/
def applyEdge (kind : String) (fromEntity toEntity : String) (acc : CarriedEdgeImport × Store) :
    CarriedEdgeImport × Store :=
  match acc.2.rowForEntity? fromEntity, acc.2.rowForEntity? toEntity with
  | some source, some target =>
    if (⟨source.id, target.id, kind⟩ : MemoryEdge) ∈ acc.2.edges then
      ({ acc.1 with alreadyPresent := acc.1.alreadyPresent + 1 }, acc.2)
    else
      ({ acc.1 with applied := acc.1.applied + 1 },
        acc.2.insertEdge ⟨source.id, target.id, kind⟩)
  | _, _ => ({ acc.1 with unresolved := acc.1.unresolved + 1 }, acc.2)

/-- Applies the edges of the two kinds the carrier defines. -/
def importCarriedEdges (s : Store) (edges : List (String × CarriedEdge)) :
    CarriedEdgeImport × Store :=
  edges.foldl (fun acc e =>
    if e.2.kind = "relates_to" ∨ e.2.kind = "contradicts" then
      applyEdge e.2.kind e.1 e.2.toEntityId acc
    else acc) (⟨0, 0, 0⟩, s)

/-- Applies the supersedes, each from the successor to the entry it replaced.  One
    whose two ends are the same row is passed over. -/
def importSupersedeEdges (s : Store) (pairs : List (String × String)) :
    CarriedEdgeImport × Store :=
  pairs.foldl (fun acc p =>
    match acc.2.rowForEntity? p.2, acc.2.rowForEntity? p.1 with
    | some source, some target =>
      if source.id = target.id then acc else applyEdge "supersedes" p.2 p.1 acc
    | _, _ => applyEdge "supersedes" p.2 p.1 acc) (⟨0, 0, 0⟩, s)

/-! ## The import -/

/-- The store's file: its tables, and the OIDs of the last merge and the last import. -/
structure MemoryDb (Oid : Type*) where
  store : Store
  lastMergedTrackingOid : Option Oid
  lastImportedWorkingOid : Option Oid

def MemoryDb.fresh {Oid : Type*} : MemoryDb Oid := ⟨Store.empty, none, none⟩

/-- What an import reports. -/
structure GitNotesImport where
  imported : Nat
  edgesApplied : Nat
  edgesUnresolved : Nat
  supersedeEdgesApplied : Nat
  supersedeEdgesUnresolved : Nat
  deriving DecidableEq, Repr

def GitNotesImport.nothing : GitNotesImport := ⟨0, 0, 0, 0, 0⟩

/-- The listed entries whose content is not in the list of identities, each identity
    once. -/
def newEntries (sha : String → String) : List String → List Note → List Note
  | _, [] => []
  | existing, n :: rest =>
    if noteEntityId sha n ∈ existing then newEntries sha existing rest
    else n :: newEntries sha (noteEntityId sha n :: existing) rest

section

variable {Oid : Type*}

/-- The contents a store has, as identities. -/
def knownContents (sha : String → String) (db? : Option (MemoryDb Oid)) : List String :=
  (db?.getD .fresh).store.rows.map (noteEntityId sha)

/-- What the store does with what was read from git, and with the contents it knew.  A
    store that is not there is created when there is an entry to import. -/
def importIntoMemory (env : ImportEnv) (mint : Nat → NoteId) (notes : List Note)
    (workingOid : Option Oid) (existing : List String) (carried : List (String × CarriedEdge))
    (supersedes : List (String × String)) (db? : Option (MemoryDb Oid)) :
    Option (GitNotesImport × Option (MemoryDb Oid)) :=
  if notes = [] then
    some (.nothing, db?.map fun db => { db with lastImportedWorkingOid := workingOid })
  else
    let db := db?.getD .fresh
    let toImport := newEntries env.sha existing notes
    if toImport = [] ∧ carried = [] ∧ supersedes = [] then
      some (.nothing, some { db with lastImportedWorkingOid := workingOid })
    else
      (importNotes env mint 0 db.store toImport).map fun s =>
        let (edges, s') := importCarriedEdges s carried
        let (supersedeEdges, s'') := importSupersedeEdges s' supersedes
        (⟨toImport.length, edges.applied, edges.unresolved, supersedeEdges.applied,
            supersedeEdges.unresolved⟩,
          some { db with store := s'', lastImportedWorkingOid := workingOid })

/-- An import that nothing interrupts: every read sees the same ref. -/
def importGitNotesIntoMemory (env : ImportEnv) (mint : Nat → NoteId) (repo : Repo)
    (workingOid : Option Oid) (db? : Option (MemoryDb Oid)) :
    Option (GitNotesImport × Option (MemoryDb Oid)) :=
  (listForImport env.sha repo).bind fun notes =>
    (carriedEdges env.sha repo).bind fun carried =>
      (carriedSupersedeEdges env.sha repo).bind fun supersedes =>
        importIntoMemory env mint notes workingOid (knownContents env.sha db?) carried supersedes
          db?

end

end Carrier
end Inkentry
