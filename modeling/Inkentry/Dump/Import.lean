/-
  Inkentry.Dump.Import

  Applying a dump that has been read to the stores it is for: memory entries to
  the memory store, projects to the registry, recorded commands to the table of
  the index database.

  Each store is a file of its own.  `apply` opens a transaction on each, writes
  every entity and then every relationship into the working copies
  (`OpenWrites`), commits the three in order, and then counts the entries that
  have no embedding.  A step of all this can fail for reasons of its own, a full
  disk or a held lock: `Attempt.fails` says which do.

  An attempt also brings what the dump does not: identities for entries that
  carry none, ids for projects, the clock.
-/

import Inkentry.Lib.Pass
import Inkentry.Dump.Reader
import Inkentry.Memory.Store

namespace Inkentry
namespace PortableDump

open Memory Pass

/-! ## The stores -/

/-- What the memory store's file holds: its rows and edges, when each edge was
    recorded, and which rows have a vector. -/
@[ext] structure MemoryTables where
  store : Store
  edgeTimes : List (MemoryEdge × Int)
  embedded : List NoteId

/-- A row of `projects`. -/
structure RegisteredProject where
  id : Nat
  rootPath : String
  dbPath : String
  registeredAt : Int
  deriving DecidableEq, Repr

/-- The project registry. -/
@[ext] structure Registry where
  projects : List RegisteredProject
  /-- A project and one it depends on. -/
  deps : List (Nat × Nat)
  idUnique : (projects.map RegisteredProject.id).Nodup
  rootUnique : (projects.map RegisteredProject.rootPath).Nodup

def Registry.empty : Registry := ⟨[], [], List.nodup_nil, List.nodup_nil⟩

/-- A row of `usage`. -/
structure UsageRow where
  command : String
  calledAt : Int
  deriving DecidableEq, Repr

/-- The index database, as far as recorded commands go. -/
inductive IndexDb where
  | notSupplied
  | noTable
  | usage (rows : List UsageRow)
  deriving DecidableEq, Repr

/-- What an import writes to.  The registry may be one that could not be opened. -/
structure Stores where
  memory : MemoryTables
  registry : Option Registry
  indexDb : IndexDb

/-! ## An attempt -/

/-- The points at which an import can fail for reasons of its own; an entity and a
    relationship go by their position. -/
inductive Step where
  | openUsage
  | beginMemory
  | beginRegistry
  | beginUsage
  | insert (i : Nat)
  | relate (j : Nat)
  | commitMemory
  | commitRegistry
  | commitUsage
  | count
  deriving DecidableEq, Repr

/-- What one run of the import meets. -/
structure Attempt where
  fails : Step → Bool
  /-- The identity made up for the entry at a position. -/
  uuidV7At : Nat → NoteId
  /-- The id the registry gives a project that is new to it. -/
  projectId : Nat → Nat
  memoryClock : Step → Int
  registryClock : Step → Int

inductive ApplyError where
  /-- The dump carries projects and the registry could not be opened. -/
  | noRegistry
  | noIndexDatabase
  | noUsageTable
  | failed (step : Step)
  | uuidTaken (uuid : String)
  | remoteIdTaken (remoteId : String)
  | identityTaken
  /-- A linked file outside the project. -/
  | pathRefused (path : String)
  | duplicateProjectId (id : Nat)
  /-- A relationship between entities that cannot have it. -/
  | inconsistent (kind : String)
  deriving DecidableEq, Repr

/-- A step that may fail. -/
def Attempt.reach (a : Attempt) (step : Step) : Except ApplyError Unit :=
  if a.fails step then .error (.failed step) else .ok ()

/-- The functions an import is given: those of the reader, and those of the store. -/
structure ApplyEnv extends ReaderEnv where
  normalizeTag : String → Option String
  linkPath : String → Option String
  /-- Whether a path leaves the project. -/
  escapes : String → Bool

def ApplyEnv.store (env : ApplyEnv) : StoreEnv := ⟨env.sha256, env.normalizeTag, env.linkPath⟩

/-- A linked file that is not blank and leaves the project. -/
def ApplyEnv.refuses (env : ApplyEnv) (path : String) : Bool :=
  (env.linkPath path).isSome && env.escapes path

/-! ## Writing to the memory store -/

/-- `ActorKind::parse`, the text trimmed. -/
def parseActorKind (text : String) : Option ActorKind :=
  match String.ofList ((text.toList.dropWhile isWhitespace).reverse.dropWhile isWhitespace).reverse with
  | "human" => some .human
  | "agent" => some .agent
  | "harvest" => some .harvest
  | "unknown" => some .unknown
  | _ => none

/-- An origin from its three columns; none without an actor kind that is known. -/
def Origin.fromParts (actorKind tool model : Option String) : Option Origin :=
  (actorKind.bind parseActorKind).map fun kind => ⟨kind, tool, model⟩

def MemoryEntry.origin (e : MemoryEntry) : Option Origin :=
  Origin.fromParts e.originActorKind e.originTool e.originModel

/-- The row an entry becomes, before its tags and files are attached. -/
def MemoryEntry.row (env : ApplyEnv) (uuid : NoteId) (e : MemoryEntry) : Note where
  id := uuid
  entityId := e.convergenceKey env.sha256
  kind := e.kind
  title := e.title
  body := e.body
  tags := []
  linkedFiles := []
  createdAt := e.createdAt
  status := e.status.getD "active"
  supersededBy := none
  sourceRef := e.sourceRef
  validAt := e.validAt
  invalidAt := e.invalidAt
  remoteId := e.remoteId
  origin := none

/-- Which identity of a row the store holds already. -/
def identityAlreadyTaken (s : Store) (n : Note) : ApplyError :=
  if s.hasNote n.id then .uuidTaken n.id.token
  else
    match n.remoteId with
    | some remoteId =>
      if (s.noteIdForRemoteId remoteId).isSome then .remoteIdTaken remoteId else .identityTaken
    | none => .identityTaken

/-- Inserts a row as the dump described it, or attaches tags and files to the one with
    its convergence key; `(id, created)` and the store.  An origin goes to a new row only. -/
def importEntry (env : ApplyEnv) (s : Store) (n : Note) (tags linkedFiles : List String)
    (origin : Option Origin) : Except ApplyError (NoteId × Bool × Store) :=
  match s.insertOrRecover env.store n tags linkedFiles with
  | none => .error (identityAlreadyTaken s n)
  | some (id, created, s') =>
    match linkedFiles.find? env.refuses with
    | some path => .error (.pathRefused path)
    | none =>
      match created, origin with
      | true, some o => .ok (id, true, s'.setOrigin id o)
      | _, _ => .ok (id, created, s')

/-- `INSERT OR IGNORE INTO memory_edges`, with the time the dump recorded; whether a row
    was added. -/
def MemoryTables.importEdge (t : MemoryTables) (e : MemoryEdge) (createdAt : Option Int)
    (now : Int) : Bool × MemoryTables :=
  if e ∈ t.store.edges then (false, t)
  else (true, { t with
    store := t.store.insertEdge e
    edgeTimes := t.edgeTimes ++ [(e, createdAt.getD now)] })

/-- The active entries without a vector. -/
def MemoryTables.notesMissingEmbeddings (t : MemoryTables) : List NoteId :=
  (t.store.rows.filter fun n => n.status = "active" && n.id ∉ t.embedded).map Note.id

/-! ## Writing to the registry -/

/-- A path with one more component. -/
def joinPath (base leaf : String) : String :=
  if base.isEmpty then leaf
  else if base.toList.getLast? = some '/' then base ++ leaf
  else base ++ "/" ++ leaf

/-- The row of a root. -/
def Registry.projectAt? (r : Registry) (rootPath : String) : Option RegisteredProject :=
  r.projects.find? fun p => p.rootPath = rootPath

/-- `UPDATE projects SET db_path = ..` on the row of a root. -/
def Registry.setDbPath (r : Registry) (rootPath dbPath : String) : Registry where
  projects := r.projects.map fun p => if p.rootPath = rootPath then { p with dbPath } else p
  deps := r.deps
  idUnique := by
    rw [List.map_map]
    convert r.idUnique using 2
    funext p
    by_cases hp : p.rootPath = rootPath <;> simp [hp]
  rootUnique := by
    rw [List.map_map]
    convert r.rootUnique using 2
    funext p
    by_cases hp : p.rootPath = rootPath <;> simp [hp]

/-- `INSERT INTO projects`; `none` when the id or the root is taken. -/
def Registry.insertProject (r : Registry) (p : RegisteredProject) : Option Registry :=
  if h : p.id ∉ r.projects.map RegisteredProject.id
      ∧ p.rootPath ∉ r.projects.map RegisteredProject.rootPath then
    some
      { projects := r.projects ++ [p]
        deps := r.deps
        idUnique := by
          rw [List.map_append, List.map_singleton]
          exact r.idUnique.append (List.nodup_singleton _) (by simpa using h.1)
        rootUnique := by
          rw [List.map_append, List.map_singleton]
          exact r.rootUnique.append (List.nodup_singleton _) (by simpa using h.2) }
  else none

/-- Registers a project or updates the one at its root; its id. -/
def Registry.register (r : Registry) (newId : Nat) (now : Int) (rootPath dbPath : String) :
    Except ApplyError (Nat × Registry) :=
  match r.projectAt? rootPath with
  | some p => .ok (p.id, r.setDbPath rootPath dbPath)
  | none =>
    match r.insertProject ⟨newId, rootPath, dbPath, now⟩ with
    | some r' => .ok (newId, r')
    | none => .error (.duplicateProjectId newId)

/-- `INSERT OR IGNORE INTO project_deps`. -/
def Registry.addDep (r : Registry) (project dep : Nat) : Registry :=
  if (project, dep) ∈ r.deps then r else { r with deps := r.deps ++ [(project, dep)] }

/-! ## Entities -/

/-- What the user is shown.  The counts of the carrier are the caller's to fill in. -/
structure ImportSummary where
  memoryEntries : Nat
  memoryEntriesMerged : Nat
  memoryEntriesAlreadyPresent : Nat
  memoryEdges : Nat
  supersedeLinks : Nat
  projects : Nat
  projectDependencies : Nat
  commandUsages : Nat
  entriesNeedingEmbedding : Nat
  deriving DecidableEq, Repr

/-- The summary before anything is written. -/
def ImportSummary.start (merged : Nat) : ImportSummary := ⟨0, merged, 0, 0, 0, 0, 0, 0, 0⟩

structure ImportOutcome where
  summary : ImportSummary
  /-- The dump's entries as the git-notes carrier records them. -/
  carrierRecords : List NoteRecord
  deriving DecidableEq, Repr

/-- The working copies of the stores that are written to; a registry that could not be
    opened and a usage table the dump does not need are not among them. -/
@[ext] structure OpenWrites where
  memory : MemoryTables
  registry : Option Registry
  usage : Option (List UsageRow)

/-- Where an entity landed; `carrier` is the position of its carrier record. -/
inductive Landed where
  | memory (id : NoteId) (carrier : Nat)
  | project (id : Nat)
  | commandUsage
  deriving DecidableEq, Repr

/-- What the two loops write to. -/
structure Progress where
  writes : OpenWrites
  summary : ImportSummary
  carrierRecords : List NoteRecord

/-- The carrier's record of an entry; the offset keeps one import's ids apart. -/
def carrierRecord (env : ApplyEnv) (now : Int) (e : MemoryEntry) (offset : Nat) : NoteRecord where
  schemaVersion := 1
  id := now + offset
  kind := e.kind
  title := e.title
  body := e.body
  tags := e.tags
  linkedFiles := e.linkedFiles
  createdAt := e.createdAt
  status := e.status.getD "active"
  sourceRef := e.sourceRef
  validAt := e.validAt
  invalidAt := e.invalidAt
  supersededBy := none
  remoteId := e.remoteId
  entityId := some (e.convergenceKey env.sha256)
  supersededByEntityId := none
  edges := []
  origin := e.origin
  op := none
  patchId := none

/-- The identity an entry is inserted with. -/
def MemoryEntry.uuidOr (e : MemoryEntry) (minted : NoteId) : NoteId :=
  (e.uuid.map NoteId.mk).getD minted

/-- Inserts the entity at a position.  A dump with projects or recorded commands is not
    imported without a place for them. -/
def insertEntity (env : ApplyEnv) (a : Attempt) (i : Nat) (e : Entity) (p : Progress) :
    Except ApplyError (Landed × Progress) := do
  a.reach (.insert i)
  match e with
  | .memoryEntry m =>
    let row := m.row env (m.uuidOr (a.uuidV7At i))
    let (id, created, store) ←
      importEntry env p.writes.memory.store row m.tags m.linkedFiles m.origin
    let carrier := p.carrierRecords.length
    return (.memory id carrier,
      { writes := { p.writes with memory := { p.writes.memory with store } }
        summary :=
          if created then { p.summary with memoryEntries := p.summary.memoryEntries + 1 }
          else { p.summary with
            memoryEntriesAlreadyPresent := p.summary.memoryEntriesAlreadyPresent + 1 }
        carrierRecords := p.carrierRecords
          ++ [carrierRecord env (a.memoryClock (.insert i)) m carrier] })
  | .project q =>
    match p.writes.registry with
    | none => .error .noRegistry
    | some r =>
      -- the store path is derived from the root, never carried
      let (id, r') ← r.register (a.projectId i) (a.registryClock (.insert i)) q.rootPath
        (joinPath (joinPath q.rootPath ".inkentry") "index.db")
      return (.project id,
        { p with
          writes := { p.writes with registry := some r' }
          summary := { p.summary with projects := p.summary.projects + 1 } })
  | .commandUsage u =>
    match p.writes.usage with
    | none => .error .noUsageTable
    | some rows =>
      return (.commandUsage,
        { p with
          writes := { p.writes with usage := some (rows ++ [⟨u.command, u.calledAt⟩]) }
          summary := { p.summary with commandUsages := p.summary.commandUsages + 1 } })

/-- Inserts the entities in order; where each landed. -/
def insertEntities (env : ApplyEnv) (a : Attempt) (entities : List Entity) (p : Progress) :
    Except ApplyError (List Landed × Progress) :=
  pass (insertEntity env a) 0 entities p

/-! ## Relationships -/

/-- The entity a carrier record names itself by. -/
def recordEntity (env : ApplyEnv) (records : List NoteRecord) (i : Nat) : Option String :=
  records[i]?.map fun r => r.resolveEntityId env.sha256

/-- Records the relationship at a position. -/
def insertRelationship (env : ApplyEnv) (a : Attempt) (j : Nat) (kind : RelationshipKind)
    (source target : Landed) (createdAt : Option Int) (p : Progress) :
    Except ApplyError Progress := do
  a.reach (.relate j)
  match kind, source, target with
  | .dependsOn, .project project, .project dep =>
    match p.writes.registry with
    | none => .error .noRegistry
    | some r =>
      return { p with
        writes := { p.writes with registry := some (r.addDep project dep) }
        summary := { p.summary with projectDependencies := p.summary.projectDependencies + 1 } }
  | .supersedes, .memory successor sCarrier, .memory predecessor pCarrier =>
    let tables := (p.writes.memory.importEdge ⟨successor, predecessor, kind.asStr⟩ createdAt
      (a.memoryClock (.relate j))).2
    return { p with
      -- the column is the inverse of the edge, and is set whatever the row's status
      writes := { p.writes with
        memory := { tables with store := tables.store.setSupersededBy predecessor successor } }
      summary := { p.summary with
        memoryEdges := p.summary.memoryEdges + 1
        supersedeLinks := p.summary.supersedeLinks + 1 }
      carrierRecords := p.carrierRecords.modify pCarrier fun r =>
        { r with supersededByEntityId := recordEntity env p.carrierRecords sCarrier } }
  | .relatesTo, .memory x xCarrier, .memory y yCarrier
  | .contradicts, .memory x xCarrier, .memory y yCarrier =>
    return { p with
      writes := { p.writes with
        memory := (p.writes.memory.importEdge ⟨x, y, kind.asStr⟩ createdAt
          (a.memoryClock (.relate j))).2 }
      summary := { p.summary with memoryEdges := p.summary.memoryEdges + 1 }
      carrierRecords := p.carrierRecords.modify xCarrier fun r =>
        { r with edges := r.edges ++ ((recordEntity env p.carrierRecords yCarrier).map
            (CarriedEdge.mk kind.asStr)).toList } }
  | _, _, _ => .error (.inconsistent kind.asStr)

/-- Looks up where both ends landed, and records the relationship. -/
def insertResolved (env : ApplyEnv) (a : Attempt) (landed : List Landed) (j : Nat)
    (r : ResolvedRelationship) (p : Progress) : Except ApplyError (Unit × Progress) :=
  match landed[r.source]?, landed[r.target]? with
  | some source, some target => do
    let p' ← insertRelationship env a j r.kind source target r.createdAt p
    return ((), p')
  -- a position outside the dump, an index out of bounds
  | _, _ => .error (.inconsistent r.kind.asStr)

/-- Records the relationships in order. -/
def insertRelationships (env : ApplyEnv) (a : Attempt) (landed : List Landed)
    (relationships : List ResolvedRelationship) (p : Progress) : Except ApplyError Progress := do
  let (_, p') ← pass (insertResolved env a landed) 0 relationships p
  return p'

/-! ## Transactions -/

def Entity.isProject : Entity → Bool
  | .project _ => true
  | _ => false

def Entity.isCommandUsage : Entity → Bool
  | .commandUsage _ => true
  | _ => false

def Dump.needsRegistry (d : Dump) : Bool := d.entities.any Entity.isProject

def Dump.needsUsage (d : Dump) : Bool := d.entities.any Entity.isCommandUsage

/-- Opens the table recorded commands go to. -/
def openUsageStore (a : Attempt) : IndexDb → Except ApplyError (List UsageRow)
  | .notSupplied => .error .noIndexDatabase
  | .noTable => do
    a.reach .openUsage
    .error .noUsageTable
  | .usage rows => do
    a.reach .openUsage
    return rows

/-- Both preconditions, checked before anything is opened for writing; the usage table
    where the dump needs one. -/
def preconditions (a : Attempt) (d : Dump) (s : Stores) :
    Except ApplyError (Option (List UsageRow)) := do
  if d.needsRegistry && s.registry.isNone then .error .noRegistry
  if d.needsUsage then
    let rows ← openUsageStore a s.indexDb
    return some rows
  else return none

/-- Begins a transaction on every store that is written to. -/
def OpenWrites.begin (a : Attempt) (s : Stores) (usage : Option (List UsageRow)) :
    Except ApplyError OpenWrites := do
  a.reach .beginMemory
  if s.registry.isSome then a.reach .beginRegistry
  if usage.isSome then a.reach .beginUsage
  return ⟨s.memory, s.registry, usage⟩

/-- Everything up to the commits, in the open transactions. -/
def writeAll (env : ApplyEnv) (a : Attempt) (d : Dump) (open' : OpenWrites) :
    Except ApplyError Progress := do
  let (landed, p) ← insertEntities env a d.entities
    ⟨open', ImportSummary.start d.mergedMemoryEntries, []⟩
  insertRelationships env a landed d.relationships p

/-- Commits the memory store, then the registry, then the usage table.  What a commit
    that fails leaves uncommitted, and everything after it, is rolled back. -/
def OpenWrites.commit (a : Attempt) (w : OpenWrites) (s : Stores) :
    Stores × Except ApplyError Unit :=
  if a.fails .commitMemory then (s, .error (.failed .commitMemory))
  else
    let s := { s with memory := w.memory }
    if s.registry.isSome && a.fails .commitRegistry then (s, .error (.failed .commitRegistry))
    else
      let s := { s with registry := w.registry }
      match w.usage with
      | none => (s, .ok ())
      | some rows =>
        if a.fails .commitUsage then (s, .error (.failed .commitUsage))
        else ({ s with indexDb := .usage rows }, .ok ())

/-- Everything an import does before it commits. -/
def write (env : ApplyEnv) (a : Attempt) (d : Dump) (s : Stores) : Except ApplyError Progress := do
  let usage ← preconditions a d s
  let open' ← OpenWrites.begin a s usage
  writeAll env a d open'

/-- Imports a dump: what the stores hold afterwards, and the outcome. -/
def apply (env : ApplyEnv) (a : Attempt) (d : Dump) (s : Stores) :
    Stores × Except ApplyError ImportOutcome :=
  match write env a d s with
  | .error e => (s, .error e)
  | .ok p =>
    match p.writes.commit a s with
    | (s', .error e) => (s', .error e)
    | (s', .ok ()) =>
      -- the stores are committed by now, whatever becomes of the count
      if a.fails .count then (s', .error (.failed .count))
      else (s', .ok
        { summary := { p.summary with
            entriesNeedingEmbedding := s'.memory.notesMissingEmbeddings.length }
          carrierRecords := p.carrierRecords })

end PortableDump
end Inkentry
