/-
  Inkentry.Memory.Reconcile

  `memory reconcile`: the rows a local server holds for a project are brought
  into the memory store.

  Rows with one content collapse into one entry before anything is written; an
  entry the store holds already only gets their tags and files, and the others
  are imported, the oldest first, in one transaction.  Succession is a row id of
  the server, so it crosses as a pair of entities (`buildSupersedeEdges`), one
  successor for each.  Embeddings are computed beside the rows and are left out.
-/

import Mathlib.Algebra.Order.Ring.Nat
import Inkentry.Memory.DedupeRun

namespace Inkentry
namespace Memory
namespace Reconcile

open OrderLimit SortedSet

/-! ## Candidates -/

/-- A row of the server; its id and successor are row ids there. -/
structure ServerNote where
  id : Int
  kind : String
  title : String
  body : String
  tags : List String
  linkedFiles : List String
  createdAt : Int
  status : String
  supersededBy : Option Int
  deriving DecidableEq

def ServerNote.entityId (sha : String → String) (c : ServerNote) : String :=
  Inkentry.entityId sha c.kind c.title c.body

def ServerNote.isArchived (c : ServerNote) : Bool := c.status = "archived"

/-- The project's rows, as they are read. -/
structure Candidates where
  rows : List ServerNote
  idUnique : (rows.map ServerNote.id).Nodup

/-- What rows of one content fold into. -/
structure MergedNote where
  entityId : String
  kind : String
  title : String
  body : String
  tags : List String
  linkedFiles : List String
  createdAt : Int
  status : String
  sourceRows : Nat
  deriving DecidableEq

def MergedNote.fromServer (entityId : String) (c : ServerNote) : MergedNote where
  entityId := entityId
  kind := c.kind
  title := c.title
  body := c.body
  tags := c.tags
  linkedFiles := c.linkedFiles
  createdAt := c.createdAt
  status := c.status
  sourceRows := 1

def pushNew (list : List String) (x : String) : List String := if x ∈ list then list else list ++ [x]

def MergedNote.absorb (m : MergedNote) (c : ServerNote) : MergedNote :=
  { m with
    tags := c.tags.foldl pushNew m.tags
    linkedFiles := c.linkedFiles.foldl pushNew m.linkedFiles
    status := if c.isArchived then "archived" else m.status
    createdAt := min m.createdAt c.createdAt
    sourceRows := m.sourceRows + 1 }

/-- Folds a row into the entry of its entity, or makes one for it. -/
def collapseStep (sha : String → String) (merged : List MergedNote) (c : ServerNote) :
    List MergedNote :=
  if merged.any fun m => m.entityId = c.entityId sha then
    merged.map fun m => if m.entityId = c.entityId sha then m.absorb c else m
  else merged ++ [.fromServer (c.entityId sha) c]

def collapseCandidates (sha : String → String) (candidates : List ServerNote) : List MergedNote :=
  candidates.foldl (collapseStep sha) []

/-- The candidate that a row is superseded by. -/
def successor? (candidates : List ServerNote) (c : ServerNote) : Option ServerNote :=
  c.supersededBy.bind fun id => candidates.find? fun d => d.id = id

/-- The first successor that is found for an entity stays. -/
def pushEdge (sha : String → String) (candidates : List ServerNote)
    (edges : List (String × String)) (c : ServerNote) : List (String × String) :=
  match successor? candidates c with
  | some succ =>
    if edges.any fun e => e.1 = c.entityId sha then edges
    else edges ++ [(c.entityId sha, succ.entityId sha)]
  | none => edges

def buildSupersedeEdges (sha : String → String) (candidates : List ServerNote) :
    List (String × String) := candidates.foldl (pushEdge sha candidates) []

/-- The value of a map's key. -/
def lookup {β : Type*} (map : List (String × β)) (key : String) : Option β :=
  (map.find? fun e => e.1 = key).map Prod.snd

/-! ## The import -/

/-- The oldest row with some content. -/
def entityToLocal (sha : String → String) (s : Store) (entity : String) : Option NoteId :=
  (s.allNotesForDedup.find? fun n => noteEntityId sha n = entity).map Note.id

def importedRow (env : StoreEnv) (uuid : NoteId) (m : MergedNote) : Note :=
  { freshRow env uuid m.createdAt ⟨m.kind, m.title, m.body, [], [], some "reconcile:server.db", none⟩ with
    status := if m.status = "archived" then "archived" else "active" }

/-- Ids that are minted for rows, none of them in the store. -/
structure FreshIds (s : Store) where
  mint : Nat → NoteId
  distinct : ∀ i j, mint i = mint j → i = j
  fresh : ∀ i, mint i ∉ s.rows.map Note.id

/-- The entries one after the other, from the id at a position on; `none` is an error, and
    the transaction is rolled back. -/
def importBatch (env : DedupeEnv) (mint : Nat → NoteId) :
    Nat → List MergedNote → Store → Option (List NoteId × Store)
  | _, [], s => some ([], s)
  | i, m :: rest, s =>
    if m.linkedFiles.any env.refuses then none
    else
      (s.insertOrRecover env.toStoreEnv (importedRow env.toStoreEnv (mint i) m) m.tags
        m.linkedFiles).bind fun (id, _, s') =>
          (importBatch env mint (i + 1) rest s').map fun (ids, s'') => (id :: ids, s'')

/-- Tags and files joined to an entry that is held already, up to a path that is refused. -/
def mergePresent (env : DedupeEnv) (held : String → Option NoteId) (s : Store) (m : MergedNote) :
    Store :=
  match held m.entityId with
  | some id => s.attachTagsAndFiles env.toStoreEnv id m.tags
      (m.linkedFiles.takeWhile fun f => !env.refuses f)
  | none => s

/-- One imported entry's successor; the number of those that are not found. -/
def linkImported (edges : List (String × String)) (toLocal : String → Option NoteId)
    (acc : Nat × Store) (m : MergedNote × NoteId) : Nat × Store :=
  if m.1.status ≠ "archived" then acc
  else
    match lookup edges m.1.entityId with
    | none => acc
    | some entity =>
      match toLocal entity with
      | none => (acc.1 + 1, acc.2)
      | some id => if id = m.2 then acc else (acc.1, acc.2.setSupersededBy m.2 id)

structure ReconcileSummary where
  candidates : Nat
  alreadyPresent : Nat
  collapsedDuplicates : Nat
  imported : Nat
  wouldImport : Nat
  skippedArchivedSupersedeUnresolved : Nat
  errors : List String
  deriving DecidableEq

/-- The entries to import, the oldest first. -/
def toImport (sha : String → String) (s : Store) (candidates : List ServerNote) : List MergedNote :=
  sortBy MergedNote.createdAt
    ((collapseCandidates sha candidates).filter fun m => (entityToLocal sha s m.entityId).isNone)

/-- The entries that are held already. -/
def present (sha : String → String) (s : Store) (candidates : List ServerNote) : List MergedNote :=
  (collapseCandidates sha candidates).filter fun m => (entityToLocal sha s m.entityId).isSome

def reconcileProject (env : DedupeEnv) (s : Store) (ids : FreshIds s) (candidates : Candidates)
    (dryRun : Bool) : ReconcileSummary × Store :=
  let held := entityToLocal env.sha s
  let imports := toImport env.sha s candidates.rows
  let summary : ReconcileSummary := ⟨candidates.rows.length,
    ((present env.sha s candidates.rows).map MergedNote.sourceRows).sum,
    (imports.map fun m => m.sourceRows - 1).sum, 0, 0, 0, []⟩
  if dryRun then ({ summary with wouldImport := imports.length }, s)
  else
    let s₁ := (present env.sha s candidates.rows).foldl (mergePresent env held) s
    if imports = [] then (summary, s₁)
    else
      match importBatch env ids.mint 0 imports s₁ with
      | none => ({ summary with errors := ["import_transaction"] }, s₁)
      | some (importedIds, s₂) =>
        let imported := imports.zip importedIds
        let toLocal (entity : String) : Option NoteId :=
          (lookup (imported.map fun m => (m.1.entityId, m.2)) entity).or (held entity)
        let linked := imported.foldl
          (linkImported (buildSupersedeEdges env.sha candidates.rows) toLocal) (0, s₂)
        ({ summary with
            imported := importedIds.length
            skippedArchivedSupersedeUnresolved := linked.1 }, linked.2)

/-! ## What an import is for -/

/-- The candidates with some content. -/
def group (sha : String → String) (candidates : List ServerNote) (entity : String) :
    List ServerNote := candidates.filter fun c => c.entityId sha = entity

/-- The entities that the rows of a group name as successors, in order. -/
def successorEntities (sha : String → String) (candidates : List ServerNote) (entity : String) :
    List String :=
  (group sha candidates entity).filterMap fun c =>
    (successor? candidates c).map fun d => d.entityId sha

/-- A row is what a group is imported as. -/
structure ImportedFrom (env : DedupeEnv) (candidates : List ServerNote) (rows : List Note)
    (entity : String) (n : Note) : Prop where
  tags : ∀ t, t ∈ n.tags
    ↔ ∃ c ∈ group env.sha candidates entity, ∃ u ∈ c.tags, env.normalizeTag u = some t
  linkedFiles : ∀ f, f ∈ n.linkedFiles
    ↔ ∃ c ∈ group env.sha candidates entity, ∃ u ∈ c.linkedFiles, env.linkPath u = some f
  linked : (∃ e ∈ successorEntities env.sha candidates entity, e ≠ entity) →
    ∃ e ∈ successorEntities env.sha candidates entity, e ≠ entity ∧
      ∃ n' ∈ rows, noteEntityId env.sha n' = e ∧ n.supersededBy = some n'.id

/-- The counts partition the candidates, and every content that the store does not hold is
    imported once, with what its rows have between them. -/
structure CollapseHolds (env : DedupeEnv) (s : Store) (ids : FreshIds s) (candidates : Candidates) :
    Prop where
  counts : (reconcileProject env s ids candidates false).1.candidates
    = (reconcileProject env s ids candidates false).1.alreadyPresent
      + (reconcileProject env s ids candidates false).1.collapsedDuplicates
      + (reconcileProject env s ids candidates false).1.imported
  once : ∀ c ∈ candidates.rows, entityToLocal env.sha s (c.entityId env.sha) = none →
    ∃ n, (reconcileProject env s ids candidates false).2.rows.filter
        (fun n => noteEntityId env.sha n = c.entityId env.sha) = [n]
      ∧ ImportedFrom env candidates.rows (reconcileProject env s ids candidates false).2.rows
        (c.entityId env.sha) n

/-- The candidates that an import goes right for. -/
structure Importable (env : DedupeEnv) (s : Store) (candidates : List ServerNote) : Prop where
  /-- No linked file of an entry to import is refused. -/
  inside : ∀ c ∈ candidates, entityToLocal env.sha s (c.entityId env.sha) = none →
    ∀ f ∈ c.linkedFiles, env.refuses f = false
  /-- No row of other content carries such an entry's key. -/
  unclaimed : ∀ c ∈ candidates, entityToLocal env.sha s (c.entityId env.sha) = none →
    ∀ n ∈ s.rows, n.entityId ≠ c.entityId env.sha
  /-- A group with a successor of other content is archived, and its first successor is one. -/
  succession : ∀ c ∈ candidates, entityToLocal env.sha s (c.entityId env.sha) = none →
    (∃ e ∈ successorEntities env.sha candidates (c.entityId env.sha), e ≠ c.entityId env.sha) →
      (∃ d ∈ group env.sha candidates (c.entityId env.sha), d.isArchived = true)
        ∧ (successorEntities env.sha candidates (c.entityId env.sha)).head?
          ≠ some (c.entityId env.sha)

end Reconcile
end Memory
end Inkentry
