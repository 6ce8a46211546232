/-
  Inkentry.Dump.Reader

  Reading a portable dump, and refusing one that is not whole.  The file is
  checked in one pass before anything is written: its framing, the declared
  counts and digest, the references, and the identities its entries carry.

  Relationships are deduplicated, entries that share a convergence key are
  folded into the earliest, and relationships are redirected to the survivors
  and deduplicated again.
-/

import Inkentry.Dump.Record
import Inkentry.Lib.OrderLimit
import Inkentry.Lib.SortedSet

namespace Inkentry
namespace PortableDump

open OrderLimit SortedSet KeyedStamp

/-- The functions a reader is given: the JSON parser, for each place a line may stand,
    and the hex digest of a text. -/
structure ReaderEnv where
  parseHeader : String → Option Header
  parseFooter : String → Option Footer
  parseRecord : String → Option Record
  sha256 : String → String

/-- A dump that has passed every check. -/
structure Dump where
  entities : List Entity
  relationships : List ResolvedRelationship
  /-- Memory entries folded into another entry of the same dump. -/
  mergedMemoryEntries : Nat
  deriving DecidableEq, Repr

/-- Why a dump is refused. -/
inductive ReadError where
  | empty
  | noFinalNewline
  | notADump
  | badHeader
  | wrongFormat (format : String)
  | unsupportedVersion (formatVersion : Nat)
  | badFooter
  | badRecord (line : Nat)
  | secondHeader (line : Nat)
  | footerInside (line : Nat)
  | countsMismatch (declared found : Counts)
  | digestMismatch (declared found : String)
  | sharedReference
  | blankIdentity (field dumpRef title : String)
  | sharedUuid (uuid : String)
  | sharedRemoteId (remoteId : String)
  | danglingEndpoint (kind : RelationshipKind) (endpoint : String)
  deriving DecidableEq, Repr

/-! ## Lines -/

/-- Splits on newlines; the last line must be complete. -/
def splitLines (text : String) : Except ReadError (List String) :=
  if text.toList = [] then .error .empty
  else if text.toList.getLast? = some '\n' then
    .ok ((text.toList.dropLast.splitOn '\n').map String.ofList)
  else .error .noFinalNewline

/-- The records between the header and the footer; `n` is the number of the next line. -/
def readBody (env : ReaderEnv) : Nat → List String →
    Except ReadError (List Entity × List Relationship)
  | _, [] => .ok ([], [])
  | n, line :: rest =>
    match env.parseRecord line with
    | none => .error (.badRecord n)
    | some .header => .error (.secondHeader n)
    | some .footer => .error (.footerInside n)
    | some (.entity e) => do
      let (entities, relationships) ← readBody env (n + 1) rest
      return (e :: entities, relationships)
    | some (.relationship r) => do
      let (entities, relationships) ← readBody env (n + 1) rest
      return (entities, r :: relationships)

/-! ## Checks -/

/-- How often each name occurs, by name in order. -/
def countByName (names : List String) : List (String × Nat) :=
  (sortDedup names).map fun name => (name, names.count name)

def foundCounts (entities : List Entity) (relationships : List Relationship) : Counts :=
  ⟨countByName (entities.map Entity.typeName),
    countByName (relationships.map fun r => r.kind.asStr)⟩

def verifyCounts (declared : Counts) (entities : List Entity) (relationships : List Relationship) :
    Except ReadError Unit :=
  let found := foundCounts entities relationships
  if found = declared then .ok () else .error (.countsMismatch declared found)

/-- The digest of the lines before the footer: over the hex digests of each, in order. -/
def digestOf (env : ReaderEnv) (lines : List String) : String :=
  "sha256:" ++ env.sha256 (String.join (lines.map env.sha256))

def verifyDigest (env : ReaderEnv) (declared : String) (lines : List String) :
    Except ReadError Unit :=
  let found := digestOf env lines
  if found = declared then .ok () else .error (.digestMismatch declared found)

/-- A reference names one entity. -/
def indexByRef (entities : List Entity) : Except ReadError Unit :=
  if (entities.map Entity.dumpRef).Nodup then .ok () else .error .sharedReference

/-- The Unicode white space that `trim` removes. -/
def isWhitespace (c : Char) : Bool :=
  let n := c.toNat
  (9 ≤ n && n ≤ 13) || n = 32 || n = 0x85 || n = 0xA0 || n = 0x1680 || (0x2000 ≤ n && n ≤ 0x200A)
    || n = 0x2028 || n = 0x2029 || n = 0x202F || n = 0x205F || n = 0x3000

def isBlank (s : String) : Bool := s.toList.all isWhitespace

/-- The identities an entry carries, by field. -/
def MemoryEntry.identities (e : MemoryEntry) : List (String × Option String) :=
  [("uuid", e.uuid), ("remote_id", e.remoteId), ("entity_id", e.entityId)]

/-- A carried identity is meaningful or absent. -/
def refuseBlankIdentities : List MemoryEntry → Except ReadError Unit
  | [] => .ok ()
  | e :: rest =>
    match e.identities.find? fun p => p.2.any isBlank with
    | some p => .error (.blankIdentity p.1 e.dumpRef e.title)
    | none => refuseBlankIdentities rest

/-- No two entries claim one `uuid` or one `remote_id`; the lists are those seen. -/
def refuseRepeatedIdentities : List String → List String → List MemoryEntry →
    Except ReadError Unit
  | _, _, [] => .ok ()
  | uuids, remoteIds, e :: rest =>
    match e.uuid.filter (· ∈ uuids), e.remoteId.filter (· ∈ remoteIds) with
    | some uuid, _ => .error (.sharedUuid uuid)
    | none, some remoteId => .error (.sharedRemoteId remoteId)
    | none, none =>
      refuseRepeatedIdentities (e.uuid.toList ++ uuids) (e.remoteId.toList ++ remoteIds) rest

/-! ## Relationships -/

/-- Deduplicates on type and ends, preferring a recorded time over its absence. -/
def dedupe (relationships : List Relationship) : List Relationship :=
  collapse relationshipView relationships

/-- The position of the entity with a reference. -/
def positionOf (entities : List Entity) (dumpRef : String) : Option Nat :=
  entities.findIdx? fun e => e.dumpRef = dumpRef

/-- Looks up both ends of every relationship. -/
def resolve (entities : List Entity) :
    List Relationship → Except ReadError (List ResolvedRelationship)
  | [] => .ok []
  | r :: rest =>
    match positionOf entities r.source, positionOf entities r.target with
    | some source, some target => do
      let resolved ← resolve entities rest
      return ⟨r.kind, source, target, r.createdAt⟩ :: resolved
    | none, _ => .error (.danglingEndpoint r.kind r.source)
    | some _, none => .error (.danglingEndpoint r.kind r.target)

/-! ## Entries that share a convergence key -/

/-- The key the store holds an entry under. -/
def MemoryEntry.convergenceKey (sha : String → String) (e : MemoryEntry) : String :=
  e.entityId.getD (Inkentry.entityId sha e.kind e.title e.body)

/-- The entries with a key, earliest first, ties broken by reference. -/
def orderedMembers (sha : String → String) (entities : List Entity) (key : String) :
    List MemoryEntry :=
  sortBy (fun e => toLex (e.createdAt, e.dumpRef))
    ((entities.filterMap Entity.memory?).filter fun e => e.convergenceKey sha = key)

/-- Adds what is not in a list yet. -/
def pushNew (l extra : List String) : List String :=
  extra.foldl (fun acc x => if x ∈ acc then acc else acc ++ [x]) l

/-- The survivor of a group with the tags and files of the others. -/
def inherit (keeper : MemoryEntry) (losers : List MemoryEntry) : MemoryEntry :=
  { keeper with
    tags := pushNew keeper.tags (losers.flatMap MemoryEntry.tags)
    linkedFiles := pushNew keeper.linkedFiles (losers.flatMap MemoryEntry.linkedFiles) }

/-- The entry that an entry is folded into, itself where it survives. -/
def survivorOf (sha : String → String) (entities : List Entity) (e : MemoryEntry) : MemoryEntry :=
  (orderedMembers sha entities (e.convergenceKey sha)).headD e

/-- What becomes of an entity: a survivor inherits, a folded entry goes. -/
def keep (sha : String → String) (entities : List Entity) : Entity → Option Entity
  | .memoryEntry e =>
    if (survivorOf sha entities e).dumpRef = e.dumpRef then
      some (.memoryEntry
        (inherit e (orderedMembers sha entities (e.convergenceKey sha)).tail))
    else none
  | other => some other

/-- The reference an entity goes by after the fold. -/
def survivingRef (sha : String → String) (entities : List Entity) : Entity → String
  | .memoryEntry e => (survivorOf sha entities e).dumpRef
  | other => other.dumpRef

structure Collapsed where
  entities : List Entity
  /-- For each position before the fold, the position of what survived. -/
  remap : List Nat
  merged : Nat

/-- Folds the entries that share a convergence key; an entity's position is that of its
    reference, which is unique by now. -/
def collapseByConvergenceKey (sha : String → String) (entities : List Entity) : Collapsed :=
  let kept := entities.filterMap (keep sha entities)
  { entities := kept
    remap := entities.map fun e =>
      kept.findIdx fun k => k.dumpRef = survivingRef sha entities e
    merged := entities.length - kept.length }

/-- A relationship between the survivors of its ends; none where they are the same. -/
def redirectOne (remap : List Nat) (r : ResolvedRelationship) : Option ResolvedRelationship :=
  let source := remap.getD r.source 0
  let target := remap.getD r.target 0
  if source = target then none else some { r with source, target }

/-- Points every relationship at the survivors, and drops those that now start where
    they end and those that have become the same. -/
def redirectToSurvivors (relationships : List ResolvedRelationship) (remap : List Nat) :
    List ResolvedRelationship :=
  collapse resolvedView (relationships.filterMap (redirectOne remap))

/-! ## Reading -/

/-- The first line is a header of this format and version. -/
def checkHeader (env : ReaderEnv) (first : String) : Except ReadError Unit :=
  match env.parseHeader first with
  | none => .error .badHeader
  | some header =>
    if header.format ≠ FORMAT then .error (.wrongFormat header.format)
    else if header.formatVersion ≠ FORMAT_VERSION then
      .error (.unsupportedVersion header.formatVersion)
    else .ok ()

/-- The last line is a footer. -/
def readFooter (env : ReaderEnv) (last : String) : Except ReadError Footer :=
  match env.parseFooter last with
  | none => .error .badFooter
  | some footer => .ok footer

/-- Reads a dump whose first line, last line and lines between are given. -/
def readFramed (env : ReaderEnv) (first : String) (body : List String) (last : String) :
    Except ReadError Dump := do
  checkHeader env first
  let footer ← readFooter env last
  let (entities, relationships) ← readBody env 2 body
  verifyCounts footer.counts entities relationships
  verifyDigest env footer.digest (first :: body)
  indexByRef entities
  refuseBlankIdentities (entities.filterMap Entity.memory?)
  refuseRepeatedIdentities [] [] (entities.filterMap Entity.memory?)
  let resolved ← resolve entities (dedupe relationships)
  let collapsed := collapseByConvergenceKey env.sha256 entities
  return ⟨collapsed.entities, redirectToSurvivors resolved collapsed.remap, collapsed.merged⟩

/-- Reads a dump. -/
def read (env : ReaderEnv) (text : String) : Except ReadError Dump := do
  match ← splitLines text with
  | first :: second :: rest =>
    readFramed env first (second :: rest).dropLast ((second :: rest).getLastD second)
  | _ => throw .notADump

end PortableDump
end Inkentry
