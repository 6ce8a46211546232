/-
  Inkentry.Dump.Record

  The records of a portable dump: a header, entities and relationships in any
  order, and a footer with the counts of each kind of record and a digest.  A
  relationship names its ends by references that mean something in one file
  only.
-/

import Inkentry.Record
import Inkentry.Lib.KeyedStamp

namespace Inkentry
namespace PortableDump

def FORMAT : String := "portable-dump"

def FORMAT_VERSION : Nat := 1

/-- The first line; when and by what the dump was written is not read. -/
structure Header where
  format : String
  formatVersion : Nat
  deriving DecidableEq, Repr

/-- How many records of each type there are, by type name in order. -/
structure Counts where
  entity : List (String × Nat)
  relationship : List (String × Nat)
  deriving DecidableEq, Repr

/-- The last line. -/
structure Footer where
  counts : Counts
  digest : String
  deriving DecidableEq, Repr

structure MemoryEntry where
  dumpRef : String
  uuid : Option String
  kind : String
  title : String
  body : String
  tags : List String
  linkedFiles : List String
  createdAt : Int
  status : Option String
  sourceRef : Option String
  validAt : Option Int
  invalidAt : Option Int
  entityId : Option String
  remoteId : Option String
  originActorKind : Option String
  originTool : Option String
  originModel : Option String
  deriving DecidableEq, Repr

structure Project where
  dumpRef : String
  rootPath : String
  deriving DecidableEq, Repr

structure CommandUsage where
  dumpRef : String
  command : String
  calledAt : Int
  deriving DecidableEq, Repr

inductive Entity where
  | memoryEntry (e : MemoryEntry)
  | project (p : Project)
  | commandUsage (u : CommandUsage)
  deriving DecidableEq, Repr

/-- The reference relationships name an entity by. -/
def Entity.dumpRef : Entity → String
  | .memoryEntry e => e.dumpRef
  | .project p => p.dumpRef
  | .commandUsage u => u.dumpRef

def Entity.typeName : Entity → String
  | .memoryEntry _ => "memory_entry"
  | .project _ => "project"
  | .commandUsage _ => "command_usage"

/-- The memory entry an entity is, if it is one. -/
def Entity.memory? : Entity → Option MemoryEntry
  | .memoryEntry e => some e
  | _ => none

inductive RelationshipKind where
  | supersedes
  | relatesTo
  | contradicts
  | dependsOn
  deriving DecidableEq, Repr

def RelationshipKind.asStr : RelationshipKind → String
  | .supersedes => "supersedes"
  | .relatesTo => "relates_to"
  | .contradicts => "contradicts"
  | .dependsOn => "depends_on"

/-- For `supersedes`, `source` is the successor and `target` the entry it replaced. -/
structure Relationship where
  kind : RelationshipKind
  source : String
  target : String
  createdAt : Option Int
  deriving DecidableEq, Repr

/-- A relationship is its type, its ends and when it was recorded. -/
def relationshipView : KeyedStamp.View Relationship (RelationshipKind × String × String) Int where
  key r := (r.kind, r.source, r.target)
  stamp r := r.createdAt
  withStamp r t := { r with createdAt := t }
  key_withStamp _ _ := rfl
  stamp_withStamp _ _ := rfl
  ext a b hkey hstamp := by
    cases a
    cases b
    simp_all

/-- A line between the first and the last. -/
inductive Record where
  | entity (e : Entity)
  | relationship (r : Relationship)
  /-- A second header, or a footer with records after it. -/
  | header
  | footer
  deriving DecidableEq, Repr

/-- A relationship whose ends are positions in the list of entities. -/
structure ResolvedRelationship where
  kind : RelationshipKind
  source : Nat
  target : Nat
  createdAt : Option Int
  deriving DecidableEq, Repr

def resolvedView : KeyedStamp.View ResolvedRelationship (RelationshipKind × Nat × Nat) Int where
  key r := (r.kind, r.source, r.target)
  stamp r := r.createdAt
  withStamp r t := { r with createdAt := t }
  key_withStamp _ _ := rfl
  stamp_withStamp _ _ := rfl
  ext a b hkey hstamp := by
    cases a
    cases b
    simp_all

end PortableDump
end Inkentry
