/-
  Inkentry.Dump.Wire

  The wire shape of a portable dump: how the derived deserializers read a
  header, a footer and a body record from the JSON tree of a line.

  A derived struct is read from an object by the names of its fields and, as
  well, from an array by their positions; fields it does not have are skipped.
  A record is told apart by a tag that is a member of the object or the first
  element of the array.  The header and the footer have no tag among their
  fields, so whatever their line calls itself is skipped.
-/

import Inkentry.Dump.Record
import Inkentry.Lib.SortedSet
import Mathlib.Algebra.Group.Int.Defs

namespace Inkentry
namespace PortableDump

open SortedSet

/-! ## Trees -/

/-- The JSON tree of a line. -/
inductive Json where
  | null
  | bool (b : Bool)
  /-- An integer of at most 64 bits. -/
  | int (n : Int)
  /-- Any other number. -/
  | float
  | str (s : String)
  | arr (items : List Json)
  | obj (members : List (String × Json))
  /-- What only a reader that skips it lets pass: a string that is not Unicode, a number
      out of range. -/
  | skipped
  deriving Repr

mutual

/-- Nothing in the tree has to be skipped. -/
def Json.kept : Json → Bool
  | .arr items => Json.keptItems items
  | .obj members => Json.keptMembers members
  | .skipped => false
  | _ => true

def Json.keptItems : List Json → Bool
  | [] => true
  | j :: rest => j.kept && Json.keptItems rest

def Json.keptMembers : List (String × Json) → Bool
  | [] => true
  | (_, j) :: rest => j.kept && Json.keptMembers rest

end

def Json.isObject : Json → Bool
  | .obj _ => true
  | _ => false

/-! ## Leaves -/

def asString : Json → Option String
  | .str s => some s
  | _ => none

/-- A natural number below a bound. -/
def asNatBelow (bound : Nat) : Json → Option Nat
  | .int n => if 0 ≤ n ∧ n < bound then some n.toNat else none
  | _ => none

def asU32 : Json → Option Nat := asNatBelow (2 ^ 32)

def asU64 : Json → Option Nat := asNatBelow (2 ^ 64)

def asI64 : Json → Option Int
  | .int n => if -2 ^ 63 ≤ n ∧ n < 2 ^ 63 then some n else none
  | _ => none

def asStrings : Json → Option (List String)
  | .arr items => items.mapM asString
  | _ => none

/-- A map of names to counts; of two members of one name the last is kept. -/
def asCountMap : Json → Option (List (String × Nat))
  | .obj members => do
    let counted ← members.mapM fun m => (asU64 m.2).map fun n => (m.1, n)
    return (sortDedup (counted.map Prod.fst)).filterMap fun name =>
      (counted.filter fun m => m.1 = name).getLast?
  | _ => none

/-! ## Structs -/

/-- The fields of a struct as its line gives them. -/
inductive Fields where
  | byName (members : List (String × Json))
  | byPosition (names : List String) (items : List Json)

/-- An object may not give a field twice, an array no more than there are. -/
def fieldsOf (names : List String) : Json → Option Fields
  | .obj members =>
    if names.all fun name => (members.map Prod.fst).count name ≤ 1 then some (.byName members)
    else none
  | .arr items => if items.length ≤ names.length then some (.byPosition names items) else none
  | _ => none

def Fields.value : Fields → String → Option Json
  | .byName members, name => (members.find? fun m => m.1 = name).map Prod.snd
  | .byPosition names items, name => items[names.idxOf name]?

variable {β : Type}

def Fields.required (f : Fields) (read : Json → Option β) (name : String) : Option β :=
  (f.value name).bind read

/-- `null` is an absent value; by position even that must be there. -/
def Fields.optional (f : Fields) (read : Json → Option β) (name : String) : Option (Option β) :=
  match f, f.value name with
  | _, some .null => some none
  | _, some j => (read j).map some
  | .byName _, none => some none
  | .byPosition _ _, none => none

def Fields.defaulted (f : Fields) (read : Json → Option β) (default : β) (name : String) :
    Option β :=
  match f.value name with
  | some j => read j
  | none => some default

/-- `null` is an absent value. -/
def asNullable (read : Json → Option β) : Json → Option (Option β)
  | .null => some none
  | j => (read j).map some

/-! ## The header and the footer -/

def Header.ofJson (j : Json) : Option Header := do
  let f ← fieldsOf ["format", "format_version", "generated_at", "generator"] j
  let format ← f.required asString "format"
  let formatVersion ← f.required asU32 "format_version"
  let _ ← f.required asI64 "generated_at"
  let _ ← f.required asString "generator"
  return ⟨format, formatVersion⟩

def Counts.ofJson (j : Json) : Option Counts := do
  let f ← fieldsOf ["entity", "relationship"] j
  let entity ← f.required asCountMap "entity"
  let relationship ← f.required asCountMap "relationship"
  return ⟨entity, relationship⟩

def Footer.ofJson (j : Json) : Option Footer := do
  let f ← fieldsOf ["counts", "digest"] j
  let counts ← f.required Counts.ofJson "counts"
  let digest ← f.required asString "digest"
  return ⟨counts, digest⟩

/-! ## Body records -/

/-- The value of a tag, and what is left without it. -/
def splitTag (tag : String) : Json → Option (Json × Json)
  | .obj members =>
    match members.filter fun m => m.1 = tag with
    | [m] => some (m.2, .obj (members.filter fun m => m.1 ≠ tag))
    | _ => none
  | .arr (value :: rest) => some (value, .arr rest)
  | _ => none

/-- A variant inside a buffered record, by name or by position. -/
def asVariant (names : List String) : Json → Option String
  | .str s => if s ∈ names then some s else none
  | .int n => if 0 ≤ n then names[n.toNat]? else none
  | _ => none

def MemoryEntry.ofJson (j : Json) : Option MemoryEntry := do
  let f ← fieldsOf ["ref", "uuid", "kind", "title", "body", "tags", "linked_files", "created_at",
    "status", "source_ref", "valid_at", "invalid_at", "entity_id", "remote_id", "namespace",
    "origin_actor_kind", "origin_tool", "origin_model"] j
  let dumpRef ← f.required asString "ref"
  let uuid ← f.optional asString "uuid"
  let kind ← f.required asString "kind"
  let title ← f.required asString "title"
  let body ← f.required asString "body"
  let tags ← f.defaulted asStrings [] "tags"
  let linkedFiles ← f.defaulted asStrings [] "linked_files"
  let createdAt ← f.required asI64 "created_at"
  let status ← f.optional asString "status"
  let sourceRef ← f.optional asString "source_ref"
  let validAt ← f.optional asI64 "valid_at"
  let invalidAt ← f.optional asI64 "invalid_at"
  let entityId ← f.optional asString "entity_id"
  let remoteId ← f.optional asString "remote_id"
  let _ ← f.optional asString "namespace"
  let originActorKind ← f.defaulted (asNullable asString) none "origin_actor_kind"
  let originTool ← f.defaulted (asNullable asString) none "origin_tool"
  let originModel ← f.defaulted (asNullable asString) none "origin_model"
  return ⟨dumpRef, uuid, kind, title, body, tags, linkedFiles, createdAt, status, sourceRef,
    validAt, invalidAt, entityId, remoteId, originActorKind, originTool, originModel⟩

def Project.ofJson (j : Json) : Option Project := do
  let f ← fieldsOf ["ref", "root_path", "registered_at"] j
  let dumpRef ← f.required asString "ref"
  let rootPath ← f.required asString "root_path"
  let _ ← f.optional asI64 "registered_at"
  return ⟨dumpRef, rootPath⟩

def CommandUsage.ofJson (j : Json) : Option CommandUsage := do
  let f ← fieldsOf ["ref", "command", "at"] j
  let dumpRef ← f.required asString "ref"
  let command ← f.required asString "command"
  let calledAt ← f.required asI64 "at"
  return ⟨dumpRef, command, calledAt⟩

def Entity.ofJson (j : Json) : Option Entity := do
  let (value, content) ← splitTag "type" j
  match ← asVariant ["memory_entry", "project", "command_usage"] value with
  | "memory_entry" => (MemoryEntry.ofJson content).map Entity.memoryEntry
  | "project" => (Project.ofJson content).map Entity.project
  | _ => (CommandUsage.ofJson content).map Entity.commandUsage

def RelationshipKind.ofName (name : String) : Option RelationshipKind :=
  [RelationshipKind.supersedes, .relatesTo, .contradicts, .dependsOn].find? fun kind =>
    kind.asStr = name

/-- A kind by its name, alone or as the only key of an object with nothing under it. -/
def RelationshipKind.ofJson : Json → Option RelationshipKind
  | .str name => RelationshipKind.ofName name
  | .obj [(name, .null)] => RelationshipKind.ofName name
  | .obj [(name, .obj [])] => RelationshipKind.ofName name
  | _ => none

def Relationship.ofJson (j : Json) : Option Relationship := do
  let f ← fieldsOf ["type", "from", "to", "created_at"] j
  let kind ← f.required RelationshipKind.ofJson "type"
  let source ← f.required asString "from"
  let target ← f.required asString "to"
  let createdAt ← f.optional asI64 "created_at"
  return ⟨kind, source, target, createdAt⟩

/-- A body record is buffered whole before its kind is known. -/
def Record.ofJson (j : Json) : Option Record :=
  if j.kept then
    match splitTag "record" j with
    | some (.str "entity", content) => (Entity.ofJson content).map Record.entity
    | some (.str "relationship", content) => (Relationship.ofJson content).map Record.relationship
    | some (.str "header", _) => some .header
    | some (.str "footer", _) => some .footer
    | _ => none
  else none

/-! ## The field that names a record -/

/-- What an object says of itself, once. -/
def recordField : Json → Option String
  | .obj members =>
    match members.filter fun m => m.1 = "record" with
    | [(_, .str s)] => some s
    | _ => none
  | _ => none

theorem isObject_of_recordField {j : Json} {s : String} (h : recordField j = some s) :
    j.isObject = true := by
  cases j with
  | obj members => rfl
  | _ => exact absurd h (by simp [recordField])

end PortableDump
end Inkentry
