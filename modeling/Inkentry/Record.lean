/-
  Inkentry.Record

  The data every memory backend shares: the entry as a reader sees it (`Note`),
  the entry as one line of the git-notes log carries it (`NoteRecord`), and the
  content-addressed identity both are keyed on (`entityId`).

  The SHA-256 behind the identity is a third-party function; it enters as the
  parameter `sha` (canonical JSON text to lowercase hex).  Nothing here or
  later assumes anything of it: two entries whose hashes collide are one entity
  to this code.
-/

import Mathlib.Data.String.Basic
import Mathlib.Data.Prod.Lex

namespace Inkentry

/-! ## Origin and identity -/

/-- Who or what produced an entry. -/
inductive ActorKind where
  | human
  | agent
  | harvest
  | unknown
  deriving DecidableEq, Repr

/-- An entry's origin; absent means that no caller declared one. -/
structure Origin where
  actorKind : ActorKind
  tool : Option String
  model : Option String
  deriving DecidableEq, Repr

/-- An opaque, backend-minted token naming one entry. -/
structure NoteId where
  token : String
  deriving DecidableEq, Repr

theorem NoteId.token_inj {a b : NoteId} : a.token = b.token ↔ a = b := by
  cases a
  cases b
  simp

/-- One character of a JSON string literal, as the serializer writes it. -/
def jsonEscape (c : Char) : String :=
  if c = '"' then "\\\""
  else if c = '\\' then "\\\\"
  else if c = '\n' then "\\n"
  else if c = '\r' then "\\r"
  else if c = '\t' then "\\t"
  else if c.toNat = 8 then "\\b"
  else if c.toNat = 12 then "\\f"
  else if c.toNat < 32 then
    "\\u00" ++ String.singleton (Nat.digitChar (c.toNat / 16))
      ++ String.singleton (Nat.digitChar (c.toNat % 16))
  else String.singleton c

/-- A JSON string literal. -/
def jsonString (s : String) : String :=
  "\"" ++ String.join (s.toList.map jsonEscape) ++ "\""

theorem lf_not_mem_jsonEscape (c : Char) : '\n' ∉ (jsonEscape c).toList := by
  have hdigit : ∀ n < 16, Nat.digitChar n ≠ '\n' := by decide
  unfold jsonEscape
  split
  · decide
  split
  · decide
  split
  · decide
  split
  · decide
  split
  · decide
  split
  · decide
  split
  · decide
  split
  case isTrue hctl =>
    have hhigh := hdigit (c.toNat / 16) (by omega)
    have hlow := hdigit (c.toNat % 16) (by omega)
    simp [Ne.symm hhigh, Ne.symm hlow]
  case isFalse _ _ hlf _ _ _ _ _ => simpa using Ne.symm hlf

/-- The text that is hashed: the three identity fields as one compact JSON
    object with its keys in order. -/
def canonicalBytes (kind title body : String) : String :=
  "\x7b\"body\":" ++ jsonString body ++ ",\"kind\":" ++ jsonString kind
    ++ ",\"title\":" ++ jsonString title ++ "\x7d"

/-- The identity of an entry: the hash of its kind, title and body, and of
    nothing that can change later. -/
def entityId (sha : String → String) (kind title body : String) : String :=
  sha (canonicalBytes kind title body)

/-! ## The entry as a reader sees it -/

/-- A memory entry.  `id` is the store's own token for it, `entityId` the
    portable identity.  The fields that only a search fills in are not here. -/
structure Note where
  id : NoteId
  entityId : String
  kind : String
  title : String
  body : String
  tags : List String
  linkedFiles : List String
  createdAt : Int
  status : String
  supersededBy : Option NoteId
  sourceRef : Option String
  validAt : Option Int
  invalidAt : Option Int
  remoteId : Option String
  origin : Option Origin
  deriving DecidableEq, Repr

/-- The identity of a stored note, recomputed from its content. -/
def noteEntityId (sha : String → String) (n : Note) : String :=
  entityId sha n.kind n.title n.body

/-! ## The entry as the carrier records it -/

/-- One outgoing graph edge as the carrier records it. -/
structure CarriedEdge where
  kind : String
  toEntityId : String
  deriving DecidableEq, Repr

/-- Edges compare by kind, then by target. -/
def CarriedEdge.key (e : CarriedEdge) : String ×ₗ String := toLex (e.kind, e.toEntityId)

theorem CarriedEdge.key_injective : Function.Injective CarriedEdge.key := by
  rintro ⟨k, t⟩ ⟨k', t'⟩ h
  simpa [CarriedEdge.key] using h

instance : LinearOrder CarriedEdge := LinearOrder.lift' CarriedEdge.key CarriedEdge.key_injective

/-- One line of the git-notes log. -/
structure NoteRecord where
  schemaVersion : Nat
  /-- Machine-local row id, not an identity. -/
  id : Int
  kind : String
  title : String
  body : String
  tags : List String
  linkedFiles : List String
  createdAt : Int
  status : String
  sourceRef : Option String
  validAt : Option Int
  invalidAt : Option Int
  supersededBy : Option Int
  remoteId : Option String
  /-- Absent on a legacy line, which recomputes it. -/
  entityId : Option String
  supersededByEntityId : Option String
  edges : List CarriedEdge
  origin : Option Origin
  /-- `some "anchor"` marks an anchor attachment. -/
  op : Option String
  patchId : Option String
  deriving DecidableEq, Repr

/-- The record's canonical identity: the stored one, or recomputed when absent. -/
def NoteRecord.resolveEntityId (sha : String → String) (r : NoteRecord) : String :=
  r.entityId.getD (Inkentry.entityId sha r.kind r.title r.body)

/-- The carrier's record id as the opaque token it is shown as. -/
def carrierToken (id : Int) : NoteId := ⟨toString id⟩

/-- The entry a folded record is read as. -/
def recordToNote (sha : String → String) (r : NoteRecord) : Note where
  id := carrierToken r.id
  entityId := Inkentry.entityId sha r.kind r.title r.body
  kind := r.kind
  title := r.title
  body := r.body
  tags := r.tags
  linkedFiles := r.linkedFiles
  createdAt := r.createdAt
  status := r.status
  supersededBy := r.supersededBy.map carrierToken
  sourceRef := r.sourceRef
  validAt := r.validAt
  invalidAt := r.invalidAt
  remoteId := r.remoteId
  origin := r.origin

/-- The kind, title and body a line carries are the ones its identity names. -/
def NoteRecord.ContentKeyed (sha : String → String) (r : NoteRecord) : Prop :=
  r.resolveEntityId sha = Inkentry.entityId sha r.kind r.title r.body

end Inkentry
