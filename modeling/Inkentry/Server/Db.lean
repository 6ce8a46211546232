/-
  Inkentry.Server.Db

  The team server's database: projects, the entries of all of them in one
  `notes` table, and one vector table beside it.

  Rows are joined on an integer rowid that never leaves the server; an entry's
  identity is its `sync_id`.  The unique indexes and the foreign keys are fields
  of `ServerDb`.  The project's creation time and the stored tag and file text
  are read by nothing modelled here and are left out or kept as lists.
-/

import Mathlib.Data.List.Nodup
import Mathlib.Data.String.Basic

namespace Inkentry
namespace Server

variable {Vec : Type*}

/-- A project, with the dimension and model of its vectors; dimension 0 and no model
    until a write records them. -/
structure Project where
  id : Nat
  slug : String
  embeddingDim : Nat
  embeddingModel : Option String
  deriving DecidableEq, Repr

/-- A row of `notes`. -/
structure NoteRow where
  rowid : Nat
  projectId : Nat
  syncId : String
  kind : String
  title : String
  body : String
  tags : List String
  linkedFiles : List String
  createdAt : Int
  status : String
  /-- The successor's rowid. -/
  supersededBy : Option Nat
  /-- The pushing client's own id, the key pushes are idempotent on. -/
  remoteId : Option String
  deriving DecidableEq, Repr

/-- What `idx_notes_project_remote_id` is unique on. -/
def NoteRow.pushKey (n : NoteRow) : Option (Nat × String) := n.remoteId.map fun r => (n.projectId, r)

structure NoteEdge where
  fromId : Nat
  toId : Nat
  kind : String
  deriving DecidableEq, Repr

/-- The tables.  Rowids are handed out once each, and a vector belongs to a row. -/
structure ServerDb (Vec : Type*) where
  projects : List Project
  notes : List NoteRow
  embeddings : List (Nat × Vec)
  edges : List NoteEdge
  nextRowid : Nat
  slugUnique : (projects.map Project.slug).Nodup
  rowidUnique : (notes.map NoteRow.rowid).Nodup
  syncUnique : (notes.map NoteRow.syncId).Nodup
  remoteUnique : (notes.filterMap NoteRow.pushKey).Nodup
  rowidsBelow : ∀ n ∈ notes, n.rowid < nextRowid
  vectorUnique : (embeddings.map Prod.fst).Nodup
  vectorRows : ∀ e ∈ embeddings, ∃ n ∈ notes, n.rowid = e.1
  successorInProject : ∀ n ∈ notes, ∀ r ∈ n.supersededBy,
    ∃ m ∈ notes, m.rowid = r ∧ m.projectId = n.projectId

def ServerDb.empty : ServerDb Vec where
  projects := []
  notes := []
  embeddings := []
  edges := []
  nextRowid := 1
  slugUnique := List.nodup_nil
  rowidUnique := List.nodup_nil
  syncUnique := List.nodup_nil
  remoteUnique := List.nodup_nil
  rowidsBelow := List.forall_mem_nil _
  vectorUnique := List.nodup_nil
  vectorRows := List.forall_mem_nil _
  successorInProject := List.forall_mem_nil _

/-- `notes n WHERE n.id = ..`. -/
def ServerDb.row? (db : ServerDb Vec) (rowid : Nat) : Option NoteRow :=
  db.notes.find? fun n => n.rowid = rowid

theorem ServerDb.row?_eq_some_iff {db : ServerDb Vec} {rowid : Nat} {n : NoteRow} :
    db.row? rowid = some n ↔ n ∈ db.notes ∧ n.rowid = rowid := by
  constructor
  · intro h
    exact ⟨List.mem_of_find?_eq_some h, by simpa using List.find?_some h⟩
  · rintro ⟨hmem, hid⟩
    have hsome : (db.row? rowid).isSome := List.find?_isSome.mpr ⟨n, hmem, by simpa using hid⟩
    obtain ⟨m, hm⟩ := Option.isSome_iff_exists.mp hsome
    have hmid : m.rowid = rowid := by simpa using List.find?_some hm
    have hmn : m = n := List.inj_on_of_nodup_map db.rowidUnique (List.mem_of_find?_eq_some hm) hmem
      (hmid.trans hid.symm)
    rw [hm, hmn]

/-! ## One project's part -/

/-- The project's rows. -/
def ServerDb.notesOf (db : ServerDb Vec) (projectId : Nat) : List NoteRow :=
  db.notes.filter fun n => n.projectId = projectId

/-- A rowid of the project. -/
def ServerDb.owns (db : ServerDb Vec) (projectId rowid : Nat) : Bool :=
  (db.row? rowid).any fun n => n.projectId = projectId

/-- The vectors of the project's rows. -/
def ServerDb.vectorsOf (db : ServerDb Vec) (projectId : Nat) : List (Nat × Vec) :=
  db.embeddings.filter fun e => db.owns projectId e.1

/-- The edges that start at one of the project's rows. -/
def ServerDb.edgesOf (db : ServerDb Vec) (projectId : Nat) : List NoteEdge :=
  db.edges.filter fun e => db.owns projectId e.fromId

/-- Two databases hold the same entries, vectors and edges for a project. -/
structure AgreeOn (projectId : Nat) (db db' : ServerDb Vec) : Prop where
  notes : db.notesOf projectId = db'.notesOf projectId
  vectors : db.vectorsOf projectId = db'.vectorsOf projectId
  edges : db.edgesOf projectId = db'.edgesOf projectId

theorem AgreeOn.symm {projectId : Nat} {db db' : ServerDb Vec} (h : AgreeOn projectId db db') :
    AgreeOn projectId db' db := ⟨h.notes.symm, h.vectors.symm, h.edges.symm⟩

theorem AgreeOn.row?_of_projectId {projectId : Nat} {db db' : ServerDb Vec}
    (h : AgreeOn projectId db db') {rowid : Nat} {n : NoteRow} (hrow : db.row? rowid = some n)
    (hn : n.projectId = projectId) : db'.row? rowid = some n := by
  obtain ⟨hmem, hid⟩ := ServerDb.row?_eq_some_iff.mp hrow
  have hof : n ∈ db'.notesOf projectId := by
    rw [← h.notes]
    exact List.mem_filter.mpr ⟨hmem, by simpa using hn⟩
  exact ServerDb.row?_eq_some_iff.mpr ⟨List.mem_of_mem_filter hof, hid⟩

end Server
end Inkentry
