/-
  Inkentry.Server.Writes

  The statements the team server writes its database with, each keeping the
  unique indexes and the foreign keys: the insert of an entry and of its vector,
  the edge insert, and the archiving of a superseded entry.

  An insert is a partial function: it is refused where a key is taken or the
  project is missing, as the tables refuse it.
-/

import Inkentry.Lib.Transaction
import Inkentry.Server.Db

namespace Inkentry
namespace Server

open Transaction

variable {Vec : Type*}

/-- The tables with the primary key and the foreign keys of `note_edges`. -/
structure LinkedDb (Vec : Type*) extends ServerDb Vec where
  edgeUnique : edges.Nodup
  edgeRows : ∀ e ∈ edges, e.fromId ∈ notes.map NoteRow.rowid ∧ e.toId ∈ notes.map NoteRow.rowid

/-- What an insert into `notes` gives. -/
structure NewNote where
  projectId : Nat
  kind : String
  title : String
  body : String
  tags : List String
  linkedFiles : List String
  remoteId : Option String
  syncId : String
  createdAt : Int
  deriving DecidableEq, Repr

/-- The row it stores, with the column defaults. -/
def NewNote.row (note : NewNote) (rowid : Nat) : NoteRow where
  rowid := rowid
  projectId := note.projectId
  syncId := note.syncId
  kind := note.kind
  title := note.title
  body := note.body
  tags := note.tags
  linkedFiles := note.linkedFiles
  createdAt := note.createdAt
  status := "active"
  supersededBy := none
  remoteId := note.remoteId

/-! ## Inserting an entry -/

/-- No key of the entry is taken, and its project exists. -/
def LinkedDb.Accepts (db : LinkedDb Vec) (note : NewNote) : Prop :=
  note.projectId ∈ db.projects.map Project.id ∧
    note.syncId ∉ db.notes.map NoteRow.syncId ∧
    ∀ r ∈ note.remoteId, (note.projectId, r) ∉ db.notes.filterMap NoteRow.pushKey

instance (db : LinkedDb Vec) (note : NewNote) : Decidable (db.Accepts note) :=
  inferInstanceAs (Decidable (_ ∧ _ ∧ _))

theorem nodup_append_singleton {α : Type*} {l : List α} {a : α} (h : l.Nodup) (ha : a ∉ l) :
    (l ++ [a]).Nodup := by
  rw [← List.concat_eq_append]
  exact List.Nodup.concat ha h

theorem ServerDb.nextRowid_not_mem (db : ServerDb Vec) :
    db.nextRowid ∉ db.notes.map NoteRow.rowid := by
  intro hmem
  obtain ⟨n, hn, hid⟩ := List.mem_map.mp hmem
  have hlt := db.rowidsBelow n hn
  omega

theorem LinkedDb.Accepts.remoteUnique {db : LinkedDb Vec} {note : NewNote}
    (h : db.Accepts note) (rowid : Nat) :
    ((db.notes ++ [note.row rowid]).filterMap NoteRow.pushKey).Nodup := by
  rw [List.filterMap_append]
  cases hr : note.remoteId with
  | none =>
    have hkey : (note.row rowid).pushKey = none := by simp [NoteRow.pushKey, NewNote.row, hr]
    simpa [hkey] using db.remoteUnique
  | some r =>
    have hkey : (note.row rowid).pushKey = some (note.projectId, r) := by
      simp [NoteRow.pushKey, NewNote.row, hr]
    rw [List.filterMap_cons_some hkey, List.filterMap_nil]
    exact nodup_append_singleton db.remoteUnique (h.2.2 r hr)

/-- `INSERT INTO notes`, under the next rowid. -/
def LinkedDb.insertNote (db : LinkedDb Vec) (note : NewNote) (h : db.Accepts note) :
    LinkedDb Vec where
  projects := db.projects
  notes := db.notes ++ [note.row db.nextRowid]
  embeddings := db.embeddings
  edges := db.edges
  nextRowid := db.nextRowid + 1
  slugUnique := db.slugUnique
  rowidUnique := by
    rw [List.map_append]
    exact nodup_append_singleton db.rowidUnique db.nextRowid_not_mem
  syncUnique := by
    rw [List.map_append]
    exact nodup_append_singleton db.syncUnique h.2.1
  remoteUnique := h.remoteUnique db.nextRowid
  rowidsBelow n hn := by
    rcases List.mem_append.mp hn with hold | hnew
    · have hlt := db.rowidsBelow n hold
      omega
    · rw [List.mem_singleton.mp hnew]
      exact Nat.lt_succ_self _
  vectorUnique := db.vectorUnique
  vectorRows e he := by
    obtain ⟨n, hn, hid⟩ := db.vectorRows e he
    exact ⟨n, List.mem_append_left _ hn, hid⟩
  successorInProject n hn r hr := by
    rcases List.mem_append.mp hn with hold | hnew
    · obtain ⟨m, hm, hid⟩ := db.successorInProject n hold r hr
      exact ⟨m, List.mem_append_left _ hm, hid⟩
    · rw [List.mem_singleton.mp hnew] at hr
      exact absurd hr (Option.not_mem_none r)
  edgeUnique := db.edgeUnique
  edgeRows e he := by
    rw [List.map_append]
    exact ⟨List.mem_append_left _ (db.edgeRows e he).1, List.mem_append_left _ (db.edgeRows e he).2⟩

/-- The insert as a statement, giving the rowid. -/
def insertNote (note : NewNote) : Write (LinkedDb Vec) Nat := fun db =>
  if h : db.Accepts note then some (db.insertNote note h, db.nextRowid) else none

/-! ## Inserting a vector -/

/-- The row exists and has no vector. -/
def LinkedDb.AcceptsVector (db : LinkedDb Vec) (rowid : Nat) : Prop :=
  rowid ∈ db.notes.map NoteRow.rowid ∧ rowid ∉ db.embeddings.map Prod.fst

instance (db : LinkedDb Vec) (rowid : Nat) : Decidable (db.AcceptsVector rowid) :=
  inferInstanceAs (Decidable (_ ∧ _))

/-- `INSERT INTO note_embeddings`. -/
def LinkedDb.insertVector (db : LinkedDb Vec) (rowid : Nat) (v : Vec) (h : db.AcceptsVector rowid) :
    LinkedDb Vec :=
  { db with
    embeddings := db.embeddings ++ [(rowid, v)]
    vectorUnique := by
      rw [List.map_append]
      exact nodup_append_singleton db.vectorUnique h.2
    vectorRows := by
      intro e he
      rcases List.mem_append.mp he with hold | hnew
      · exact db.vectorRows e hold
      · rw [List.mem_singleton.mp hnew]
        exact List.mem_map.mp h.1 }

def insertVector (rowid : Nat) (v : Vec) : Write (LinkedDb Vec) Unit := fun db =>
  if h : db.AcceptsVector rowid then some (db.insertVector rowid v h, ()) else none

/-- The vector of a row just inserted is always accepted. -/
theorem LinkedDb.acceptsVector_insertNote (db : LinkedDb Vec) (note : NewNote)
    (h : db.Accepts note) : (db.insertNote note h).AcceptsVector db.nextRowid := by
  constructor
  · show db.nextRowid ∈ (db.notes ++ [note.row db.nextRowid]).map NoteRow.rowid
    rw [List.map_append]
    exact List.mem_append_right _ (List.mem_singleton.mpr rfl)
  · show db.nextRowid ∉ db.embeddings.map Prod.fst
    intro hmem
    obtain ⟨e, he, hid⟩ := List.mem_map.mp hmem
    obtain ⟨n, hn, hrow⟩ := db.vectorRows e he
    have hlt := db.rowidsBelow n hn
    omega

/-! ## Relations -/

variable {projectId : Nat}
variable {db : ServerDb Vec} {noteId : String} {rowid : Nat}

/-- `SELECT id FROM notes WHERE sync_id = .. AND project_id = ..`. -/
def ServerDb.resolveRowid (db : ServerDb Vec) (projectId : Nat) (noteId : String) : Option Nat :=
  (db.notes.find? fun n => n.syncId = noteId && n.projectId = projectId).map NoteRow.rowid

theorem ServerDb.resolveRowid_eq_some_iff : db.resolveRowid projectId noteId = some rowid ↔
      ∃ n ∈ db.notes, n.syncId = noteId ∧ n.projectId = projectId ∧ n.rowid = rowid := by
  rw [ServerDb.resolveRowid, Option.map_eq_some_iff]
  constructor
  · rintro ⟨n, hfind, hid⟩
    have hcond := List.find?_some hfind
    simp only [Bool.and_eq_true, decide_eq_true_eq] at hcond
    exact ⟨n, List.mem_of_find?_eq_some hfind, hcond.1, hcond.2, hid⟩
  · rintro ⟨n, hn, hsync, hproject, hid⟩
    have hsome : (db.notes.find? fun n => n.syncId = noteId && n.projectId = projectId).isSome :=
      List.find?_isSome.mpr ⟨n, hn, by simp [hsync, hproject]⟩
    obtain ⟨m, hm⟩ := Option.isSome_iff_exists.mp hsome
    have hcond := List.find?_some hm
    simp only [Bool.and_eq_true, decide_eq_true_eq] at hcond
    have hmn : m = n := List.inj_on_of_nodup_map db.syncUnique (List.mem_of_find?_eq_some hm) hn
      (hcond.1.trans hsync.symm)
    exact ⟨m, hm, hmn ▸ hid⟩

theorem ServerDb.mem_rowids_of_resolveRowid
    (h : db.resolveRowid projectId noteId = some rowid) : rowid ∈ db.notes.map NoteRow.rowid := by
  obtain ⟨n, hn, -, -, hid⟩ := ServerDb.resolveRowid_eq_some_iff.mp h
  exact List.mem_map.mpr ⟨n, hn, hid⟩

def VALID_KINDS : List String := ["supersedes", "relates_to", "contradicts"]

/-- `INSERT OR IGNORE INTO note_edges`. -/
def LinkedDb.insertEdge (db : LinkedDb Vec) (e : NoteEdge)
    (h : e.fromId ∈ db.notes.map NoteRow.rowid ∧ e.toId ∈ db.notes.map NoteRow.rowid) :
    LinkedDb Vec :=
  { db with
    edges := if e ∈ db.edges then db.edges else db.edges ++ [e]
    edgeUnique := by
      by_cases he : e ∈ db.edges
      · rw [if_pos he]
        exact db.edgeUnique
      · rw [if_neg he]
        exact nodup_append_singleton db.edgeUnique he
    edgeRows := by
      intro f hf
      by_cases he : e ∈ db.edges
      · rw [if_pos he] at hf
        exact db.edgeRows f hf
      · rw [if_neg he] at hf
        rcases List.mem_append.mp hf with hold | hnew
        · exact db.edgeRows f hold
        · rw [List.mem_singleton.mp hnew]
          exact h }

def addEdge (fromId toId : Nat) (kind : String) : Write (LinkedDb Vec) Unit := fun db =>
  if kind ∈ VALID_KINDS then
    if h : fromId ∈ db.notes.map NoteRow.rowid ∧ toId ∈ db.notes.map NoteRow.rowid then
      some (db.insertEdge ⟨fromId, toId, kind⟩ h, ())
    else none
  else none

/-! ## Superseding -/

/-- The row the UPDATE of `supersede_note` leaves in a row's place. -/
def NoteRow.supersededIn (projectId : Nat) (oldId : String) (newRowid : Nat) (n : NoteRow) :
    NoteRow :=
  if n.syncId = oldId ∧ n.projectId = projectId ∧ n.status = "active" then
    { n with status := "archived", supersededBy := some newRowid }
  else n

@[simp] theorem NoteRow.supersededIn_rowid (projectId : Nat) (oldId : String) (newRowid : Nat)
    (n : NoteRow) : (n.supersededIn projectId oldId newRowid).rowid = n.rowid := by
  unfold NoteRow.supersededIn
  split <;> rfl

@[simp] theorem NoteRow.supersededIn_syncId (projectId : Nat) (oldId : String) (newRowid : Nat)
    (n : NoteRow) : (n.supersededIn projectId oldId newRowid).syncId = n.syncId := by
  unfold NoteRow.supersededIn
  split <;> rfl

@[simp] theorem NoteRow.supersededIn_projectId (projectId : Nat) (oldId : String) (newRowid : Nat)
    (n : NoteRow) : (n.supersededIn projectId oldId newRowid).projectId = n.projectId := by
  unfold NoteRow.supersededIn
  split <;> rfl

@[simp] theorem NoteRow.supersededIn_pushKey (projectId : Nat) (oldId : String) (newRowid : Nat)
    (n : NoteRow) : (n.supersededIn projectId oldId newRowid).pushKey = n.pushKey := by
  unfold NoteRow.supersededIn
  split <;> rfl

/-- The successors of a row after the UPDATE: its own, or the new one in its project. -/
theorem NoteRow.mem_supersededIn_supersededBy {oldId : String} {newRowid r : Nat} {n : NoteRow}
    (h : r ∈ (n.supersededIn projectId oldId newRowid).supersededBy) :
    r ∈ n.supersededBy ∨ r = newRowid ∧ n.projectId = projectId := by
  unfold NoteRow.supersededIn at h
  split at h
  · next hcond => exact .inr ⟨(Option.some.inj h).symm, hcond.2.1⟩
  · exact .inl h

/-- The UPDATE of `supersede_note`, once its successor is resolved. -/
def LinkedDb.supersede (db : LinkedDb Vec) (projectId : Nat) (oldId : String) (newRowid : Nat)
    (h : ∃ m ∈ db.notes, m.rowid = newRowid ∧ m.projectId = projectId) : LinkedDb Vec where
  projects := db.projects
  notes := db.notes.map (NoteRow.supersededIn projectId oldId newRowid)
  embeddings := db.embeddings
  edges := db.edges
  nextRowid := db.nextRowid
  slugUnique := db.slugUnique
  rowidUnique := by
    simpa [List.map_map, Function.comp_def] using db.rowidUnique
  syncUnique := by
    simpa [List.map_map, Function.comp_def] using db.syncUnique
  remoteUnique := by
    simpa [List.filterMap_map, Function.comp_def] using db.remoteUnique
  rowidsBelow n hn := by
    obtain ⟨m, hm, rfl⟩ := List.mem_map.mp hn
    simpa using db.rowidsBelow m hm
  vectorUnique := db.vectorUnique
  vectorRows e he := by
    obtain ⟨n, hn, hid⟩ := db.vectorRows e he
    exact ⟨_, List.mem_map_of_mem hn, by simpa using hid⟩
  successorInProject n hn r hr := by
    obtain ⟨m, hm, rfl⟩ := List.mem_map.mp hn
    rcases NoteRow.mem_supersededIn_supersededBy hr with hold | ⟨rfl, hproject⟩
    · obtain ⟨s, hs, hid, hp⟩ := db.successorInProject m hm r hold
      exact ⟨_, List.mem_map_of_mem hs, by simpa using hid, by simpa using hp⟩
    · obtain ⟨s, hs, hid, hp⟩ := h
      exact ⟨_, List.mem_map_of_mem hs, by simpa using hid, by simpa [hproject] using hp⟩
  edgeUnique := db.edgeUnique
  edgeRows := by
    simpa [List.map_map, Function.comp_def] using db.edgeRows

theorem ServerDb.exists_of_resolveRowid (h : db.resolveRowid projectId noteId = some rowid) :
    ∃ m ∈ db.notes, m.rowid = rowid ∧ m.projectId = projectId := by
  obtain ⟨n, hn, -, hproject, hid⟩ := ServerDb.resolveRowid_eq_some_iff.mp h
  exact ⟨n, hn, hid, hproject⟩

/-- `supersede_note`: nothing is written when the successor does not resolve. -/
def supersedeNote (projectId : Nat) (oldId newId : String) : Write (LinkedDb Vec) Bool := fun db =>
  match h : db.resolveRowid projectId newId with
  | none => some (db, false)
  | some newRowid =>
    some (db.supersede projectId oldId newRowid (ServerDb.exists_of_resolveRowid h),
      db.notes.any fun n => n.syncId = oldId && n.projectId = projectId && n.status = "active")

/-! ## Adding an entry -/

/-- How the statements of an insert end. -/
structure InsertFaults where
  insert : Outcome
  vector : Outcome
  deriving DecidableEq, Repr

/-- `add_note_with_sync_id`: the row, then its vector, giving the rowid and the exported id. -/
def addNoteWithSyncId (faults : InsertFaults) (note : NewNote) (embedding : Option Vec) :
    Sql (LinkedDb Vec) (Nat × String) := do
  let rowid ← Sql.statement faults.insert (insertNote note)
  match embedding with
  | some vec => Sql.statement faults.vector (insertVector rowid vec)
  | none => pure ()
  pure (rowid, note.syncId)

theorem regular_addNoteWithSyncId (faults : InsertFaults) (note : NewNote)
    (embedding : Option Vec) : Regular (addNoteWithSyncId faults note embedding) := by
  cases embedding with
  | none =>
    exact (regular_statement _ _).bind fun rowid => (regular_pure ()).bind fun _ => regular_pure _
  | some vec =>
    exact (regular_statement _ _).bind fun rowid => (regular_statement _ _).bind fun _ =>
      regular_pure _

/-- The tables with the entry and its vector, if it has one. -/
def LinkedDb.addEntry (db : LinkedDb Vec) (note : NewNote) (embedding : Option Vec)
    (h : db.Accepts note) : LinkedDb Vec :=
  match embedding with
  | none => db.insertNote note h
  | some v => (db.insertNote note h).insertVector db.nextRowid v (db.acceptsVector_insertNote note h)

theorem LinkedDb.addEntry_projects (db : LinkedDb Vec) (note : NewNote) (embedding : Option Vec)
    (h : db.Accepts note) : (db.addEntry note embedding h).projects = db.projects := by
  cases embedding <;> rfl

theorem LinkedDb.addEntry_notes (db : LinkedDb Vec) (note : NewNote) (embedding : Option Vec)
    (h : db.Accepts note) :
    (db.addEntry note embedding h).notes = db.notes ++ [note.row db.nextRowid] := by
  cases embedding <;> rfl

theorem LinkedDb.addEntry_nextRowid (db : LinkedDb Vec) (note : NewNote) (embedding : Option Vec)
    (h : db.Accepts note) : (db.addEntry note embedding h).nextRowid = db.nextRowid + 1 := by
  cases embedding <;> rfl

theorem LinkedDb.addEntry_edges (db : LinkedDb Vec) (note : NewNote) (embedding : Option Vec)
    (h : db.Accepts note) : (db.addEntry note embedding h).edges = db.edges := by
  cases embedding <;> rfl

theorem LinkedDb.addEntry_embeddings (db : LinkedDb Vec) (note : NewNote) (embedding : Option Vec)
    (h : db.Accepts note) : (db.addEntry note embedding h).embeddings =
      db.embeddings ++ (embedding.map fun v => (db.nextRowid, v)).toList := by
  cases embedding with
  | none => exact (List.append_nil _).symm
  | some v => rfl

/-- The insert of this entry works: its statements do, and the tables accept it. -/
structure InsertFaults.Allow (faults : InsertFaults) (db : LinkedDb Vec) (note : NewNote)
    (embedding : Option Vec) : Prop where
  insert : faults.insert = .done
  vector : embedding.isSome → faults.vector = .done
  accepts : db.Accepts note

theorem effect_addNoteWithSyncId_eq_some_iff {faults : InsertFaults} {db : LinkedDb Vec}
    {note : NewNote} {embedding : Option Vec} {r : LinkedDb Vec × Nat × String} :
    (addNoteWithSyncId faults note embedding).effect db = some r ↔
      ∃ h : faults.Allow db note embedding,
        r = (db.addEntry note embedding h.accepts, db.nextRowid, note.syncId) := by
  cases embedding with
  -- without an embedding there is one statement
  | none =>
    have hstep : (addNoteWithSyncId faults note (none : Option Vec)).effect db = some r ↔
        ∃ db' rowid, (Sql.statement faults.insert (insertNote note)).effect db = some (db', rowid) ∧
          (db', rowid, note.syncId) = r := by
      refine (effect_bind_eq_some_iff (regular_statement _ _) fun rowid =>
        (regular_pure ()).bind fun _ => regular_pure _).trans ?_
      refine exists_congr fun db' => exists_congr fun rowid => and_congr_right fun _ => ?_
      exact Option.some_inj
    rw [hstep]
    constructor
    · rintro ⟨db', rowid, hinsert, rfl⟩
      obtain ⟨hdone, hnote⟩ := effect_statement_eq_some_iff.mp hinsert
      simp only [insertNote, Option.dite_none_right_eq_some] at hnote
      obtain ⟨haccepts, hrow⟩ := hnote
      obtain ⟨rfl, rfl⟩ := Prod.mk.inj (Option.some.inj hrow)
      exact ⟨⟨hdone, by simp, haccepts⟩, rfl⟩
    · rintro ⟨h, rfl⟩
      refine ⟨_, _, effect_statement_eq_some_iff.mpr ⟨h.insert, ?_⟩, rfl⟩
      simp only [insertNote, dif_pos h.accepts, LinkedDb.addEntry]
  -- with one there are two, and the second has the row id of the first
  | some v =>
    have hstep : (addNoteWithSyncId faults note (some v)).effect db = some r ↔
        ∃ db' rowid, (Sql.statement faults.insert (insertNote note)).effect db = some (db', rowid) ∧
          ∃ db'' u, (Sql.statement faults.vector (insertVector rowid v)).effect db' = some (db'', u) ∧
            (db'', rowid, note.syncId) = r := by
      refine (effect_bind_eq_some_iff (regular_statement _ _) fun rowid =>
        (regular_statement _ _).bind fun _ => regular_pure _).trans ?_
      refine exists_congr fun db' => exists_congr fun rowid => and_congr_right fun _ => ?_
      refine (effect_bind_eq_some_iff (regular_statement _ _) fun _ => regular_pure _).trans ?_
      refine exists_congr fun db'' => exists_congr fun u => and_congr_right fun _ => ?_
      exact Option.some_inj
    rw [hstep]
    constructor
    · rintro ⟨db', rowid, hinsert, db'', u, hvector, rfl⟩
      obtain ⟨hdone, hnote⟩ := effect_statement_eq_some_iff.mp hinsert
      simp only [insertNote, Option.dite_none_right_eq_some] at hnote
      obtain ⟨haccepts, hrow⟩ := hnote
      obtain ⟨rfl, rfl⟩ := Prod.mk.inj (Option.some.inj hrow)
      obtain ⟨hvdone, hvec⟩ := effect_statement_eq_some_iff.mp hvector
      rw [insertVector, dif_pos (db.acceptsVector_insertNote note haccepts)] at hvec
      obtain ⟨rfl, -⟩ := Prod.mk.inj (Option.some.inj hvec)
      exact ⟨⟨hdone, fun _ => hvdone, haccepts⟩, rfl⟩
    · rintro ⟨h, rfl⟩
      refine ⟨_, _, effect_statement_eq_some_iff.mpr ⟨h.insert, dif_pos h.accepts⟩, _, (),
        effect_statement_eq_some_iff.mpr ⟨h.vector rfl, ?_⟩, rfl⟩
      exact dif_pos (db.acceptsVector_insertNote note h.accepts)

end Server
end Inkentry
