/-
  Inkentry.Superseding

  Replacing one entry by another, in the local store and on the team server.  A
  call fails and leaves every row, edge, tag and file link as it was, or the
  old entry is archived for another one.  Nothing is archived when the new
  content is that of the old entry itself.

  `supersede` and the server's `supersede_note` are given two entries; that they
  are two is up to the caller.
-/

import Inkentry.Memory.Superseding
import Inkentry.Server.ProjectDims

namespace Inkentry
namespace Superseding

open Transaction Memory

variable {Vec : Type}

/-! ## The server -/

/-- `db'` is `db` with an active row of the project archived for another row of it. -/
structure ServerReplaces (db db' : Server.LinkedDb Vec) (projectId : ℕ) (oldId newId : String) :
    Prop where
  active : ∃ n ∈ db.notes, n.syncId = oldId ∧ n.projectId = projectId ∧ n.status = "active"
  rows : ∃ m ∈ db.notes, m.syncId = newId ∧ m.projectId = projectId
    ∧ db'.notes = db.notes.map (Server.NoteRow.supersededIn projectId oldId m.rowid)

/-- A call of `supersede_note` leaves everything or replaces the old row.  The server keeps
    no edge for it. -/
def ServerReplacesOrLeaves (db : Server.LinkedDb Vec) (projectId : ℕ) (oldId newId : String)
    (r : Connection (Server.LinkedDb Vec) × Option Bool) : Prop :=
  r = (.idle db, none) ∨ ∃ db' changed, r = (.idle db', some changed)
    ∧ db'.edges = db.edges ∧ db'.embeddings = db.embeddings ∧ db'.projects = db.projects
    ∧ if changed then ServerReplaces db db' projectId oldId newId else db'.notes = db.notes

/-- A row of the server is its own successor. -/
def ServerSelfSuperseded (db : Server.LinkedDb Vec) (rowid : ℕ) : Prop :=
  ∃ n ∈ db.notes, n.rowid = rowid ∧ n.supersededBy = some rowid

section Server

variable {db db' : Server.LinkedDb Vec} {projectId : ℕ} {oldId newId : String}
variable {rowid : ℕ}

/-- The UPDATE matches no row when none of the project is active under the id. -/
theorem map_supersededIn_eq
    (h : ∀ n ∈ db.notes, ¬ (n.syncId = oldId ∧ n.projectId = projectId ∧ n.status = "active")) :
    db.notes.map (Server.NoteRow.supersededIn projectId oldId rowid) = db.notes := by
  refine (List.map_congr_left fun n hn => ?_).trans (List.map_id _)
  rw [Server.NoteRow.supersededIn, if_neg (h n hn)]
  rfl

theorem serverReplacesOrLeaves (outcome : Outcome) (db : Server.LinkedDb Vec) (projectId : ℕ)
    (oldId newId : String) : ServerReplacesOrLeaves db projectId oldId newId
      (Sql.statement outcome (Server.supersedeNote projectId oldId newId) (.idle db)) := by
  cases outcome with
  | failed => exact .inl rfl
  | rolledBack => exact .inl rfl
  | done =>
    have hrun {r : Server.LinkedDb Vec × Bool}
        (hr : Server.supersedeNote projectId oldId newId db = some r) :=
      statement_of_some hr
    refine .inr ?_
    unfold Server.supersedeNote at hrun
    split at hrun
    case h_1 _ =>
      exact ⟨db, false, hrun rfl, rfl, rfl, rfl, rfl⟩
    case h_2 rowid hresolve =>
      refine ⟨_, _, hrun rfl, rfl, rfl, rfl, ?_⟩
      obtain ⟨m, hm, hsync, hproject, rfl⟩ := Server.ServerDb.resolveRowid_eq_some_iff.mp hresolve
      split
      case isTrue hany =>
        obtain ⟨n, hn, hactive⟩ := List.any_eq_true.mp hany
        exact ⟨⟨n, hn, by simpa [and_assoc] using hactive⟩, m, hm, hsync, hproject, rfl⟩
      case isFalse hany =>
        refine map_supersededIn_eq fun n hn hactive => hany (List.any_eq_true.mpr ⟨n, hn, ?_⟩)
        simpa [and_assoc] using hactive

theorem ServerReplaces.selfSuperseded (h : ServerReplaces db db' projectId oldId newId)
    (hne : newId ≠ oldId) (hself : ServerSelfSuperseded db' rowid) :
    ServerSelfSuperseded db rowid := by
  obtain ⟨m, hm, hsync, -, hrows⟩ := h.rows
  obtain ⟨n', hn', hid, hself⟩ := hself
  rw [hrows] at hn'
  obtain ⟨n, hn, rfl⟩ := List.mem_map.mp hn'
  rw [Server.NoteRow.supersededIn_rowid] at hid
  unfold Server.NoteRow.supersededIn at hself
  split at hself
  case isTrue hold =>
    -- the row of the new id is not the row of the old one
    have hrowid : m.rowid = n.rowid := (Option.some.inj hself).trans hid.symm
    have hmn : m = n := List.inj_on_of_nodup_map db.rowidUnique hm hn hrowid
    exact absurd (hsync.symm.trans (hmn ▸ hold.1)) hne
  case isFalse => exact ⟨n, hn, hid, hself⟩

theorem ServerReplacesOrLeaves.selfSuperseded {r : Connection (Server.LinkedDb Vec) × Option Bool}
    (h : ServerReplacesOrLeaves db projectId oldId newId r) (hne : newId ≠ oldId)
    (hself : ServerSelfSuperseded r.1.db rowid) : ServerSelfSuperseded db rowid := by
  rcases h with rfl | ⟨db', changed, rfl, -, -, -, hrows⟩
  · exact hself
  · cases changed with
    | true => exact ServerReplaces.selfSuperseded hrows hne hself
    | false =>
      obtain ⟨n, hn, hrow⟩ := hself
      have hnotes : db'.notes = db.notes := hrows
      exact ⟨n, hnotes ▸ hn, hrow⟩

end Server

/-! ## The law -/

/-- Replacing an entry is atomic, and no row becomes its own successor.  A COMMIT that fails
    and leaves its transaction open is left out, and so is a call of `supersede` with one id
    for both entries. -/
theorem superseding_law (env : StoreEnv) (call : SupersedingCall) (c : Connection Store)
    {faults : SupersedingFaults} (hending : faults.ending ≠ .failed) (sqlNow : Int)
    {oldId newId : NoteId} (hne : newId ≠ oldId) (outcome : Outcome) (db : Server.LinkedDb Vec)
    (projectId : ℕ) {oldSyncId newSyncId : String} (hsync : newSyncId ≠ oldSyncId) :
    let added := addNoteSuperseding env faults call c
    let replaced := supersede faults sqlNow oldId newId c
    let onServer := Sql.statement outcome (Server.supersedeNote projectId oldSyncId newSyncId)
      (.idle db)
    (AddsOrLeaves env call c added
        ∧ ∀ id, SelfSuperseded added.1.db id → SelfSuperseded c.db id)
      ∧ (ReplacesOrLeaves sqlNow oldId newId c replaced
        ∧ ∀ id, SelfSuperseded replaced.1.db id → SelfSuperseded c.db id)
      ∧ ServerReplacesOrLeaves db projectId oldSyncId newSyncId onServer
        ∧ ∀ rowid, ServerSelfSuperseded onServer.1.db rowid → ServerSelfSuperseded db rowid := by
  intro added replaced onServer
  have hadded : AddsOrLeaves env call c added := addsOrLeaves hending env call c
  have hreplaced : ReplacesOrLeaves sqlNow oldId newId c replaced :=
    replacesOrLeaves hending sqlNow hne c
  have hserver : ServerReplacesOrLeaves db projectId oldSyncId newSyncId onServer :=
    serverReplacesOrLeaves outcome db projectId oldSyncId newSyncId
  exact ⟨⟨hadded, fun _ => hadded.selfSuperseded⟩, ⟨hreplaced, fun _ => hreplaced.selfSuperseded⟩,
    hserver, fun _ => hserver.selfSuperseded hsync⟩

/-! ## The content of the old entry -/

def plainEnv : StoreEnv := ⟨fun _ => "e", some, some⟩

/-- An active entry. -/
def oldRow : Note where
  id := ⟨"a"⟩
  entityId := "e"
  kind := "decision"
  title := "t"
  body := ""
  tags := []
  linkedFiles := []
  createdAt := 0
  status := "active"
  supersededBy := none
  sourceRef := none
  validAt := none
  invalidAt := none
  remoteId := none
  origin := none

def oneRow : Store := ⟨[oldRow], [], by decide, by decide, by decide⟩

/-- A call that gives the entry's own content for its successor. -/
def sameContent : SupersedingCall where
  uuid := ⟨"b"⟩
  createdAt := 1
  sqlNow := 1
  input := ⟨"decision", "t", "", [], [], none, none⟩
  supersedesId := ⟨"a"⟩
  minted := by decide

def noFaults : SupersedingFaults := ⟨.done, .done, .done, .done, .done, .done, .done⟩

/-- The law at a call that changes nothing, and at two ids that are not there. -/
theorem superseding_law_sameContent :
    AddsOrLeaves plainEnv sameContent (.idle oneRow)
        (addNoteSuperseding plainEnv noFaults sameContent (.idle oneRow))
      ∧ ReplacesOrLeaves 1 ⟨"a"⟩ ⟨"c"⟩ (.idle oneRow) (supersede noFaults 1 ⟨"a"⟩ ⟨"c"⟩ (.idle oneRow))
      ∧ ServerReplacesOrLeaves (.empty : Server.LinkedDb Unit) 1 "1" "2"
        (Sql.statement .done (Server.supersedeNote 1 "1" "2") (.idle .empty)) := by
  have hending : noFaults.ending ≠ .failed := by decide
  have hne : (⟨"c"⟩ : NoteId) ≠ ⟨"a"⟩ := by decide
  obtain ⟨⟨hadded, -⟩, ⟨hreplaced, -⟩, hserver, -⟩ := superseding_law plainEnv sameContent
    (.idle oneRow) hending 1 hne .done (.empty : Server.LinkedDb Unit) 1
    (show "2" ≠ "1" by decide)
  exact ⟨hadded, hreplaced, hserver⟩

/-- A successor with the old entry's own content is accepted, and archives nothing. -/
theorem not_replaces_of_same_content :
    ¬ ∀ (env : StoreEnv) (faults : SupersedingFaults) (call : SupersedingCall)
      (c : Connection Store),
      addNoteSuperseding env faults call c = (c, none)
      ∨ ∃ id created s₁ s', addNoteSuperseding env faults call c = (.idle s', some (id, created))
        ∧ StoresEntry env call c.db s₁ id created
        ∧ Replaces s₁ s' call.sqlNow call.supersedesId id := by
  intro h
  have hrun : (addNoteSuperseding plainEnv noFaults sameContent (.idle oneRow)).2
      = some (⟨"a"⟩, false) := by decide
  rcases h plainEnv noFaults sameContent (.idle oneRow) with
    hnone | ⟨id, created, s₁, s', hsome, -, hreplaces⟩
  · rw [hnone] at hrun
    exact absurd hrun (by simp)
  · rw [hsome] at hrun
    have hid : id = ⟨"a"⟩ := congrArg Prod.fst (Option.some.inj hrun)
    exact hreplaces.apart hid

end Superseding
end Inkentry
