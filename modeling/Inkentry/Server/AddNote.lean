/-
  Inkentry.Server.AddNote

  The single add of the team server: the project is registered with the
  dimension of the entry's vector (0 when it has none), the near duplicates are
  looked up, and the entry is stored with its resolutions.

  The request is one that has passed validation and was admitted to the embedder.
  The text is embedded before the database is locked, and the outcome of that
  call is part of the request.  Every statement works, so what a write does
  depends on the tables alone: the run lemmas below say it in closed form.
-/

import Inkentry.Server.Batch
import Inkentry.Server.Resolutions
import Inkentry.Server.Search

namespace Inkentry
namespace Server

open Transaction
open Batch (Config StorageEmbedding)

/-! ## The handler -/

structure AddNoteRequest (Vec : Type*) where
  slug : String
  kind : String
  title : String
  body : String
  tags : List String
  linkedFiles : List String
  vector : Option Vec
  reconcile : Option String
  /-- Kinds with their targets. -/
  resolutions : List (String × String)
  embedded : StorageEmbedding Vec
  minted : String
  now : Int
  /-- The id is minted after the request named its targets. -/
  unnamed : ∀ r ∈ resolutions, r.2 ≠ minted

section Request

variable {Vec : Type*}

/-- The server's vector, for an entry that came without one. -/
def AddNoteRequest.serverEmbedding (req : AddNoteRequest Vec) : Option Vec :=
  if req.vector.isNone then
    match req.embedded with
    | .vectors found => found.getLast?
    | .notReady => none
    | .failed => none
  else none

def AddNoteRequest.embedding (req : AddNoteRequest Vec) : Option Vec :=
  req.vector.or req.serverEmbedding

/-- `embedding.map(|v| v.len()).unwrap_or(0)`. -/
def AddNoteRequest.dim (length : Vec → Nat) (req : AddNoteRequest Vec) : Nat :=
  (req.embedding.map length).getD 0

def AddNoteRequest.note (req : AddNoteRequest Vec) (projectId : Nat) : NewNote where
  projectId := projectId
  kind := req.kind
  title := req.title
  body := req.body
  tags := req.tags
  linkedFiles := req.linkedFiles
  remoteId := none
  syncId := req.minted
  createdAt := req.now

def AddNoteRequest.call (req : AddNoteRequest Vec) (projectId : Nat) : AddCall Vec where
  note := req.note projectId
  embedding := req.embedding
  resolutions := req.resolutions
  unnamed := req.unnamed
  unpushed := rfl

end Request

inductive AddNoteResponse (D : Type) where
  /-- **409**: nothing is written. -/
  | conflict (candidates related : List (Candidate D))
  /-- **201**. -/
  | created (id : String) (candidates related : List (Candidate D))

def RegisterFaults.working : RegisterFaults := ⟨.done, .done, .done, .done⟩

def InsertFaults.working : InsertFaults := ⟨.done, .done⟩

def Faults.working : Faults := ⟨.done, InsertFaults.working, fun _ => .done, .done⟩

/-- What a server is started with: its configured dimension and model, and how it compares
    vectors. -/
structure Setup (Vec : Type) (D : Type) where
  config : Config
  length : Vec → Nat
  distance : Vec → Vec → D
  floors : Floors D

variable {Vec D : Type} [LinearOrder D]

/-- `reconcile: "block"` with nothing to resolve a duplicate. -/
def AddNoteRequest.blocks (req : AddNoteRequest Vec) : Bool :=
  req.reconcile = some "block" && req.resolutions.isEmpty

/-- The handler, with whether it raises the repair signal. -/
def Setup.addNote (server : Setup Vec D) (req : AddNoteRequest Vec) :
    Sql (LinkedDb Vec) (AddNoteResponse D × Bool) := do
  let project ← upsertProject RegisterFaults.working req.slug (req.dim server.length)
    server.config.embeddingModel
  let candidates ← Sql.statement .done (Write.read fun db =>
    db.findCandidates server.distance server.floors project.id req.embedding none)
  let bands := candidates.partition fun c => c.band = .duplicate
  if req.blocks && !bands.1.isEmpty then pure (.conflict bands.1 bands.2, false)
  else do
    let stored ← addNoteWithResolutions Faults.working (req.call project.id)
    -- raised after the insert, never before it
    pure (.created stored.2 bands.1 bands.2, req.embedding.isNone)

/-! ## Registering, when every statement works -/

section Register

variable {db db' : LinkedDb Vec} {slug model : String} {dim : Nat}

/-- The project once a write has recorded what it had not. -/
def Project.stamped (p : Project) (dim : Nat) (model : String) : Project :=
  { p with
    embeddingDim := if p.embeddingDim = 0 then dim else p.embeddingDim
    embeddingModel := some (p.embeddingModel.getD model) }

/-- The projects after a registration. -/
def ServerDb.registered (db : ServerDb Vec) (slug : String) (dim : Nat) (model : String) :
    List Project :=
  match db.project? slug with
  | some p => db.projects.map fun q => if q.id = p.id then p.stamped dim model else q
  | none => db.projects ++ [⟨db.nextProjectId, slug, dim, some model⟩]

/-- The write fits what the project has on record, if it is on record. -/
def ServerDb.FitsRecord (db : ServerDb Vec) (slug : String) (dim : Nat) (model : String) : Prop :=
  ∀ p, db.project? slug = some p → p.Fits dim model

theorem ServerDb.project?_mem {db : ServerDb Vec} {p : Project} (h : db.project? slug = some p) :
    p ∈ db.projects ∧ p.slug = slug :=
  ⟨List.mem_of_find?_eq_some h, by simpa using List.find?_some h⟩

/-- What an optional UPDATE of one project leaves. -/
structure Updated (cond : Prop) [Decidable cond] (id : Nat) (f : Project → Project)
    (db db' : LinkedDb Vec) : Prop where
  rows : SameRows db db'
  projects : db'.projects = db.projects.map fun q => if cond ∧ q.id = id then f q else q

theorem run_update {cond : Prop} [Decidable cond] {id : Nat} {f : Project → Project}
    (hslug : ∀ p, (f p).slug = p.slug) {p : Write (LinkedDb Vec) PUnit.{1}}
    (hp : p db = some (db.updateProject id f hslug, ⟨⟩)) :
    ∃ db', Sql.onlyIf cond (Sql.statement .done p) (Connection.idle db) =
      (Connection.idle db', some ⟨⟩) ∧ Updated cond id f db db' := by
  by_cases hcond : cond
  · refine ⟨db.updateProject id f hslug, ?_, ⟨rfl, rfl, rfl, rfl⟩, ?_⟩
    · rw [Sql.onlyIf, if_pos hcond]
      exact statement_of_some hp
    · simp only [hcond, true_and]
      rfl
  · refine ⟨db, ?_, SameRows.refl db, ?_⟩
    · rw [Sql.onlyIf, if_neg hcond]
      rfl
    · simp only [hcond, false_and, if_false, List.map_id']

/-- A project's id is its own, so the two UPDATEs stamp the project and no other. -/
theorem run_stampProject (hids : (db.projects.map Project.id).Nodup) {p : Project}
    (hp : p ∈ db.projects) :
    ∃ db', stampProject RegisterFaults.working p dim model (Connection.idle db) =
        (Connection.idle db', some (p.stamped dim model)) ∧ SameRows db db' ∧
      db'.projects = db.projects.map fun q => if q.id = p.id then p.stamped dim model else q := by
  obtain ⟨db₁, hrun₁, hdim⟩ : ∃ db₁, Sql.onlyIf (p.embeddingDim = 0)
      (Sql.statement .done (setDim p.id dim)) (Connection.idle db) =
        (Connection.idle db₁, some ⟨⟩) ∧
      Updated (p.embeddingDim = 0) p.id (fun q => { q with embeddingDim := dim }) db db₁ :=
    run_update (f := fun q => { q with embeddingDim := dim }) (fun _ => rfl) rfl
  obtain ⟨db₂, hrun₂, hmodel⟩ : ∃ db₂, Sql.onlyIf (p.embeddingModel = none)
      (Sql.statement .done (setModel p.id model)) (Connection.idle db₁) =
        (Connection.idle db₂, some ⟨⟩) ∧
      Updated (p.embeddingModel = none) p.id
        (fun q => { q with embeddingModel := some model }) db₁ db₂ :=
    run_update (f := fun q => { q with embeddingModel := some model }) (fun _ => rfl) rfl
  refine ⟨db₂, ?_, hdim.rows.trans hmodel.rows, ?_⟩
  · rw [stampProject, RegisterFaults.working, Sql.bind_of_some hrun₁, Sql.bind_of_some hrun₂]
    rfl
  · rw [hmodel.projects, hdim.projects, List.map_map]
    refine List.map_congr_left fun q hq => ?_
    by_cases hid : q.id = p.id
    · obtain rfl : q = p := List.inj_on_of_nodup_map hids hq hp hid
      obtain ⟨id, slug, d, m⟩ := q
      cases m with
      | none => by_cases hd : d = 0 <;> simp [Project.stamped, hd]
      | some m => by_cases hd : d = 0 <;> simp [Project.stamped, hd]
    · simp [hid]

/-- What a registration leaves, of the projects and for the caller. -/
structure Registered (db : LinkedDb Vec) (slug : String) (dim : Nat) (model : String)
    (db' : LinkedDb Vec) (p : Project) : Prop where
  rows : SameRows db db'
  projects : db'.projects = db.registered slug dim model
  id : p.id = db.projectIdOf slug

theorem run_upsertProject (hids : (db.projects.map Project.id).Nodup)
    (hfits : db.FitsRecord slug dim model) :
    ∃ db' p, upsertProject RegisterFaults.working slug dim model (Connection.idle db) =
      (Connection.idle db', some p) ∧ Registered db slug dim model db' p := by
  have hlookup : Sql.statement RegisterFaults.working.lookup
      (Write.read fun db : LinkedDb Vec => db.project? slug) (Connection.idle db) =
        (Connection.idle db, some (db.project? slug)) := rfl
  cases hproject : db.project? slug with
  | some p =>
    obtain ⟨db', hrun, hrows, hprojects⟩ :=
      @run_stampProject Vec db model dim hids p (ServerDb.project?_mem hproject).1
    refine ⟨db', p.stamped dim model, ?_, hrows, ?_, ?_⟩
    · rw [upsertProject, Sql.bind_of_some hlookup, hproject]
      show (if p.Fits dim model then stampProject RegisterFaults.working p dim model else bail)
        (Connection.idle db) = _
      rw [if_pos (hfits p hproject), hrun]
    · rw [hprojects, ServerDb.registered, hproject]
    · rw [ServerDb.projectIdOf, hproject]
      rfl
  -- a new project takes the dimension it comes with
  | none =>
    have hfree : slug ∉ db.projects.map Project.slug := by
      intro hmem
      obtain ⟨p, hp, hslug⟩ := List.mem_map.mp hmem
      exact List.find?_eq_none.mp hproject p hp (by simpa using hslug)
    refine ⟨db.insertProject ⟨db.nextProjectId, slug, dim, some model⟩ hfree,
      ⟨db.nextProjectId, slug, dim, some model⟩, ?_, ⟨rfl, rfl, rfl, rfl⟩, ?_, ?_⟩
    · rw [upsertProject, Sql.bind_of_some hlookup, hproject]
      have hcreate : createProject slug dim model db = some (_, _) := dif_pos hfree
      exact statement_of_some hcreate
    · rw [ServerDb.registered, hproject]
      rfl
    · rw [ServerDb.projectIdOf, hproject]

/-- A write that does not fit what is on record is refused, and nothing is written. -/
theorem run_upsertProject_of_not_fits (hfits : ¬ db.FitsRecord slug dim model) :
    upsertProject RegisterFaults.working slug dim model (Connection.idle db) =
      (Connection.idle db, none) := by
  obtain ⟨p, hproject, hno⟩ : ∃ p, db.project? slug = some p ∧ ¬ p.Fits dim model := by
    simpa [ServerDb.FitsRecord] using hfits
  have hlookup : Sql.statement RegisterFaults.working.lookup
      (Write.read fun db : LinkedDb Vec => db.project? slug) (Connection.idle db) =
        (Connection.idle db, some (some p)) := by
    rw [← hproject]
    rfl
  rw [upsertProject, Sql.bind_of_some hlookup]
  show (if p.Fits dim model then stampProject RegisterFaults.working p dim model else bail)
    (Connection.idle db) = _
  rw [if_neg hno]
  rfl

/-- A registration keeps the id and the slug of every project on record. -/
theorem ServerDb.map_registered {α : Type} (f : Project → α)
    (hf : ∀ p : Project, f (p.stamped dim model) = f p)
    (hids : (db.projects.map Project.id).Nodup) :
    (db.registered slug dim model).map f =
      match db.project? slug with
      | some _ => db.projects.map f
      | none => db.projects.map f ++ [f ⟨db.nextProjectId, slug, dim, some model⟩] := by
  unfold ServerDb.registered
  cases hproject : db.project? slug with
  | none => exact List.map_append
  | some p =>
    show (db.projects.map _).map f = db.projects.map f
    rw [List.map_map]
    refine List.map_congr_left fun q hq => ?_
    show f (if q.id = p.id then p.stamped dim model else q) = f q
    split
    · next hid =>
      rw [hf, List.inj_on_of_nodup_map hids hq (ServerDb.project?_mem hproject).1 hid]
    · rfl

theorem Registered.mem_ids {p : Project} (h : Registered db slug dim model db' p)
    (hids : (db.projects.map Project.id).Nodup) : p.id ∈ db'.projects.map Project.id := by
  rw [h.projects, h.id, ServerDb.projectIdOf,
    ServerDb.map_registered Project.id (fun _ => rfl) hids]
  cases hproject : db.project? slug with
  | none => exact List.mem_append_right _ (List.mem_singleton.mpr rfl)
  | some q => exact List.mem_map_of_mem (ServerDb.project?_mem hproject).1

end Register

/-! ## Storing, when every statement works -/

section Store

variable {db db' : LinkedDb Vec} {note : NewNote} {embedding : Option Vec}

theorem run_addNoteWithSyncId (h : db.Accepts note) :
    addNoteWithSyncId InsertFaults.working note embedding (Connection.idle db) =
      (Connection.idle (db.addEntry note embedding h), some (db.nextRowid, note.syncId)) :=
  run_idle_of_effect (regular_addNoteWithSyncId _ _ _)
    (effect_addNoteWithSyncId_eq_some_iff.mpr ⟨⟨rfl, fun _ => rfl, h⟩, rfl⟩)

theorem run_addNoteWithSyncId_of_refused (h : ¬ db.Accepts note) :
    addNoteWithSyncId InsertFaults.working note embedding (Connection.idle db) =
      (Connection.idle db, none) := by
  refine Sql.bind_of_none (statement_of_refused ?_)
  rintro ⟨-, r, hr⟩
  rw [insertNote, dif_neg h] at hr
  exact absurd hr.symm (Option.some_ne_none r)

/-- No rowid is handed out between the two. -/
def SameNext (db db' : LinkedDb Vec) : Prop := db'.nextRowid = db.nextRowid

theorem sameNext_of_supersedeNote {projectId : Nat} {oldId newId : String} {changed : Bool}
    (h : supersedeNote projectId oldId newId db = some (db', changed)) : SameNext db db' := by
  unfold supersedeNote at h
  split at h
  · obtain ⟨rfl, -⟩ := Prod.mk.inj (Option.some.inj h)
    rfl
  · obtain ⟨rfl, -⟩ := Prod.mk.inj (Option.some.inj h)
    rfl

theorem sameNext_of_addEdge {fromId toId : Nat} {kind : String} {u : Unit}
    (h : addEdge fromId toId kind db = some (db', u)) : SameNext db db' := by
  unfold addEdge at h
  split at h
  · split at h
    · obtain ⟨rfl, -⟩ := Prod.mk.inj (Option.some.inj h)
      rfl
    · exact absurd h.symm (Option.some_ne_none _)
  · exact absurd h.symm (Option.some_ne_none _)

theorem sameNext_of_relateNote {projectId newRowid : Nat} {kind targetId : String} {u : Unit}
    (h : relateNote projectId newRowid kind targetId db = some (db', u)) : SameNext db db' := by
  unfold relateNote at h
  split at h
  · exact sameNext_of_addEdge h
  · obtain ⟨rfl, -⟩ := Prod.mk.inj (Option.some.inj h)
    rfl

theorem along_applyResolutions (projectId newRowid : Nat) (newSyncId : String)
    (outcomes : Nat → Outcome) (rs : List (String × String)) :
    Along SameNext (applyResolutions projectId newRowid newSyncId outcomes rs :
      Sql (LinkedDb Vec) Unit) := by
  have hrefl : ∀ db : LinkedDb Vec, SameNext db db := fun _ => rfl
  have htrans : ∀ db₁ db₂ db₃ : LinkedDb Vec, SameNext db₁ db₂ → SameNext db₂ db₃ →
      SameNext db₁ db₃ := fun _ _ _ h h' => h'.trans h
  induction rs generalizing outcomes with
  | nil => exact along_pure hrefl _
  | cons r rest ih =>
    refine Along.bind hrefl htrans ?_ fun _ => ih _
    unfold applyResolution
    split
    · exact (along_statement hrefl _ fun _ _ _ => sameNext_of_supersedeNote).bind hrefl htrans
        fun _ => along_pure hrefl _
    · split
      · exact along_statement hrefl _ fun _ _ _ => sameNext_of_relateNote
      · exact along_pure hrefl _

/-- The tables with the entry, its vector and its resolutions, and the next rowid used. -/
structure Added (db : LinkedDb Vec) (call : AddCall Vec) (db' : LinkedDb Vec) : Prop where
  stored : Stored db call.note call.embedding call.resolutions db'
  nextRowid : db'.nextRowid = db.nextRowid + 1

theorem added_of_effect {call : AddCall Vec} {r : Nat × String}
    (h : (addAndResolve Faults.working call).effect db = some (db', r)) :
    r = (db.nextRowid, call.note.syncId) ∧ Added db call db' := by
  obtain ⟨-, hr, hstored⟩ := addAndResolve_of_some h
  refine ⟨hr, hstored, ?_⟩
  obtain ⟨db₁, stored, hadd, hrest⟩ := (effect_bind_eq_some_iff (regular_addNoteWithSyncId _ _ _)
    fun _ => (regular_applyResolutions _ _ _ _ _).bind fun _ => regular_pure _).mp h
  obtain ⟨hallow, hentry⟩ := effect_addNoteWithSyncId_eq_some_iff.mp hadd
  obtain ⟨db₂, u, hrun, hpure⟩ := (effect_bind_eq_some_iff (regular_applyResolutions _ _ _ _ _)
    fun _ => regular_pure _).mp hrest
  obtain rfl : db₂ = db' := (Prod.mk.inj (Option.some.inj hpure)).1
  obtain ⟨db₃, hleft, hnext⟩ := along_applyResolutions call.note.projectId stored.1 stored.2
    Faults.working.resolving call.resolutions db₁
  rw [run_idle_of_effect (regular_applyResolutions _ _ _ _ _) hrun] at hleft
  obtain rfl : db₂ = db₃ := congrArg Connection.db hleft
  rw [hnext, (Prod.mk.inj hentry).1, LinkedDb.addEntry_nextRowid]

theorem run_addNoteWithResolutions (call : AddCall Vec) (h : db.Accepts call.note) :
    ∃ db', addNoteWithResolutions Faults.working call (Connection.idle db) =
      (Connection.idle db', some (db.nextRowid, call.note.syncId)) ∧ Added db call db' := by
  have hallow : Faults.working.inserting.Allow db call.note call.embedding :=
    ⟨rfl, fun _ => rfl, h⟩
  have hworks : AllWork Faults.working.resolving call.resolutions := fun _ _ _ _ => rfl
  obtain ⟨⟨db', r⟩, hr⟩ := addAndResolve_isSome hallow hworks
  obtain ⟨rfl, hadded⟩ := added_of_effect hr
  refine ⟨db', ?_, hadded⟩
  have hcall := transaction_of_regular (regular_addAndResolve Faults.working call)
    Faults.working.beginning Faults.working.ending db
  have hguard : Write.guarded Faults.working.beginning (addAndResolve Faults.working call).effect
      db = some (db', db.nextRowid, call.note.syncId) := hr
  rw [hguard] at hcall
  exact hcall

theorem run_addNoteWithResolutions_of_refused (call : AddCall Vec) (h : ¬ db.Accepts call.note) :
    addNoteWithResolutions Faults.working call (Connection.idle db) =
      (Connection.idle db, none) := by
  have hcall := transaction_of_regular (regular_addAndResolve Faults.working call)
    Faults.working.beginning Faults.working.ending db
  cases hguard : Write.guarded Faults.working.beginning (addAndResolve Faults.working call).effect
      db with
  | none =>
    rw [hguard] at hcall
    exact hcall
  | some r =>
    obtain ⟨⟨hallow, -⟩, -⟩ := addAndResolve_of_some (Write.guarded_eq_some_iff.mp hguard).2
    exact absurd hallow.accepts h

end Store

/-! ## One add from a state of the server -/

section Add

variable {server : Setup Vec D} {req : AddNoteRequest Vec} {db : LinkedDb Vec}

/-- The duplicates and the related entries of the entry's project. -/
def Setup.bands (server : Setup Vec D) (req : AddNoteRequest Vec) (db : LinkedDb Vec) :
    List (Candidate D) × List (Candidate D) :=
  (db.findCandidates server.distance server.floors (db.projectIdOf req.slug) req.embedding
    none).partition fun c => c.band = .duplicate

/-- The add asks to be refused on a duplicate, and there is one. -/
def Setup.Blocks (server : Setup Vec D) (req : AddNoteRequest Vec) (db : LinkedDb Vec) : Prop :=
  req.blocks = true ∧ (server.bands req db).1 ≠ []

/-- The write fits what its project has on record. -/
def Setup.AddFits (server : Setup Vec D) (req : AddNoteRequest Vec) (db : LinkedDb Vec) : Prop :=
  db.FitsRecord req.slug (req.dim server.length) server.config.embeddingModel

theorem findCandidates_congr {db₁ : LinkedDb Vec} (h : SameRows db db₁) (distance : Vec → Vec → D)
    (floors : Floors D) (projectId : Nat) (embedding : Option Vec) :
    db₁.findCandidates distance floors projectId embedding none =
      db.findCandidates distance floors projectId embedding none := by
  cases embedding with
  | none => rfl
  | some v =>
    have hrow : db₁.row? = db.row? := by
      funext rowid
      rw [ServerDb.row?, h.notes]
      rfl
    have hjoins : db₁.joins = db.joins := by
      funext cond e
      rw [ServerDb.joins, ServerDb.joins, hrow]
    simp only [ServerDb.findCandidates, ServerDb.knn, hjoins, hrow, h.embeddings]

/-- An entry without a vector has no candidates, so nothing blocks it. -/
theorem not_blocks_of_textOnly (h : req.embedding = none) : ¬ server.Blocks req db := by
  rintro ⟨-, hbands⟩
  rw [Setup.bands, h] at hbands
  exact hbands rfl

theorem run_addNote_of_not_fits (h : ¬ server.AddFits req db) :
    server.addNote req (Connection.idle db) = (Connection.idle db, none) := by
  rw [Setup.addNote]
  exact Sql.bind_of_none (run_upsertProject_of_not_fits h)

/-- What an add that fits does once its project is registered. -/
structure AddRun (server : Setup Vec D) (req : AddNoteRequest Vec) (db db₁ : LinkedDb Vec)
    (projectId : Nat) : Prop where
  blocked : server.Blocks req db → server.addNote req (Connection.idle db) =
    (Connection.idle db₁, some (.conflict (server.bands req db).1 (server.bands req db).2, false))
  refused : ¬ server.Blocks req db → req.minted ∈ db.notes.map NoteRow.syncId →
    server.addNote req (Connection.idle db) = (Connection.idle db₁, none)
  stored : ¬ server.Blocks req db → req.minted ∉ db.notes.map NoteRow.syncId →
    ∃ db', server.addNote req (Connection.idle db) =
      (Connection.idle db', some (.created req.minted (server.bands req db).1
        (server.bands req db).2, req.embedding.isNone)) ∧
      Added db₁ (req.call projectId) db'

theorem run_addNote_of_fits (hids : (db.projects.map Project.id).Nodup)
    (hfits : server.AddFits req db) :
    ∃ db₁ p, Registered db req.slug (req.dim server.length) server.config.embeddingModel db₁ p ∧
      AddRun server req db db₁ p.id := by
  obtain ⟨db₁, p, hrun, hreg⟩ := run_upsertProject hids hfits
  have hcandidates : Sql.statement .done (Write.read fun db : LinkedDb Vec =>
      db.findCandidates server.distance server.floors p.id req.embedding none)
      (Connection.idle db₁) = (Connection.idle db₁, some (db.findCandidates server.distance
        server.floors (db.projectIdOf req.slug) req.embedding none)) := by
    rw [← findCandidates_congr hreg.rows, ← hreg.id]
    rfl
  have hcall : server.addNote req (Connection.idle db) =
      (if req.blocks && !(server.bands req db).1.isEmpty then
        pure (.conflict (server.bands req db).1 (server.bands req db).2, false)
      else do
        let stored ← addNoteWithResolutions Faults.working (req.call p.id)
        pure (.created stored.2 (server.bands req db).1 (server.bands req db).2,
          req.embedding.isNone) : Sql (LinkedDb Vec) (AddNoteResponse D × Bool))
      (Connection.idle db₁) := by
    rw [Setup.addNote, Sql.bind_of_some hrun, Sql.bind_of_some hcandidates]
    rfl
  have hcond : (req.blocks && !(server.bands req db).1.isEmpty) = true ↔ server.Blocks req db := by
    simp [Setup.Blocks]
  have haccepts : db₁.Accepts (req.note p.id) ↔ req.minted ∉ db.notes.map NoteRow.syncId := by
    rw [← hreg.rows.notes]
    exact ⟨fun h => h.2.1, fun h => ⟨hreg.mem_ids hids, h, fun r hr =>
      absurd hr (Option.not_mem_none r)⟩⟩
  -- what the lookup finds decides first, and then the minted id
  refine ⟨db₁, p, hreg, fun hblocks => ?_, fun hblocks htaken => ?_, fun hblocks hfresh => ?_⟩
  · rw [hcall, if_pos (hcond.mpr hblocks)]
    rfl
  · rw [hcall, if_neg (mt hcond.mp hblocks)]
    exact Sql.bind_of_none
      (run_addNoteWithResolutions_of_refused (req.call p.id) fun h => haccepts.mp h htaken)
  · obtain ⟨db', hadd, hadded⟩ :=
      run_addNoteWithResolutions (req.call p.id) (haccepts.mpr hfresh)
    refine ⟨db', ?_, hadded⟩
    rw [hcall, if_neg (mt hcond.mp hblocks)]
    exact Sql.bind_of_some hadd

end Add

end Server
end Inkentry
