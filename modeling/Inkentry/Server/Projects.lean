/-
  Inkentry.Server.Projects

  Registering a project with a write: `upsert_project` finds the project by its
  slug or creates it, and records the dimension and the model of its vectors on
  the first write that knows them.  A later write with another dimension or
  another model is refused.
-/

import Mathlib.Order.Basic
import Inkentry.Server.Writes

namespace Inkentry
namespace Server

open Transaction

variable {Vec : Type*}

/-! ## The tables -/

/-- `projects WHERE slug = ..`. -/
def ServerDb.project? (db : ServerDb Vec) (slug : String) : Option Project :=
  db.projects.find? fun p => p.slug = slug

/-- The id the next project gets. -/
def ServerDb.nextProjectId (db : ServerDb Vec) : Nat := (db.projects.map Project.id).foldr max 0 + 1

theorem slugUnique_update (db : ServerDb Vec) (id : Nat) (f : Project → Project)
    (hslug : ∀ p, (f p).slug = p.slug) :
    ((db.projects.map fun p => if p.id = id then f p else p).map Project.slug).Nodup := by
  have hmap : (db.projects.map fun p => if p.id = id then f p else p).map Project.slug =
      db.projects.map Project.slug := by
    rw [List.map_map]
    refine List.map_congr_left fun p _ => ?_
    show (if p.id = id then f p else p).slug = p.slug
    split
    · exact hslug p
    · rfl
  rw [hmap]
  exact db.slugUnique

theorem slugUnique_insert (db : ServerDb Vec) (p : Project)
    (h : p.slug ∉ db.projects.map Project.slug) :
    ((db.projects ++ [p]).map Project.slug).Nodup := by
  rw [List.map_append]
  exact nodup_append_singleton db.slugUnique h

/-- `UPDATE projects .. WHERE id = ..` of a column that is not the slug. -/
def ServerDb.updateProject (db : ServerDb Vec) (id : Nat) (f : Project → Project)
    (hslug : ∀ p, (f p).slug = p.slug) : ServerDb Vec :=
  { db with
    projects := db.projects.map fun p => if p.id = id then f p else p
    slugUnique := slugUnique_update db id f hslug }

def ServerDb.insertProject (db : ServerDb Vec) (p : Project)
    (h : p.slug ∉ db.projects.map Project.slug) : ServerDb Vec :=
  { db with
    projects := db.projects ++ [p]
    slugUnique := slugUnique_insert db p h }

def LinkedDb.updateProject (db : LinkedDb Vec) (id : Nat) (f : Project → Project)
    (hslug : ∀ p, (f p).slug = p.slug) : LinkedDb Vec where
  toServerDb := db.toServerDb.updateProject id f hslug
  edgeUnique := db.edgeUnique
  edgeRows := db.edgeRows

def LinkedDb.insertProject (db : LinkedDb Vec) (p : Project)
    (h : p.slug ∉ db.projects.map Project.slug) : LinkedDb Vec where
  toServerDb := db.toServerDb.insertProject p h
  edgeUnique := db.edgeUnique
  edgeRows := db.edgeRows

/-- `SET embedding_dim = ..`. -/
def setDim (id dim : Nat) : Write (LinkedDb Vec) PUnit := fun db =>
  some (db.updateProject id (fun p => { p with embeddingDim := dim }) fun _ => rfl, ⟨⟩)

/-- `SET embedding_model = ..`. -/
def setModel (id : Nat) (model : String) : Write (LinkedDb Vec) PUnit := fun db =>
  some (db.updateProject id (fun p => { p with embeddingModel := some model }) fun _ => rfl, ⟨⟩)

def createProject (slug : String) (dim : Nat) (model : String) : Write (LinkedDb Vec) Project :=
  fun db =>
    if h : slug ∉ db.projects.map Project.slug then
      some (db.insertProject ⟨db.nextProjectId, slug, dim, some model⟩ h,
        ⟨db.nextProjectId, slug, dim, some model⟩)
    else none

/-! ## The function -/

/-- How the statements of `upsert_project` end. -/
structure RegisterFaults where
  lookup : Outcome
  dim : Outcome
  model : Outcome
  create : Outcome
  deriving DecidableEq, Repr

/-- The vectors of the project and of the write have one dimension and one model, as far as
    the project has recorded them. -/
def Project.Fits (p : Project) (dim : Nat) (model : String) : Prop :=
  (p.embeddingDim = 0 ∨ p.embeddingDim = dim) ∧ ∀ m ∈ p.embeddingModel, m = model

instance (p : Project) (dim : Nat) (model : String) : Decidable (p.Fits dim model) :=
  inferInstanceAs (Decidable (_ ∧ _))

/-- An error the code raises itself. -/
def bail {α : Type} : Sql (LinkedDb Vec) α := Sql.statement .failed fun _ => none

/-- The project exists: record what it has not recorded yet. -/
def stampProject (faults : RegisterFaults) (p : Project) (dim : Nat) (model : String) :
    Sql (LinkedDb Vec) Project := do
  Sql.onlyIf (p.embeddingDim = 0) (Sql.statement faults.dim (setDim p.id dim))
  Sql.onlyIf (p.embeddingModel = none) (Sql.statement faults.model (setModel p.id model))
  pure
    { p with
      embeddingDim := if p.embeddingDim = 0 then dim else p.embeddingDim
      embeddingModel := some (p.embeddingModel.getD model) }

def upsertProject (faults : RegisterFaults) (slug : String) (dim : Nat) (model : String) :
    Sql (LinkedDb Vec) Project := do
  let existing ← Sql.statement faults.lookup (Write.read fun db => db.project? slug)
  match existing with
  | some p => if p.Fits dim model then stampProject faults p dim model else bail
  | none => Sql.statement faults.create (createProject slug dim model)

/-! ## When it registers -/

variable {db db' : LinkedDb Vec}
variable {slug model : String} {dim : Nat} {id : Nat} {p : Project}

/-- The statements the registration needs work, and a project on record fits the write. -/
def Registers (faults : RegisterFaults) (db : LinkedDb Vec) (slug : String) (dim : Nat)
    (model : String) : Prop :=
  faults.lookup = .done ∧
    match db.project? slug with
    | some p => p.Fits dim model ∧ (p.embeddingDim = 0 → faults.dim = .done) ∧
        (p.embeddingModel = none → faults.model = .done)
    | none => faults.create = .done

/-- The id under which a slug is registered. -/
def ServerDb.projectIdOf (db : ServerDb Vec) (slug : String) : Nat :=
  match db.project? slug with
  | some p => p.id
  | none => db.nextProjectId

/-- Nothing but the projects differs. -/
structure SameRows (db db' : LinkedDb Vec) : Prop where
  notes : db'.notes = db.notes
  embeddings : db'.embeddings = db.embeddings
  edges : db'.edges = db.edges
  nextRowid : db'.nextRowid = db.nextRowid

theorem SameRows.refl (db : LinkedDb Vec) : SameRows db db := ⟨rfl, rfl, rfl, rfl⟩

theorem SameRows.trans {db db' db'' : LinkedDb Vec} (h : SameRows db db')
    (h' : SameRows db' db'') : SameRows db db'' :=
  ⟨h'.notes.trans h.notes, h'.embeddings.trans h.embeddings, h'.edges.trans h.edges,
    h'.nextRowid.trans h.nextRowid⟩

theorem sameRows_of_setDim {id dim : Nat} {u : PUnit}
    (h : setDim id dim db = some (db', u)) : SameRows db db' := by
  obtain ⟨rfl, -⟩ := Prod.mk.inj (Option.some.inj h)
  exact ⟨rfl, rfl, rfl, rfl⟩

theorem sameRows_of_setModel {model : String} {u : PUnit}
    (h : setModel id model db = some (db', u)) : SameRows db db' := by
  obtain ⟨rfl, -⟩ := Prod.mk.inj (Option.some.inj h)
  exact ⟨rfl, rfl, rfl, rfl⟩

theorem createProject_eq_some (h : createProject slug dim model db = some (db', p)) :
    SameRows db db' ∧ p.id = db.nextProjectId ∧ db'.project? slug = some p := by
  unfold createProject at h
  split at h
  · next hfree =>
    obtain ⟨rfl, rfl⟩ := Prod.mk.inj (Option.some.inj h)
    refine ⟨⟨rfl, rfl, rfl, rfl⟩, rfl, ?_⟩
    have hnone : (db.projects.find? fun p => p.slug = slug) = none := by
      refine List.find?_eq_none.mpr fun q hq hslug => hfree ?_
      exact List.mem_map.mpr ⟨q, hq, by simpa using hslug⟩
    show (db.projects ++ [_]).find? (fun p : Project => p.slug = slug) = some _
    rw [List.find?_append, hnone]
    simp
  · exact absurd h.symm (Option.some_ne_none _)

/-- The project is on record under a slug with this id. -/
def ServerDb.OnRecord (db : ServerDb Vec) (slug : String) (id : Nat) : Prop :=
  ∃ p, db.project? slug = some p ∧ p.id = id

theorem ServerDb.OnRecord.mem_ids {db : ServerDb Vec} {slug : String}
    (h : db.OnRecord slug id) : id ∈ db.projects.map Project.id := by
  obtain ⟨p, hp, rfl⟩ := h
  exact List.mem_map_of_mem (List.mem_of_find?_eq_some hp)

theorem ServerDb.OnRecord.projectIdOf {db : ServerDb Vec} {slug : String}
    (h : db.OnRecord slug id) : db.projectIdOf slug = id := by
  obtain ⟨p, hp, hid⟩ := h
  rw [ServerDb.projectIdOf, hp]
  exact hid

theorem LinkedDb.onRecord_updateProject {db : LinkedDb Vec} {slug : String}
    (h : db.OnRecord slug id) (target : Nat) (f : Project → Project)
    (hslug : ∀ p, (f p).slug = p.slug) (hid : ∀ p, (f p).id = p.id) :
    (db.updateProject target f hslug).OnRecord slug id := by
  obtain ⟨p, hp, rfl⟩ := h
  have hkeep : ∀ q : Project, (if q.id = target then f q else q).slug = q.slug ∧
      (if q.id = target then f q else q).id = q.id := by
    intro q
    split
    · exact ⟨hslug q, hid q⟩
    · exact ⟨rfl, rfl⟩
  refine ⟨if p.id = target then f p else p, ?_, (hkeep p).2⟩
  show (db.projects.map fun q => if q.id = target then f q else q).find? _ = _
  rw [List.find?_map]
  have hsame : (fun q : Project => decide (q.slug = slug)) ∘
      (fun q => if q.id = target then f q else q) = fun q => decide (q.slug = slug) := by
    funext q
    show decide ((if q.id = target then f q else q).slug = slug) = decide (q.slug = slug)
    rw [(hkeep q).1]
  rw [hsame]
  have hfind : (db.projects.find? fun q => decide (q.slug = slug)) = some p := hp
  rw [hfind]
  rfl

/-! ### Recording the dimension and the model -/

variable {faults : RegisterFaults}

theorem regular_stampProject (faults : RegisterFaults) (p : Project) (dim : Nat) (model : String) :
    Regular (stampProject faults p dim model : Sql (LinkedDb Vec) Project) :=
  ((regular_statement _ _).onlyIf _).bind fun _ =>
    ((regular_statement _ _).onlyIf _).bind fun _ => regular_pure _

theorem along_stampProject (faults : RegisterFaults) (p : Project) (dim : Nat) (model : String) :
    Along SameRows (stampProject faults p dim model : Sql (LinkedDb Vec) Project) := by
  have hdim : Along SameRows
      (Sql.statement faults.dim (setDim p.id dim) : Sql (LinkedDb Vec) PUnit) :=
    along_statement SameRows.refl _ fun _ _ _ => sameRows_of_setDim
  have hmodel : Along SameRows
      (Sql.statement faults.model (setModel p.id model) : Sql (LinkedDb Vec) PUnit) :=
    along_statement SameRows.refl _ fun _ _ _ => sameRows_of_setModel
  exact (hdim.onlyIf SameRows.refl _).bind SameRows.refl (fun _ _ _ => SameRows.trans) fun _ =>
    (hmodel.onlyIf SameRows.refl _).bind SameRows.refl (fun _ _ _ => SameRows.trans) fun _ =>
      along_pure SameRows.refl _

/-- One optional UPDATE works when its statement does, and keeps what is on record. -/
theorem effect_update {cond : Prop} [Decidable cond] {outcome : Outcome} {target : Nat}
    {f : Project → Project} (hslug : ∀ p, (f p).slug = p.slug) (hid : ∀ p, (f p).id = p.id)
    {p : Write (LinkedDb Vec) PUnit.{1}} (hp : p db = some (db.updateProject target f hslug, ⟨⟩))
    (h : (Sql.onlyIf cond (Sql.statement outcome p)).effect db = some (db', ⟨⟩)) :
    (cond → outcome = .done) ∧ ∀ slug id, db.OnRecord slug id → db'.OnRecord slug id := by
  rw [effect_onlyIf_eq_some_iff] at h
  split at h
  · obtain ⟨hdone, hset⟩ := effect_statement_eq_some_iff.mp h
    obtain ⟨rfl, -⟩ := Prod.mk.inj (Option.some.inj (hp.symm.trans hset))
    exact ⟨fun _ => hdone, fun slug id hrec =>
      LinkedDb.onRecord_updateProject hrec target f hslug hid⟩
  · next hcond =>
    refine ⟨fun h => absurd h hcond, fun slug id hrec => ?_⟩
    rw [← h]
    exact hrec

theorem effect_onlyIf_isSome {cond : Prop} [Decidable cond] {outcome : Outcome}
    {p : Write (LinkedDb Vec) PUnit} (hp : ∀ db, ∃ db', p db = some (db', ⟨⟩))
    (hworks : cond → outcome = .done) (db : LinkedDb Vec) :
    ∃ db', (Sql.onlyIf cond (Sql.statement outcome p)).effect db = some (db', ⟨⟩) := by
  by_cases hcond : cond
  · obtain ⟨db', hset⟩ := hp db
    refine ⟨db', effect_onlyIf_eq_some_iff.mpr ?_⟩
    rw [if_pos hcond]
    exact effect_statement_eq_some_iff.mpr ⟨hworks hcond, hset⟩
  · exact ⟨db, effect_onlyIf_eq_some_iff.mpr (by rw [if_neg hcond])⟩

theorem stampProject_eq_some {p q : Project} {model : String}
    (h : (stampProject faults p dim model).effect db = some (db', q)) :
    ((p.embeddingDim = 0 → faults.dim = .done) ∧ (p.embeddingModel = none → faults.model = .done)) ∧
      q.id = p.id ∧ ∀ slug id, db.OnRecord slug id → db'.OnRecord slug id := by
  obtain ⟨db₁, u, hdim, hrest⟩ := (effect_bind_eq_some_iff ((regular_statement _ _).onlyIf _)
    fun _ => ((regular_statement _ _).onlyIf _).bind fun _ => regular_pure _).mp h
  obtain ⟨db₂, v, hmodel, hpure⟩ := (effect_bind_eq_some_iff ((regular_statement _ _).onlyIf _)
    fun _ => regular_pure _).mp hrest
  obtain ⟨rfl, rfl⟩ := Prod.mk.inj (Option.some.inj hpure)
  obtain ⟨hd, hrec₁⟩ := effect_update (f := fun q => { q with embeddingDim := dim })
    (fun _ => rfl) (fun _ => rfl) rfl hdim
  obtain ⟨hm, hrec₂⟩ := effect_update (f := fun q => { q with embeddingModel := some model })
    (fun _ => rfl) (fun _ => rfl) rfl hmodel
  exact ⟨⟨hd, hm⟩, rfl, fun slug id hrec => hrec₂ slug id (hrec₁ slug id hrec)⟩

theorem stampProject_isSome {model : String} (hdim : p.embeddingDim = 0 → faults.dim = .done)
    (hmodel : p.embeddingModel = none → faults.model = .done) (db : LinkedDb Vec) :
    ∃ r, (stampProject faults p dim model).effect db = some r := by
  have hset : ∀ db : LinkedDb Vec, ∃ db', setDim p.id dim db = some (db', ⟨⟩) := fun _ => ⟨_, rfl⟩
  have hstamp : ∀ db : LinkedDb Vec, ∃ db', setModel p.id model db = some (db', ⟨⟩) :=
    fun _ => ⟨_, rfl⟩
  obtain ⟨db₁, h₁⟩ := effect_onlyIf_isSome hset hdim db
  obtain ⟨db₂, h₂⟩ := effect_onlyIf_isSome hstamp hmodel db₁
  refine effect_bind_isSome ((regular_statement _ _).onlyIf _) (fun _ =>
    ((regular_statement _ _).onlyIf _).bind fun _ => regular_pure _) h₁ ?_
  exact effect_bind_isSome ((regular_statement _ _).onlyIf _) (fun _ => regular_pure _) h₂
    ⟨_, rfl⟩

/-! ### The whole registration -/

theorem regular_bail {α : Type} : Regular (bail : Sql (LinkedDb Vec) α) := regular_statement _ _

theorem regular_upsertProject (faults : RegisterFaults) (slug : String) (dim : Nat)
    (model : String) : Regular (upsertProject faults slug dim model : Sql (LinkedDb Vec) Project) := by
  refine (regular_statement _ _).bind fun existing => ?_
  cases existing with
  | none => exact regular_statement _ _
  | some p =>
    show Regular (if p.Fits dim model then stampProject faults p dim model else bail)
    split
    · exact regular_stampProject faults p dim model
    · exact regular_bail

theorem along_upsertProject (faults : RegisterFaults) (slug : String) (dim : Nat) (model : String) :
    Along SameRows (upsertProject faults slug dim model : Sql (LinkedDb Vec) Project) := by
  refine Along.bind SameRows.refl (fun _ _ _ => SameRows.trans) ?_ fun existing => ?_
  · refine along_statement SameRows.refl _ fun db db' a h => ?_
    obtain ⟨rfl, -⟩ := Prod.mk.inj (Option.some.inj h)
    exact SameRows.refl db
  · cases existing with
    | none =>
      exact along_statement SameRows.refl _ fun db db' p h => (createProject_eq_some h).1
    | some p =>
      show Along SameRows (if p.Fits dim model then stampProject faults p dim model else bail)
      split
      · exact along_stampProject faults p dim model
      · exact along_statement SameRows.refl _ fun db db' a h => absurd h.symm (Option.some_ne_none _)

theorem regular_existing (faults : RegisterFaults) (slug : String) (dim : Nat) (model : String)
    (existing : Option Project) : Regular (match existing with
      | some p => if p.Fits dim model then stampProject faults p dim model else bail
      | none => Sql.statement faults.create (createProject slug dim model) :
        Sql (LinkedDb Vec) Project) := by
  cases existing with
  | none => exact regular_statement _ _
  | some p =>
    show Regular (if p.Fits dim model then stampProject faults p dim model else bail)
    split
    · exact regular_stampProject faults p dim model
    · exact regular_bail

/-- What a registration gives: the project's id, under which it is now on record. -/
theorem upsertProject_eq_some
    (h : (upsertProject faults slug dim model).effect db = some (db', p)) :
    Registers faults db slug dim model ∧ p.id = db.projectIdOf slug ∧ db'.OnRecord slug p.id := by
  obtain ⟨db₀, existing, hlookup, hrest⟩ := (effect_bind_eq_some_iff (regular_statement _ _)
    (regular_existing faults slug dim model)).mp h
  obtain ⟨hdone, hfind⟩ := effect_statement_eq_some_iff.mp hlookup
  rw [Write.read_apply] at hfind
  obtain ⟨rfl, rfl⟩ := Prod.mk.inj (Option.some.inj hfind)
  unfold Registers ServerDb.projectIdOf
  cases hproject : db.project? slug with
  | none =>
    rw [hproject] at hrest
    obtain ⟨hcreate, hnew⟩ := effect_statement_eq_some_iff.mp hrest
    obtain ⟨-, hid, hfound⟩ := createProject_eq_some hnew
    exact ⟨⟨hdone, hcreate⟩, hid, p, hfound, rfl⟩
  | some q =>
    rw [hproject] at hrest
    by_cases hfits : q.Fits dim model
    · have hstamp : (stampProject faults q dim model).effect db = some (db', p) := by
        simpa [hfits] using hrest
      obtain ⟨hworks, hid, hrec⟩ := stampProject_eq_some hstamp
      exact ⟨⟨hdone, hfits, hworks⟩, hid, hrec slug p.id ⟨q, hproject, hid.symm⟩⟩
    · exfalso
      have hbail : (bail : Sql (LinkedDb Vec) Project).effect db = some (db', p) := by
        simpa [hfits] using hrest
      exact absurd hbail.symm (Option.some_ne_none _)

theorem upsertProject_isSome {db : LinkedDb Vec} (h : Registers faults db slug dim model) :
    ∃ r, (upsertProject faults slug dim model).effect db = some r := by
  obtain ⟨hdone, hproject⟩ := h
  suffices hrest : ∃ r, (match db.project? slug with
      | some p => if p.Fits dim model then stampProject faults p dim model else bail
      | none => Sql.statement faults.create (createProject slug dim model) :
        Sql (LinkedDb Vec) Project).effect db = some r by
    obtain ⟨r, hr⟩ := hrest
    exact ⟨r, (effect_bind_eq_some_iff (regular_statement _ _)
      (regular_existing faults slug dim model)).mpr
      ⟨db, db.project? slug, effect_statement_eq_some_iff.mpr ⟨hdone, rfl⟩, hr⟩⟩
  cases hfind : db.project? slug with
  | none =>
    rw [hfind] at hproject
    have hfree : slug ∉ db.projects.map Project.slug := by
      intro hmem
      obtain ⟨p, hp, hslug⟩ := List.mem_map.mp hmem
      have hno := List.find?_eq_none.mp hfind p hp
      exact hno (by simpa using hslug)
    have hcreate : ∃ r, createProject slug dim model db = some r := ⟨_, dif_pos hfree⟩
    obtain ⟨r, hr⟩ := hcreate
    exact ⟨r, effect_statement_eq_some_iff.mpr ⟨hproject, hr⟩⟩
  | some p =>
    rw [hfind] at hproject
    obtain ⟨hfits, hdim, hmodel⟩ := hproject
    show ∃ r, (if p.Fits dim model then stampProject faults p dim model else bail).effect db = some r
    rw [if_pos hfits]
    exact stampProject_isSome hdim hmodel db

end Server
end Inkentry
