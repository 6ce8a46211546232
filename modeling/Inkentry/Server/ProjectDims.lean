/-
  Inkentry.Server.ProjectDims

  The dimension a project has on record, under the registrations of both write
  routes and the rows stored after them: a dimension on record stays, and every
  stored vector has the dimension that its project has on record.
-/

import Inkentry.Server.AddNote

namespace Inkentry
namespace Server

variable {Vec D : Type} {server : Setup Vec D} {db db' : LinkedDb Vec}

/-! ## What holds of the tables -/

/-- A new server's tables. -/
def LinkedDb.empty : LinkedDb Vec where
  toServerDb := ServerDb.empty
  edgeUnique := List.nodup_nil
  edgeRows := List.forall_mem_nil _

/-- A dimension on record stays. -/
def KeepsDims (db db' : LinkedDb Vec) : Prop :=
  ∀ slug p, db.project? slug = some p → p.embeddingDim ≠ 0 →
    ∃ q, db'.project? slug = some q ∧ q.embeddingDim = p.embeddingDim

theorem KeepsDims.refl (db : LinkedDb Vec) : KeepsDims db db := fun _ p hp _ => ⟨p, hp, rfl⟩

theorem KeepsDims.trans {db'' : LinkedDb Vec} (h : KeepsDims db db') (h' : KeepsDims db' db'') :
    KeepsDims db db'' := by
  intro slug p hp hne
  obtain ⟨q, hq, hdim⟩ := h slug p hp hne
  obtain ⟨r, hr, hdim'⟩ := h' slug q hq (hdim ▸ hne)
  exact ⟨r, hr, hdim'.trans hdim⟩

theorem KeepsDims.of_projects (h : db'.projects = db.projects) : KeepsDims db db' := by
  intro slug p hp _
  refine ⟨p, ?_, rfl⟩
  rw [ServerDb.project?, h]
  exact hp

/-- Every vector has the dimension that the project of its entry has on record. -/
def Setup.VectorsFit (server : Setup Vec D) (db : LinkedDb Vec) : Prop :=
  ∀ e ∈ db.embeddings, ∃ n ∈ db.notes, n.rowid = e.1 ∧
    ∃ p ∈ db.projects, p.id = n.projectId ∧ server.length e.2 = p.embeddingDim

/-- What holds of the tables after every history. -/
structure Setup.Sound (server : Setup Vec D) (db : LinkedDb Vec) : Prop where
  ids : (db.projects.map Project.id).Nodup
  owned : ∀ n ∈ db.notes, n.projectId ∈ db.projects.map Project.id
  recorded : ∀ p ∈ db.projects,
    (p.embeddingDim = 0 ∨ p.embeddingDim = server.config.embeddingDim) ∧
      ∀ m ∈ p.embeddingModel, m = server.config.embeddingModel
  lengths : ∀ e ∈ db.embeddings, server.length e.2 = server.config.embeddingDim
  dims : ∀ e ∈ db.embeddings, ∃ n ∈ db.notes, n.rowid = e.1 ∧
    ∃ p ∈ db.projects, p.id = n.projectId ∧ p.embeddingDim = server.config.embeddingDim

theorem sound_empty : server.Sound LinkedDb.empty where
  ids := List.nodup_nil
  owned := List.forall_mem_nil _
  recorded := List.forall_mem_nil _
  lengths := List.forall_mem_nil _
  dims := List.forall_mem_nil _

theorem Setup.Sound.vectorsFit (h : server.Sound db) : server.VectorsFit db := by
  intro e he
  obtain ⟨n, hn, hid, p, hp, hproject, hdim⟩ := h.dims e he
  exact ⟨n, hn, hid, p, hp, hproject, (h.lengths e he).trans hdim.symm⟩

theorem Setup.Sound.fitsRecord (h : server.Sound db) (slug : String) :
    db.FitsRecord slug server.config.embeddingDim server.config.embeddingModel := by
  intro p hp
  exact h.recorded p (ServerDb.project?_mem hp).1

theorem Setup.Sound.fitsRecord_zero_iff (h : server.Sound db) {slug : String} :
    db.FitsRecord slug 0 server.config.embeddingModel ↔
      ∀ p, db.project? slug = some p → p.embeddingDim = 0 := by
  constructor
  · intro hfits p hp
    exact (hfits p hp).1.elim id id
  · intro hzero p hp
    exact ⟨.inl (hzero p hp), (h.recorded p (ServerDb.project?_mem hp).1).2⟩

/-! ### Registering -/

theorem ServerDb.nextProjectId_not_mem (db : ServerDb Vec) :
    db.nextProjectId ∉ db.projects.map Project.id := by
  have hle : ∀ (l : List Nat), ∀ a ∈ l, a ≤ l.foldr max 0 := by
    intro l a ha
    induction l with
    | nil => exact absurd ha List.not_mem_nil
    | cons b rest ih =>
      rcases List.mem_cons.mp ha with rfl | hrest
      · exact le_max_left _ _
      · exact (ih hrest).trans (le_max_right _ _)
  intro hmem
  have hlt := hle _ _ hmem
  unfold ServerDb.nextProjectId at hlt
  omega

section Register

variable {slug model : String} {dim : Nat} {p : Project}
variable {q : Project}

/-- A project after a registration is one from before, as it was or stamped, or new. -/
theorem mem_registered (h : q ∈ db.registered slug dim model) :
    q ∈ db.projects ∨ (∃ p ∈ db.projects, q = p.stamped dim model) ∨
      q = ⟨db.nextProjectId, slug, dim, some model⟩ := by
  unfold ServerDb.registered at h
  split at h
  · next p hproject =>
    obtain ⟨r, hr, rfl⟩ := List.mem_map.mp h
    split
    · exact .inr (.inl ⟨p, (ServerDb.project?_mem hproject).1, rfl⟩)
    · exact .inl hr
  · rcases List.mem_append.mp h with hold | hnew
    · exact .inl hold
    · exact .inr (.inr (List.mem_singleton.mp hnew))

/-- Each project from before is there after a registration, as it was or stamped. -/
theorem exists_mem_registered {q : Project} (h : q ∈ db.projects)
    (hids : (db.projects.map Project.id).Nodup) :
    ∃ q' ∈ db.registered slug dim model, q' = q ∨ q' = q.stamped dim model := by
  unfold ServerDb.registered
  split
  · next p hproject =>
    refine ⟨_, List.mem_map_of_mem h, ?_⟩
    split
    · next hid =>
      rw [List.inj_on_of_nodup_map hids h (ServerDb.project?_mem hproject).1 hid]
      exact .inr rfl
    · exact .inl rfl
  · exact ⟨q, List.mem_append_left _ h, .inl rfl⟩

theorem project?_of_mem (h : q ∈ db.projects) : db.project? q.slug = some q := by
  have hsome : (db.project? q.slug).isSome := List.find?_isSome.mpr ⟨q, h, by simp⟩
  obtain ⟨r, hr⟩ := Option.isSome_iff_exists.mp hsome
  obtain ⟨hmem, hslug⟩ := ServerDb.project?_mem hr
  rw [hr, List.inj_on_of_nodup_map db.slugUnique hmem h hslug]

theorem Registered.mem_iff (h : Registered db slug dim model db' p) :
    q ∈ db'.projects ↔ q ∈ db.registered slug dim model := by rw [h.projects]

/-- The dimension a registration leaves on record is the one there was, or the write's. -/
theorem stamped_embeddingDim_of_ne (h : q.embeddingDim ≠ 0) :
    (q.stamped dim model).embeddingDim = q.embeddingDim := if_neg h

theorem Registered.keepsDims (h : Registered db slug dim model db' p)
    (hids : (db.projects.map Project.id).Nodup) : KeepsDims db db' := by
  intro s q hq hne
  obtain ⟨hmem, rfl⟩ := ServerDb.project?_mem hq
  obtain ⟨q', hmem', hq'⟩ := @exists_mem_registered Vec db slug model dim q hmem hids
  have hfound := project?_of_mem (h.mem_iff.mpr hmem')
  rcases hq' with rfl | rfl
  · exact ⟨q', hfound, rfl⟩
  · exact ⟨_, hfound, stamped_embeddingDim_of_ne hne⟩

/-- A registration with no dimension or the configured one keeps the invariant. -/
theorem Registered.sound
    (h : Registered db slug dim server.config.embeddingModel db' p) (hsound : server.Sound db)
    (hdim : dim = 0 ∨ dim = server.config.embeddingDim) : server.Sound db' where
  ids := by
    rw [h.projects, ServerDb.map_registered Project.id (fun _ => rfl) hsound.ids]
    cases db.project? slug with
    | none => exact nodup_append_singleton hsound.ids db.nextProjectId_not_mem
    | some q => exact hsound.ids
  owned := by
    intro n hn
    rw [h.rows.notes] at hn
    rw [h.projects, ServerDb.map_registered Project.id (fun _ => rfl) hsound.ids]
    cases db.project? slug with
    | none => exact List.mem_append_left _ (hsound.owned n hn)
    | some q => exact hsound.owned n hn
  recorded := by
    intro q hq
    rcases mem_registered (h.mem_iff.mp hq) with hold | ⟨r, hr, rfl⟩ | rfl
    · exact hsound.recorded q hold
    · -- stamped: what was on record stays, and what was not is the write's
      obtain ⟨hrdim, hrmodel⟩ := hsound.recorded r hr
      constructor
      · by_cases hzero : r.embeddingDim = 0
        · have heq : (r.stamped dim server.config.embeddingModel).embeddingDim = dim :=
            if_pos hzero
          rw [heq]
          exact hdim
        · rw [stamped_embeddingDim_of_ne hzero]
          exact hrdim
      · intro m hm
        obtain rfl : r.embeddingModel.getD server.config.embeddingModel = m := Option.some.inj hm
        cases hmodel : r.embeddingModel with
        | none => rfl
        | some m => exact hrmodel m hmodel
    · refine ⟨hdim, fun m hm => ?_⟩
      exact (Option.some.inj hm).symm
  lengths := by
    intro e he
    rw [h.rows.embeddings] at he
    exact hsound.lengths e he
  dims := by
    intro e he
    rw [h.rows.embeddings] at he
    obtain ⟨n, hn, hid, q, hq, hproject, hqdim⟩ := hsound.dims e he
    obtain ⟨q', hmem', hq'⟩ := @exists_mem_registered Vec db slug
      server.config.embeddingModel dim q hq hsound.ids
    refine ⟨n, by rwa [h.rows.notes], hid, q', h.mem_iff.mpr hmem', ?_⟩
    rcases hq' with rfl | rfl
    · exact ⟨hproject, hqdim⟩
    · refine ⟨hproject, ?_⟩
      by_cases hzero : q.embeddingDim = 0
      · have heq : (q.stamped dim server.config.embeddingModel).embeddingDim = dim := if_pos hzero
        rw [heq]
        omega
      · rw [stamped_embeddingDim_of_ne hzero, hqdim]

/-- The project of a write with the configured dimension has it on record. -/
theorem Registered.exists_dim
    (h : Registered db slug server.config.embeddingDim server.config.embeddingModel db' p)
    (hsound : server.Sound db) :
    ∃ q ∈ db'.projects, q.id = p.id ∧ q.embeddingDim = server.config.embeddingDim := by
  rw [h.projects, h.id, ServerDb.projectIdOf, ServerDb.registered]
  cases hproject : db.project? slug with
  | none => exact ⟨_, List.mem_append_right _ (List.mem_singleton.mpr rfl), rfl, rfl⟩
  | some q =>
    have hq := (ServerDb.project?_mem hproject).1
    refine ⟨q.stamped _ _, List.mem_map.mpr ⟨q, hq, if_pos rfl⟩, rfl, ?_⟩
    by_cases hzero : q.embeddingDim = 0
    · exact if_pos hzero
    · rw [stamped_embeddingDim_of_ne hzero]
      exact (hsound.recorded q hq).1.resolve_left hzero

end Register

/-! ### Storing -/

variable {embedding : Option Vec}

/-- Rows of projects on record and vectors of the configured length keep the invariant. -/
structure Setup.Grown (server : Setup Vec D) (db db' : LinkedDb Vec) : Prop where
  projects : db'.projects = db.projects
  owned : ∀ n ∈ db'.notes, n.projectId ∈ db.projects.map Project.id
  kept : ∀ n ∈ db.notes, ∃ m ∈ db'.notes, m.rowid = n.rowid ∧ m.projectId = n.projectId
  vectors : ∀ e ∈ db'.embeddings, e ∈ db.embeddings ∨
    server.length e.2 = server.config.embeddingDim ∧ ∃ n ∈ db'.notes, n.rowid = e.1 ∧
      ∃ p ∈ db.projects, p.id = n.projectId ∧ p.embeddingDim = server.config.embeddingDim

theorem Setup.Sound.grown (h : server.Sound db) (hgrown : server.Grown db db') :
    server.Sound db' where
  ids := by
    rw [hgrown.projects]
    exact h.ids
  owned := by
    rw [hgrown.projects]
    exact hgrown.owned
  recorded := by
    rw [hgrown.projects]
    exact h.recorded
  lengths := by
    intro e he
    rcases hgrown.vectors e he with hold | ⟨hlength, -⟩
    · exact h.lengths e hold
    · exact hlength
  dims := by
    intro e he
    rw [hgrown.projects]
    rcases hgrown.vectors e he with hold | ⟨-, hnew⟩
    · obtain ⟨n, hn, hid, p, hp, hproject, hdim⟩ := h.dims e hold
      obtain ⟨m, hm, hmid, hmproject⟩ := hgrown.kept n hn
      exact ⟨m, hm, hmid.trans hid, p, hp, hproject.trans hmproject.symm, hdim⟩
    · exact hnew

/-- The vector of an entry stored for a project has the dimension of the project. -/
def Setup.FitsProject (server : Setup Vec D) (db : LinkedDb Vec) (projectId : Nat)
    (embedding : Option Vec) : Prop :=
  ∀ v ∈ embedding, server.length v = server.config.embeddingDim ∧
    ∃ p ∈ db.projects, p.id = projectId ∧ p.embeddingDim = server.config.embeddingDim

theorem mem_embeddings_append {rowid : Nat} {e : Nat × Vec}
    (h : e ∈ db.embeddings ++ (embedding.map fun v => (rowid, v)).toList) :
    e ∈ db.embeddings ∨ ∃ v ∈ embedding, e = (rowid, v) := by
  rcases List.mem_append.mp h with hold | hnew
  · exact .inl hold
  · cases embedding with
    | none => exact absurd hnew List.not_mem_nil
    | some v => exact .inr ⟨v, rfl, List.mem_singleton.mp hnew⟩

theorem grown_addEntry (h : server.Sound db) {note : NewNote} (haccepts : db.Accepts note)
    (hfits : server.FitsProject db note.projectId embedding) :
    server.Grown db (db.addEntry note embedding haccepts) where
  projects := db.addEntry_projects note embedding haccepts
  owned := by
    intro n hn
    rw [LinkedDb.addEntry_notes] at hn
    rcases List.mem_append.mp hn with hold | hnew
    · exact h.owned n hold
    · rw [List.mem_singleton.mp hnew]
      exact haccepts.1
  kept := by
    intro n hn
    rw [LinkedDb.addEntry_notes]
    exact ⟨n, List.mem_append_left _ hn, rfl, rfl⟩
  vectors := by
    intro e he
    rw [LinkedDb.addEntry_embeddings] at he
    rcases mem_embeddings_append he with hold | ⟨v, hv, rfl⟩
    · exact .inl hold
    · obtain ⟨hlength, hproject⟩ := hfits v hv
      rw [LinkedDb.addEntry_notes]
      exact .inr ⟨hlength, note.row db.nextRowid,
        List.mem_append_right _ (List.mem_singleton.mpr rfl), rfl, hproject⟩

theorem Added.grown {call : AddCall Vec} (hadded : Added db call db') (h : server.Sound db)
    (haccepts : call.note.projectId ∈ db.projects.map Project.id)
    (hfits : server.FitsProject db call.note.projectId call.embedding) : server.Grown db db' where
  projects := hadded.stored.projects
  owned := by
    intro n hn
    rw [hadded.stored.notes] at hn
    rcases List.mem_append.mp hn with hold | hnew
    · obtain ⟨m, hm, rfl⟩ := List.mem_map.mp hold
      rw [Stored.resolvedBy_projectId]
      exact h.owned m hm
    · rw [List.mem_singleton.mp hnew]
      exact haccepts
  kept := by
    intro n hn
    rw [hadded.stored.notes]
    exact ⟨_, List.mem_append_left _ (List.mem_map_of_mem hn), Stored.resolvedBy_rowid _ _ n,
      Stored.resolvedBy_projectId _ _ n⟩
  vectors := by
    intro e he
    rw [hadded.stored.embeddings] at he
    rcases mem_embeddings_append he with hold | ⟨v, hv, rfl⟩
    · exact .inl hold
    · obtain ⟨hlength, hproject⟩ := hfits v hv
      rw [hadded.stored.notes]
      exact .inr ⟨hlength, call.note.row db.nextRowid,
        List.mem_append_right _ (List.mem_singleton.mpr rfl), rfl, hproject⟩

end Server
end Inkentry
