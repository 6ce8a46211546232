/-
  Inkentry.Server.TextOnly

  A history of single adds and batch pushes to one server: which writes without a
  vector are stored, what becomes of the dimension a project has on record, and
  what two histories have in common that differ only in which entries had a
  vector.

  Both routes register the project with one function.  The batch push passes the
  server's configured dimension; the single add passes the length of its vector,
  and 0 when it has none, which a project with vectors on record refuses.
-/

import Inkentry.Server.SameEntries

namespace Inkentry
namespace Server

open Transaction
open Batch (Push BatchPushResponse Slot pushMemoryBatch AllFit)

variable {Vec D : Type} {server : Setup Vec D} {db db' : LinkedDb Vec}

/-! ## Histories -/

inductive Request (Vec : Type) where
  | add (req : AddNoteRequest Vec)
  | push (batch : Push Vec)

inductive Answer (D : Type) where
  | added (response : AddNoteResponse D)
  | pushed (response : BatchPushResponse)

/-- The vectors a write carries, the client's and the server's. -/
def Request.vectors : Request Vec → List Vec
  | .add req => req.embedding.toList
  | .push batch => batch.working.slots.filterMap Slot.embedding

/-- Its vectors have the length the server is configured with: validation refuses a client's
    vector of another length, and the embedder makes no other. -/
def Setup.Valid (server : Setup Vec D) (w : Request Vec) : Prop :=
  ∀ v ∈ w.vectors, server.length v = server.config.embeddingDim

/-! ### The same writes without vectors -/

def AddNoteRequest.textOnly (req : AddNoteRequest Vec) : AddNoteRequest Vec :=
  { req with vector := none, embedded := .notReady }

def Request.textOnly : Request Vec → Request Vec
  | .add req => .add req.textOnly
  | .push batch => .push batch.textOnly

/-- Two histories of the same writes, that may differ in which ones had a vector. -/
structure Twins (server : Setup Vec D) where
  left : List (Request Vec)
  right : List (Request Vec)
  same : left.map Request.textOnly = right.map Request.textOnly
  leftValid : ∀ w ∈ left, server.Valid w
  rightValid : ∀ w ∈ right, server.Valid w

/-! ## What is asked of a history -/

def Request.slug : Request Vec → String
  | .add req => req.slug
  | .push batch => batch.slug

/-- The dimension the route registers the project with. -/
def Setup.dimOf (server : Setup Vec D) : Request Vec → Nat
  | .add req => req.dim server.length
  | .push _ => server.config.embeddingDim

/-- The entries a write would add to these tables. -/
def Request.adds (db : LinkedDb Vec) : Request Vec → List (NewNote × Option Vec)
  | .add req => [(req.note (db.projectIdOf req.slug), req.embedding)]
  | .push batch => (batch.working.needed db).map fun c =>
      (c.note (db.projectIdOf batch.slug) batch.now, c.embedding)

/-- The write has an entry without a vector. -/
def Request.LacksVector : Request Vec → Prop
  | .add req => req.embedding = none
  | .push batch => ∃ c ∈ batch.working.slots, c.embedding = none

/-- The condition on one write.  A single add without a vector needs a project without a
    dimension on record; the ids of the rows must be free on either route. -/
def LinkedDb.Admits (db : LinkedDb Vec) : Request Vec → Prop
  | .add req => req.embedding = none →
      (∀ p, db.project? req.slug = some p → p.embeddingDim = 0) ∧
        req.minted ∉ db.notes.map NoteRow.syncId
  | .push batch => (∃ c ∈ batch.working.needed db, c.embedding = none) →
      AllFit db (db.projectIdOf batch.slug) (batch.working.needed db)

section Dim

variable {req : AddNoteRequest Vec}

theorem dim_of_textOnly (h : req.embedding = none) : req.dim server.length = 0 := by
  rw [AddNoteRequest.dim, h]
  rfl

/-- The add of a vector registers its project with the vector's dimension. -/
theorem dim_of_embedding (hvalid : server.Valid (.add req)) {v : Vec}
    (hv : v ∈ req.embedding) : server.length v = server.config.embeddingDim ∧
      req.dim server.length = server.config.embeddingDim := by
  have hlength : server.length v = server.config.embeddingDim :=
    hvalid v (Option.mem_toList.mpr hv)
  refine ⟨hlength, ?_⟩
  rw [AddNoteRequest.dim, Option.mem_def.mp hv]
  exact hlength

theorem dim_of_valid (hvalid : server.Valid (.add req)) :
    req.dim server.length = 0 ∨ req.dim server.length = server.config.embeddingDim := by
  cases hembedding : req.embedding with
  | none => exact .inl (dim_of_textOnly hembedding)
  | some v => exact .inr (dim_of_embedding hvalid hembedding).2

theorem AddNoteRequest.addFits (h : server.Sound db) {req : AddNoteRequest Vec}
    (hvalid : server.Valid (.add req)) (hadmits : db.Admits (.add req)) :
    server.AddFits req db := by
  cases hembedding : req.embedding with
  | none =>
    rw [Setup.AddFits, dim_of_textOnly hembedding]
    exact h.fitsRecord_zero_iff.mpr (hadmits hembedding).1
  | some v =>
    rw [Setup.AddFits, (dim_of_embedding hvalid hembedding).2]
    exact h.fitsRecord req.slug

end Dim

variable [LinearOrder D]

/-- One write, with whether it raises the repair signal. -/
def Setup.serve (server : Setup Vec D) : Request Vec → Sql (LinkedDb Vec) (Answer D × Bool)
  | .add req => do
    let r ← server.addNote req
    pure (.added r.1, r.2)
  | .push batch => do
    let r ← pushMemoryBatch server.config batch.working
    pure (.pushed r.1, r.2)

def Setup.run (server : Setup Vec D) (conn : Connection (LinkedDb Vec))
    (writes : List (Request Vec)) : Connection (LinkedDb Vec) :=
  writes.foldl (fun conn w => (server.serve w conn).1) conn

/-- The tables of a new server after these writes. -/
def Setup.after (server : Setup Vec D) (writes : List (Request Vec)) : LinkedDb Vec :=
  (server.run (Connection.idle LinkedDb.empty) writes).db

/-- What is asked of one write: no refusal for the project's dimension or model when it has an
    entry without a vector, and such an entry stored, with the repair signal raised over the
    tables that hold it. -/
structure Setup.StoresTextOnly (server : Setup Vec D) (db : LinkedDb Vec) (w : Request Vec) :
    Prop where
  unrefused : w.LacksVector → db.FitsRecord w.slug (server.dimOf w)
    server.config.embeddingModel
  stored : ∀ e ∈ w.adds db, e.2 = none → ∃ db' answer,
    server.serve w (Connection.idle db) = (Connection.idle db', some (answer, true)) ∧
    db'.HoldsTextOnly e.1

structure Setup.HistoryLaw (server : Setup Vec D) (writes : List (Request Vec)) : Prop where
  textOnly : ∀ pre w post, writes = pre ++ w :: post → server.StoresTextOnly (server.after pre) w
  dims : ∀ pre mid post, writes = pre ++ mid ++ post →
    KeepsDims (server.after pre) (server.after (pre ++ mid))
  vectors : ∀ pre post, writes = pre ++ post → server.VectorsFit (server.after pre)

/-- No add of the history is turned away for a duplicate that it asked to be refused on. -/
def Setup.Unblocked (server : Setup Vec D) (writes : List (Request Vec)) : Prop :=
  ∀ pre req post, writes = pre ++ .add req :: post → ¬ server.Blocks req (server.after pre)

structure TextOnlyLaw (t : Twins server) : Prop where
  left : server.HistoryLaw t.left
  right : server.HistoryLaw t.right
  entries : server.Unblocked t.left → server.Unblocked t.right →
    SameEntries (server.after t.left) (server.after t.right)

/-! ## When it holds -/

def Setup.AllAdmit (server : Setup Vec D) (writes : List (Request Vec)) : Prop :=
  ∀ pre w post, writes = pre ++ w :: post → (server.after pre).Admits w

/-! ## A single add -/

section Add

variable {req : AddNoteRequest Vec}

/-- Whatever becomes of an add, its tables keep the invariant and the dimensions. -/
theorem addNote_step (h : server.Sound db) (hvalid : server.Valid (.add req)) :
    ∃ db', (server.addNote req (Connection.idle db)).1 = Connection.idle db' ∧
      server.Sound db' ∧ KeepsDims db db' := by
  by_cases hfits : server.AddFits req db
  · obtain ⟨db₁, p, hreg, hrun⟩ := run_addNote_of_fits h.ids hfits
    have hsound := hreg.sound h (dim_of_valid hvalid)
    have hkeeps := hreg.keepsDims h.ids
    by_cases hblocks : server.Blocks req db
    · exact ⟨db₁, congrArg Prod.fst (hrun.blocked hblocks), hsound, hkeeps⟩
    · by_cases hfresh : req.minted ∈ db.notes.map NoteRow.syncId
      · exact ⟨db₁, congrArg Prod.fst (hrun.refused hblocks hfresh), hsound, hkeeps⟩
      · obtain ⟨db', hstored, hadded⟩ := hrun.stored hblocks hfresh
        have hfitsProject : server.FitsProject db₁ p.id req.embedding := by
          intro v hv
          obtain ⟨hlength, hdim⟩ := dim_of_embedding hvalid hv
          rw [hdim] at hreg
          exact ⟨hlength, hreg.exists_dim h⟩
        have hgrown := hadded.grown hsound (hreg.mem_ids h.ids) hfitsProject
        exact ⟨db', congrArg Prod.fst hstored, hsound.grown hgrown,
          hkeeps.trans (KeepsDims.of_projects hgrown.projects)⟩
  · exact ⟨db, congrArg Prod.fst (run_addNote_of_not_fits hfits), h, KeepsDims.refl db⟩

theorem Added.holdsTextOnly {call : AddCall Vec} (h : Added db call db')
    (hnone : call.embedding = none) : db'.HoldsTextOnly call.note := by
  refine ⟨db.nextRowid, ?_, ?_⟩
  · rw [h.stored.notes]
    exact List.mem_append_right _ (List.mem_singleton.mpr rfl)
  · rw [h.stored.embeddings, hnone]
    simpa using db.nextRowid_not_mem_embeddings

end Add

/-! ## One write -/

section Step

variable {w : Request Vec}

/-- What a write leaves: nothing open, the invariant, and the dimensions on record. -/
theorem serve_step (h : server.Sound db) (hvalid : server.Valid w) :
    ∃ db', (server.serve w (Connection.idle db)).1 = Connection.idle db' ∧
      server.Sound db' ∧ KeepsDims db db' := by
  cases w with
  | add req =>
    obtain ⟨db', hleft, hrest⟩ := addNote_step h hvalid
    exact ⟨db', (bind_pure_fst _ _ _).trans hleft, hrest⟩
  | push batch =>
    obtain ⟨db', hleft, hrest⟩ := pushMemoryBatch_step h hvalid
    exact ⟨db', (bind_pure_fst _ _ _).trans hleft, hrest⟩

theorem storesTextOnly_add_iff (h : server.Sound db) (req : AddNoteRequest Vec) :
    server.StoresTextOnly db (.add req) ↔ db.Admits (.add req) := by
  constructor
  · intro hlaw hnone
    have hfits : db.FitsRecord req.slug 0 server.config.embeddingModel := by
      rw [← @dim_of_textOnly Vec D server _ hnone]
      exact hlaw.unrefused hnone
    -- an id that is taken would be refused by the tables
    refine ⟨h.fitsRecord_zero_iff.mp hfits, fun htaken => ?_⟩
    obtain ⟨db', answer, hserve, -⟩ := hlaw.stored _ (List.mem_singleton.mpr rfl) hnone
    obtain ⟨r, hadd, -⟩ := exists_of_bind_pure hserve
    obtain ⟨db₁, p, hreg, hrun⟩ := run_addNote_of_fits h.ids (hlaw.unrefused hnone)
    rw [hrun.refused (not_blocks_of_textOnly hnone) htaken] at hadd
    exact absurd (Prod.mk.inj hadd).2.symm (Option.some_ne_none r)
  · intro hadmits
    have hfits : ∀ hnone : req.embedding = none, server.AddFits req db := by
      intro hnone
      rw [Setup.AddFits, dim_of_textOnly hnone]
      exact h.fitsRecord_zero_iff.mpr (hadmits hnone).1
    refine ⟨hfits, fun e he hnone => ?_⟩
    obtain rfl := List.mem_singleton.mp he
    obtain ⟨db₁, p, hreg, hrun⟩ := run_addNote_of_fits h.ids (hfits hnone)
    obtain ⟨db', hstored, hadded⟩ :=
      hrun.stored (not_blocks_of_textOnly hnone) (hadmits hnone).2
    have hholds := hadded.holdsTextOnly hnone
    have hraised : req.embedding.isNone = true := Option.isNone_iff_eq_none.mpr hnone
    rw [hraised] at hstored
    refine ⟨db', _, Sql.bind_of_some hstored, ?_⟩
    rw [← hreg.id]
    exact hholds

theorem storesTextOnly_push_iff (h : server.Sound db) {push : Push Vec}
    (hvalid : server.Valid (.push push)) :
    server.StoresTextOnly db (.push push) ↔ db.Admits (.push push) := by
  constructor
  · rintro hlaw ⟨c, hc, hnone⟩
    obtain ⟨db', answer, hserve, -⟩ := hlaw.stored _ (List.mem_map_of_mem hc) hnone
    obtain ⟨r, hrun, -⟩ := exists_of_bind_pure hserve
    exact (pushMemoryBatch_isSome_iff h).mp ⟨_, r, hrun⟩
  · intro hadmits
    refine ⟨fun _ => h.fitsRecord push.slug, fun e he hnone => ?_⟩
    obtain ⟨c, hc, rfl⟩ := List.mem_map.mp he
    obtain ⟨conn, r, hrun⟩ := (pushMemoryBatch_isSome_iff h).mpr (hadmits ⟨c, hc, hnone⟩)
    obtain ⟨hconn, hsignal, hholds⟩ := stored_of_answered h hvalid hrun hc hnone
    refine ⟨conn.db, .pushed r.1, ?_, hholds⟩
    rw [← hconn, ← hsignal]
    exact Sql.bind_of_some hrun

/-- A write without a vector is stored under its condition and no other. -/
theorem storesTextOnly_iff (h : server.Sound db) (hvalid : server.Valid w) :
    server.StoresTextOnly db w ↔ db.Admits w := by
  cases w with
  | add req => exact storesTextOnly_add_iff h req
  | push batch => exact storesTextOnly_push_iff h hvalid

end Step

/-! ## Two histories -/

section Runs

variable {w w' : Request Vec} {writes writes' : List (Request Vec)}

theorem run_append (conn : Connection (LinkedDb Vec)) (pre post : List (Request Vec)) :
    server.run conn (pre ++ post) = server.run (server.run conn pre) post :=
  List.foldl_append

theorem run_step (h : server.Sound db) (hvalid : ∀ w ∈ writes, server.Valid w) :
    ∃ db', server.run (Connection.idle db) writes = Connection.idle db' ∧
      server.Sound db' ∧ KeepsDims db db' := by
  induction writes generalizing db with
  | nil => exact ⟨db, rfl, h, KeepsDims.refl db⟩
  | cons w rest ih =>
    obtain ⟨hw, hrest⟩ := List.forall_mem_cons.mp hvalid
    obtain ⟨db₁, hleft, hsound, hkeeps⟩ := serve_step h hw
    obtain ⟨db', hrun, hsound', hkeeps'⟩ := ih hsound hrest
    refine ⟨db', ?_, hsound', hkeeps.trans hkeeps'⟩
    show server.run (server.serve w (Connection.idle db)).1 rest = _
    rw [hleft]
    exact hrun

/-- The tables after a valid history satisfy the invariant, with nothing left open. -/
theorem after_step (hvalid : ∀ w ∈ writes, server.Valid w) :
    server.run (Connection.idle LinkedDb.empty) writes = Connection.idle (server.after writes) ∧
      server.Sound (server.after writes) := by
  obtain ⟨db', hrun, hsound, -⟩ := run_step (@sound_empty Vec D server) hvalid
  have hafter : server.after writes = db' := by
    rw [Setup.after, hrun]
    rfl
  rw [hafter]
  exact ⟨hrun, hsound⟩

/-- Two adds of one entry, neither turned away for a duplicate. -/
theorem SameEntries.addNote (h : SameEntries db db') (hsound : server.Sound db)
    {req req' : AddNoteRequest Vec} (hreq : req.textOnly = req'.textOnly)
    (hfits : server.AddFits req db) (hfits' : server.AddFits req' db')
    (hblocks : ¬ server.Blocks req db) (hblocks' : ¬ server.Blocks req' db') :
    SameEntries (server.addNote req (Connection.idle db)).1.db
      (server.addNote req' (Connection.idle db')).1.db := by
  obtain ⟨db₁, p, hreg, hrun⟩ := run_addNote_of_fits hsound.ids hfits
  obtain ⟨db₁', p', hreg', hrun'⟩ := run_addNote_of_fits (h.ids ▸ hsound.ids) hfits'
  have hslug : req.slug = req'.slug :=
    congr_of_forget AddNoteRequest.textOnly AddNoteRequest.slug (fun _ => rfl) hreq
  have hminted : req.minted = req'.minted :=
    congr_of_forget AddNoteRequest.textOnly AddNoteRequest.minted (fun _ => rfl) hreq
  have hres : req.resolutions = req'.resolutions :=
    congr_of_forget AddNoteRequest.textOnly AddNoteRequest.resolutions (fun _ => rfl) hreq
  rw [← hslug] at hreg'
  obtain ⟨hsame, hid⟩ := h.registered hsound.ids hreg hreg'
  have hnote : req.note p.id = req'.note p'.id := by
    rw [← hid]
    exact congr_of_forget AddNoteRequest.textOnly (fun req => req.note p.id) (fun _ => rfl) hreq
  -- the id is taken in both tables or in neither
  by_cases htaken : req.minted ∈ db.notes.map NoteRow.syncId
  · have htaken' : req'.minted ∈ db'.notes.map NoteRow.syncId := by
      rw [← hminted, ← h.notes]
      exact htaken
    rw [hrun.refused hblocks htaken, hrun'.refused hblocks' htaken']
    exact hsame
  · have hfresh' : req'.minted ∉ db'.notes.map NoteRow.syncId := by
      rw [← hminted, ← h.notes]
      exact htaken
    obtain ⟨db₂, hstored, hadded⟩ := hrun.stored hblocks htaken
    obtain ⟨db₂', hstored', hadded'⟩ := hrun'.stored hblocks' hfresh'
    rw [hstored, hstored']
    exact hsame.added hnote hres hadded hadded'

/-- An add that is not turned away for a duplicate, or a push. -/
def Setup.Takes (server : Setup Vec D) (db : LinkedDb Vec) : Request Vec → Prop
  | .add req => ¬ server.Blocks req db
  | .push _ => True

/-- A write does the same in both histories. -/
theorem SameEntries.serve (h : SameEntries db db') (hsound : server.Sound db)
    (hsound' : server.Sound db') (hw : w.textOnly = w'.textOnly) (hvalid : server.Valid w)
    (hvalid' : server.Valid w') (hadmits : db.Admits w) (hadmits' : db'.Admits w')
    (htakes : server.Takes db w) (htakes' : server.Takes db' w') :
    SameEntries (server.serve w (Connection.idle db)).1.db
      (server.serve w' (Connection.idle db')).1.db := by
  cases w with
  | add req =>
    cases w' with
    | push batch => exact absurd hw (by simp [Request.textOnly])
    | add req' =>
      rw [Setup.serve, Setup.serve, bind_pure_fst, bind_pure_fst]
      exact h.addNote hsound (Request.add.inj hw) (req.addFits hsound hvalid hadmits)
        (req'.addFits hsound' hvalid' hadmits') htakes htakes'
  | push batch =>
    cases w' with
    | add req => exact absurd hw (by simp [Request.textOnly])
    | push batch' =>
      rw [Setup.serve, Setup.serve, bind_pure_fst, bind_pure_fst]
      exact h.pushMemoryBatch hsound hsound' (Request.push.inj hw)

/-- By induction on the histories: they store the same entries from the same entries. -/
theorem SameEntries.run (h : SameEntries db db') (hsound : server.Sound db)
    (hsound' : server.Sound db')
    (hsame : writes.map Request.textOnly = writes'.map Request.textOnly)
    (hvalid : ∀ w ∈ writes, server.Valid w) (hvalid' : ∀ w ∈ writes', server.Valid w)
    (hcond : ∀ pre w post, writes = pre ++ w :: post →
      (server.run (Connection.idle db) pre).db.Admits w ∧
        server.Takes (server.run (Connection.idle db) pre).db w)
    (hcond' : ∀ pre w post, writes' = pre ++ w :: post →
      (server.run (Connection.idle db') pre).db.Admits w ∧
        server.Takes (server.run (Connection.idle db') pre).db w) :
    SameEntries (server.run (Connection.idle db) writes).db
      (server.run (Connection.idle db') writes').db := by
  induction writes generalizing writes' db db' with
  | nil =>
    obtain rfl : writes' = [] := List.map_eq_nil_iff.mp hsame.symm
    exact h
  | cons w rest ih =>
    obtain ⟨w', rest', rfl, hw, hrest⟩ := List.map_eq_cons_iff.mp hsame.symm
    obtain ⟨hv, hvalid⟩ := List.forall_mem_cons.mp hvalid
    obtain ⟨hv', hvalid'⟩ := List.forall_mem_cons.mp hvalid'
    obtain ⟨hadmits, htakes⟩ := hcond [] w rest rfl
    obtain ⟨hadmits', htakes'⟩ := hcond' [] w' rest' rfl
    have hnext := h.serve hsound hsound' hw.symm hv hv' hadmits hadmits' htakes htakes'
    obtain ⟨db₁, hleft, hsound₁, -⟩ := serve_step hsound hv
    obtain ⟨db₁', hleft', hsound₁', -⟩ := serve_step hsound' hv'
    rw [hleft, hleft'] at hnext
    -- both runs go on from an idle connection
    have htail : ∀ pre, server.run (Connection.idle db) (w :: pre) =
        server.run (Connection.idle db₁) pre := by
      intro pre
      rw [← hleft]
      rfl
    have htail' : ∀ pre, server.run (Connection.idle db') (w' :: pre) =
        server.run (Connection.idle db₁') pre := by
      intro pre
      rw [← hleft']
      rfl
    rw [htail, htail']
    refine ih hnext hsound₁ hsound₁' hrest.symm hvalid hvalid' ?_ ?_
    · intro pre v post hsplit
      rw [← htail]
      exact hcond (w :: pre) v post (by rw [hsplit]; rfl)
    · intro pre v post hsplit
      rw [← htail']
      exact hcond' (w' :: pre) v post (by rw [hsplit]; rfl)

end Runs

/-! ## The law -/

theorem historyLaw_iff {writes : List (Request Vec)} (hvalid : ∀ w ∈ writes, server.Valid w) :
    server.HistoryLaw writes ↔ server.AllAdmit writes := by
  have hpre : ∀ pre post, writes = pre ++ post → ∀ w ∈ pre, server.Valid w := by
    intro pre post hsplit w hw
    exact hvalid w (hsplit ▸ List.mem_append_left _ hw)
  have hstep : ∀ pre w post, writes = pre ++ w :: post →
      (server.StoresTextOnly (server.after pre) w ↔ (server.after pre).Admits w) := by
    intro pre w post hsplit
    have hw : server.Valid w :=
      hvalid w (hsplit ▸ List.mem_append_right _ List.mem_cons_self)
    exact storesTextOnly_iff (after_step (hpre pre _ hsplit)).2 hw
  constructor
  · intro h pre w post hsplit
    exact (hstep pre w post hsplit).mp (h.textOnly pre w post hsplit)
  · intro h
    refine ⟨fun pre w post hsplit => (hstep pre w post hsplit).mpr (h pre w post hsplit), ?_, ?_⟩
    · intro pre mid post hsplit
      have hvalidPre := hpre (pre ++ mid) post hsplit
      obtain ⟨hidle, hsound⟩ := after_step fun w hw => hvalidPre w (List.mem_append_left _ hw)
      obtain ⟨db', hrun, -, hkeeps⟩ :=
        run_step hsound fun w hw => hvalidPre w (List.mem_append_right _ hw)
      have hafter : server.after (pre ++ mid) = db' := by
        rw [Setup.after, run_append, hidle, hrun]
        rfl
      rw [hafter]
      exact hkeeps
    · intro pre post hsplit
      exact (after_step (hpre pre post hsplit)).2.vectorsFit

/-- Two histories of the same writes obey the law when every write of both is admitted, and
    only then. -/
theorem textOnlyLaw_iff (t : Twins server) :
    TextOnlyLaw t ↔ server.AllAdmit t.left ∧ server.AllAdmit t.right := by
  constructor
  · intro h
    exact ⟨(historyLaw_iff t.leftValid).mp h.left, (historyLaw_iff t.rightValid).mp h.right⟩
  · rintro ⟨hleft, hright⟩
    refine ⟨(historyLaw_iff t.leftValid).mpr hleft, (historyLaw_iff t.rightValid).mpr hright, ?_⟩
    intro hunblocked hunblocked'
    have htakes : ∀ writes, server.Unblocked writes → ∀ pre w post,
        writes = pre ++ w :: post → server.Takes (server.after pre) w := by
      intro writes hunblocked pre w post hsplit
      cases w with
      | add req => exact hunblocked pre req post hsplit
      | push batch => exact trivial
    have hempty : SameEntries (LinkedDb.empty : LinkedDb Vec) LinkedDb.empty :=
      ⟨rfl, rfl, fun _ => Iff.rfl, rfl⟩
    exact hempty.run sound_empty sound_empty t.same t.leftValid t.rightValid
      (fun pre w post hsplit =>
        ⟨hleft pre w post hsplit, htakes t.left hunblocked pre w post hsplit⟩)
      fun pre w post hsplit =>
        ⟨hright pre w post hsplit, htakes t.right hunblocked' pre w post hsplit⟩

/-! ### An add while the embedder is down -/

/-- A server for vectors of one component. -/
def oneDimServer : Setup (List Nat) Nat where
  config := ⟨1, "bge-small"⟩
  length := List.length
  distance _ _ := 1
  floors := ⟨0, 0⟩

def embeddedAdd : AddNoteRequest (List Nat) where
  slug := "team"
  kind := "decision"
  title := "Pin the parser"
  body := ""
  tags := []
  linkedFiles := []
  vector := none
  reconcile := none
  resolutions := []
  embedded := .vectors [[7]]
  minted := "s1"
  now := 0
  unnamed := List.forall_mem_nil _

/-- Another entry, after the embedder has failed. -/
def outageAdd : AddNoteRequest (List Nat) :=
  { embeddedAdd with
    title := "Pin the lexer"
    embedded := .failed
    minted := "s2"
    unnamed := List.forall_mem_nil _ }

theorem valid_outage : ∀ w ∈ [Request.add embeddedAdd, .add outageAdd], oneDimServer.Valid w := by
  simp [Setup.Valid, Request.vectors, AddNoteRequest.embedding, AddNoteRequest.serverEmbedding,
    embeddedAdd, outageAdd, oneDimServer]

def outage : Twins oneDimServer where
  left := [.add embeddedAdd, .add outageAdd]
  right := [.add embeddedAdd, .add outageAdd]
  same := rfl
  leftValid := valid_outage
  rightValid := valid_outage

/-- The first add records the dimension of its vector.  The second has no vector, registers
    with dimension 0 and is refused for it. -/
theorem not_textOnlyLaw_of_outage :
    ¬ TextOnlyLaw outage ∧
    ((oneDimServer.after [.add embeddedAdd]).project? "team").map Project.embeddingDim = some 1 ∧
    (oneDimServer.serve (.add outageAdd)
      (Connection.idle (oneDimServer.after [.add embeddedAdd]))).2.isNone = true := by
  refine ⟨fun h => ?_, by decide, by decide⟩
  have hfits := (h.left.textOnly [.add embeddedAdd] (.add outageAdd) [] rfl).unrefused rfl
  have hproject : (oneDimServer.after [.add embeddedAdd]).project? "team" =
      some ⟨1, "team", 1, some "bge-small"⟩ := by decide
  exact absurd (hfits _ hproject).1 (by decide)

end Server
end Inkentry
