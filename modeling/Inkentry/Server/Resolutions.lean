/-
  Inkentry.Server.Resolutions

  Adding an entry together with its resolutions: `add_note_with_resolutions`
  inserts the entry and applies each resolution against the new row, inside a
  transaction opened and closed by hand on the connection that every request
  shares.

  Every statement has its own outcome.  A lookup and the write that follows it
  share one, since a lookup that fails has changed nothing.
-/

import Inkentry.Server.Writes

namespace Inkentry
namespace Server

open Transaction

variable {Vec : Type*}

/-! ## The functions -/

/-- `relates_to` and `contradicts`: an edge to a target of the project, if there is one. -/
def relateNote (projectId newRowid : Nat) (kind targetId : String) : Write (LinkedDb Vec) Unit :=
  fun db =>
    match db.resolveRowid projectId targetId with
    | some targetRowid => addEdge newRowid targetRowid kind db
    | none => some (db, ())

def applyResolution (outcome : Outcome) (projectId newRowid : Nat) (newSyncId kind targetId : String) :
    Sql (LinkedDb Vec) Unit :=
  if kind = "supersedes" then do
    let _ ← Sql.statement outcome (supersedeNote projectId targetId newSyncId)
    pure ()
  else if kind = "relates_to" ∨ kind = "contradicts" then
    Sql.statement outcome (relateNote projectId newRowid kind targetId)
  else
    -- "distinct" records nothing
    pure ()

/-- The loop over the resolutions; the `j`-th of them ends with `outcomes j`. -/
def applyResolutions (projectId newRowid : Nat) (newSyncId : String) :
    (Nat → Outcome) → List (String × String) → Sql (LinkedDb Vec) Unit
  | _, [] => pure ()
  | outcomes, (kind, targetId) :: rest => do
    applyResolution (outcomes 0) projectId newRowid newSyncId kind targetId
    applyResolutions projectId newRowid newSyncId (fun j => outcomes (j + 1)) rest

/-- One call: the entry, its vector, and the resolutions as pairs of a kind and a target.
    The entry's id is minted during the call, after the request named its targets. -/
structure AddCall (Vec : Type*) where
  note : NewNote
  embedding : Option Vec
  resolutions : List (String × String)
  unnamed : ∀ r ∈ resolutions, r.2 ≠ note.syncId
  unpushed : note.remoteId = none

structure Faults where
  beginning : Outcome
  inserting : InsertFaults
  resolving : Nat → Outcome
  ending : Outcome

/-- What runs between BEGIN and COMMIT. -/
def addAndResolve (faults : Faults) (call : AddCall Vec) :
    Sql (LinkedDb Vec) (Nat × String) := do
  let stored ← addNoteWithSyncId faults.inserting call.note call.embedding
  applyResolutions call.note.projectId stored.1 stored.2 faults.resolving call.resolutions
  pure stored

def addNoteWithResolutions (faults : Faults) (call : AddCall Vec) :
    Sql (LinkedDb Vec) (Nat × String) :=
  Sql.transaction faults.beginning (addAndResolve faults call) faults.ending

theorem regular_applyResolution (outcome : Outcome) (projectId newRowid : Nat)
    (newSyncId kind targetId : String) : Regular (applyResolution outcome projectId newRowid
      newSyncId kind targetId : Sql (LinkedDb Vec) Unit) := by
  unfold applyResolution
  split
  · exact (regular_statement _ _).bind fun _ => regular_pure _
  · split
    · exact regular_statement _ _
    · exact regular_pure _

theorem regular_applyResolutions (projectId newRowid : Nat) (newSyncId : String)
    (outcomes : Nat → Outcome) (rs : List (String × String)) :
    Regular (applyResolutions projectId newRowid newSyncId outcomes rs :
      Sql (LinkedDb Vec) Unit) := by
  induction rs generalizing outcomes with
  | nil => exact regular_pure _
  | cons r rest ih =>
    exact (regular_applyResolution _ _ _ _ _ _).bind fun _ => ih fun j => outcomes (j + 1)

theorem regular_addAndResolve (faults : Faults) (call : AddCall Vec) :
    Regular (addAndResolve faults call) :=
  (regular_addNoteWithSyncId _ _ _).bind fun _ =>
    (regular_applyResolutions _ _ _ _ _).bind fun _ => regular_pure _

/-! ## What is stored -/

/-- An old row once the resolutions are applied: archived, with the new row as successor,
    where one of them supersedes it. -/
def NoteRow.resolvedBy (note : NewNote) (newRowid : Nat) (rs : List (String × String))
    (n : NoteRow) : NoteRow :=
  if n.projectId = note.projectId ∧ n.status = "active" ∧ ("supersedes", n.syncId) ∈ rs then
    { n with status := "archived", supersededBy := some newRowid }
  else n

/-- The edge from the new row that one of the resolutions asks for, to an old row of the
    project with any status. -/
def AsksFor (db : LinkedDb Vec) (note : NewNote) (rs : List (String × String)) (e : NoteEdge) :
    Prop :=
  e.fromId = db.nextRowid ∧ (e.kind = "relates_to" ∨ e.kind = "contradicts") ∧
    ∃ n ∈ db.notes, n.projectId = note.projectId ∧ n.rowid = e.toId ∧ (e.kind, n.syncId) ∈ rs

/-- `db'` is `db` with one new active row, its vector, each edge the resolutions ask for
    once, and the rows they supersede archived. -/
structure Stored (db : LinkedDb Vec) (note : NewNote) (embedding : Option Vec)
    (rs : List (String × String)) (db' : LinkedDb Vec) : Prop where
  projects : db'.projects = db.projects
  notes : db'.notes =
    db.notes.map (NoteRow.resolvedBy note db.nextRowid rs) ++ [note.row db.nextRowid]
  embeddings : db'.embeddings =
    db.embeddings ++ (embedding.map fun v => (db.nextRowid, v)).toList
  edges : ∃ added, db'.edges = db.edges ++ added ∧ added.Nodup ∧
    ∀ e, e ∈ added ↔ AsksFor db note rs e

variable {db db₁ db' : LinkedDb Vec} {note : NewNote} {embedding : Option Vec}
  {pre : List (String × String)} {kind target : String}

theorem stored_addEntry (h : db.Accepts note) :
    Stored db note embedding [] (db.addEntry note embedding h) where
  projects := db.addEntry_projects note embedding h
  notes := by
    have hid : db.notes.map (NoteRow.resolvedBy note db.nextRowid []) = db.notes := by
      refine (List.map_congr_left fun n _ => ?_).trans (List.map_id _)
      simp [NoteRow.resolvedBy]
    rw [hid]
    exact db.addEntry_notes note embedding h
  embeddings := db.addEntry_embeddings note embedding h
  edges := by
    refine ⟨[], ?_, List.nodup_nil, fun e => ?_⟩
    · rw [List.append_nil]
      exact db.addEntry_edges note embedding h
    · simp [AsksFor]

namespace Stored

theorem resolvedBy_syncId (rowid : Nat) (rs : List (String × String)) (n : NoteRow) :
    (n.resolvedBy note rowid rs).syncId = n.syncId := by
  unfold NoteRow.resolvedBy
  split <;> rfl

theorem resolvedBy_rowid (rowid : Nat) (rs : List (String × String)) (n : NoteRow) :
    (n.resolvedBy note rowid rs).rowid = n.rowid := by
  unfold NoteRow.resolvedBy
  split <;> rfl

theorem resolvedBy_projectId (rowid : Nat) (rs : List (String × String)) (n : NoteRow) :
    (n.resolvedBy note rowid rs).projectId = n.projectId := by
  unfold NoteRow.resolvedBy
  split <;> rfl

theorem resolveRowid_self (h : Stored db note embedding pre db₁) :
    db₁.resolveRowid note.projectId note.syncId = some db.nextRowid := by
  refine ServerDb.resolveRowid_eq_some_iff.mpr ⟨note.row db.nextRowid, ?_, rfl, rfl, rfl⟩
  rw [h.notes]
  exact List.mem_append_right _ (List.mem_singleton.mpr rfl)

theorem resolveRowid_target (h : Stored db note embedding pre db₁) (hne : target ≠ note.syncId)
    {rowid : Nat} : db₁.resolveRowid note.projectId target = some rowid ↔
      ∃ n ∈ db.notes, n.syncId = target ∧ n.projectId = note.projectId ∧ n.rowid = rowid := by
  rw [ServerDb.resolveRowid_eq_some_iff, h.notes]
  constructor
  · rintro ⟨m, hm, hsync, hproject, hid⟩
    rcases List.mem_append.mp hm with hold | hnew
    · obtain ⟨n, hn, rfl⟩ := List.mem_map.mp hold
      rw [resolvedBy_syncId] at hsync
      rw [resolvedBy_projectId] at hproject
      rw [resolvedBy_rowid] at hid
      exact ⟨n, hn, hsync, hproject, hid⟩
    · rw [List.mem_singleton.mp hnew] at hsync
      exact absurd hsync.symm hne
  · rintro ⟨n, hn, hsync, hproject, hid⟩
    refine ⟨_, List.mem_append_left _ (List.mem_map_of_mem hn), ?_, ?_, ?_⟩
    · rw [resolvedBy_syncId, hsync]
    · rw [resolvedBy_projectId, hproject]
    · rw [resolvedBy_rowid, hid]

theorem nextRowid_mem (h : Stored db note embedding pre db₁) :
    db.nextRowid ∈ db₁.notes.map NoteRow.rowid :=
  ServerDb.mem_rowids_of_resolveRowid h.resolveRowid_self

/-! ## One resolution -/

theorem resolvedBy_append_of_ne (hkind : kind ≠ "supersedes") (rowid : Nat) (n : NoteRow) :
    n.resolvedBy note rowid (pre ++ [(kind, target)]) = n.resolvedBy note rowid pre := by
  have hmem : ("supersedes", n.syncId) ∈ pre ++ [(kind, target)] ↔ ("supersedes", n.syncId) ∈ pre := by
    simp [Ne.symm hkind]
  simp only [NoteRow.resolvedBy, hmem]

/-- One more superseding resolution is the UPDATE on what the others left. -/
theorem resolvedBy_append_supersedes (rowid : Nat) (n : NoteRow) :
    n.resolvedBy note rowid (pre ++ [("supersedes", target)]) =
      (n.resolvedBy note rowid pre).supersededIn note.projectId target rowid := by
  have hmem : ("supersedes", n.syncId) ∈ pre ++ [("supersedes", target)] ↔
      ("supersedes", n.syncId) ∈ pre ∨ n.syncId = target := by simp
  by_cases hproject : n.projectId = note.projectId
  · by_cases hactive : n.status = "active"
    · by_cases hpre : ("supersedes", n.syncId) ∈ pre
      · simp [NoteRow.resolvedBy, NoteRow.supersededIn, hproject, hactive, hpre]
      · simp [NoteRow.resolvedBy, NoteRow.supersededIn, hproject, hactive, hpre]
    · simp [NoteRow.resolvedBy, NoteRow.supersededIn, hactive]
  · simp [NoteRow.resolvedBy, NoteRow.supersededIn, hproject]

/-- The edges asked for grow only by what a resolution of their kind names. -/
theorem asksFor_append_iff (e : NoteEdge) :
    AsksFor db note (pre ++ [(kind, target)]) e ↔ AsksFor db note pre e ∨
      e.fromId = db.nextRowid ∧ (e.kind = "relates_to" ∨ e.kind = "contradicts") ∧ e.kind = kind ∧
        ∃ n ∈ db.notes, n.syncId = target ∧ n.projectId = note.projectId ∧ n.rowid = e.toId := by
  constructor
  · rintro ⟨hfrom, hkind, n, hn, hproject, hto, hmem⟩
    rcases List.mem_append.mp hmem with hpre | hnew
    · exact .inl ⟨hfrom, hkind, n, hn, hproject, hto, hpre⟩
    · obtain ⟨hk, ht⟩ := Prod.mk.inj (List.mem_singleton.mp hnew)
      exact .inr ⟨hfrom, hkind, hk, n, hn, ht, hproject, hto⟩
  · rintro (⟨hfrom, hkind, n, hn, hproject, hto, hmem⟩ |
      ⟨hfrom, hkind, hk, n, hn, ht, hproject, hto⟩)
    · exact ⟨hfrom, hkind, n, hn, hproject, hto, List.mem_append_left _ hmem⟩
    · refine ⟨hfrom, hkind, n, hn, hproject, hto, List.mem_append_right _ ?_⟩
      rw [hk, ht]
      exact List.mem_singleton.mpr rfl

theorem append_of_idle (h : Stored db note embedding pre db₁) (hkind : kind ≠ "supersedes")
    (hnone : ∀ e, AsksFor db note (pre ++ [(kind, target)]) e → AsksFor db note pre e) :
    Stored db note embedding (pre ++ [(kind, target)]) db₁ where
  projects := h.projects
  notes := by
    rw [h.notes]
    congr 1
    exact List.map_congr_left fun n _ => (resolvedBy_append_of_ne hkind _ n).symm
  embeddings := h.embeddings
  edges := by
    obtain ⟨added, hedges, hnodup, hmem⟩ := h.edges
    refine ⟨added, hedges, hnodup, fun e => (hmem e).trans ⟨fun he => ?_, hnone e⟩⟩
    exact (asksFor_append_iff e).mpr (.inl he)

theorem append_supersedes (h : Stored db note embedding pre db₁) (hne : target ≠ note.syncId)
    {changed : Bool} (hstep : supersedeNote note.projectId target note.syncId db₁ = some (db', changed)) :
    Stored db note embedding (pre ++ [("supersedes", target)]) db' := by
  have hnotes : db'.notes = db₁.notes.map (NoteRow.supersededIn note.projectId target db.nextRowid) ∧
      db'.projects = db₁.projects ∧ db'.embeddings = db₁.embeddings ∧ db'.edges = db₁.edges := by
    unfold supersedeNote at hstep
    split at hstep
    · next hnone =>
      rw [h.resolveRowid_self] at hnone
      exact absurd hnone (Option.some_ne_none _)
    · next rowid hrow =>
      obtain rfl : db.nextRowid = rowid := Option.some.inj (h.resolveRowid_self.symm.trans hrow)
      obtain ⟨rfl, -⟩ := Prod.mk.inj (Option.some.inj hstep)
      exact ⟨rfl, rfl, rfl, rfl⟩
  have hself : (note.row db.nextRowid).supersededIn note.projectId target db.nextRowid =
      note.row db.nextRowid :=
    if_neg fun hcond => hne hcond.1.symm
  exact
    { projects := hnotes.2.1.trans h.projects
      notes := by
        rw [hnotes.1, h.notes, List.map_append, List.map_map, List.map_singleton, hself]
        congr 1
        exact List.map_congr_left fun n _ => (resolvedBy_append_supersedes _ n).symm
      embeddings := hnotes.2.2.1.trans h.embeddings
      edges := by
        obtain ⟨added, hedges, hnodup, hmem⟩ := h.edges
        refine ⟨added, hnotes.2.2.2.trans hedges, hnodup, fun e => (hmem e).trans ?_⟩
        rw [asksFor_append_iff]
        refine ⟨.inl, ?_⟩
        rintro (hasks | ⟨-, hkind, hk, -⟩)
        · exact hasks
        · -- a superseding resolution asks for no edge
          rcases hkind with hrel | hcon
          · exact absurd (hrel.symm.trans hk) (by decide)
          · exact absurd (hcon.symm.trans hk) (by decide) }

theorem append_relates (h : Stored db note embedding pre db₁) (hne : target ≠ note.syncId)
    (hkind : kind = "relates_to" ∨ kind = "contradicts")
    (hstep : relateNote note.projectId db.nextRowid kind target db₁ = some (db', ())) :
    Stored db note embedding (pre ++ [(kind, target)]) db' := by
  have hsup : kind ≠ "supersedes" := by
    rcases hkind with rfl | rfl
    · decide
    · decide
  cases hrow : db₁.resolveRowid note.projectId target with
  | none =>
    have hsame : db₁ = db' := by
      simp only [relateNote, hrow, Option.some.injEq, Prod.mk.injEq, and_true] at hstep
      exact hstep
    subst hsame
    refine h.append_of_idle hsup fun e he => ?_
    rcases (asksFor_append_iff e).mp he with hpre | ⟨-, -, -, hex⟩
    · exact hpre
    · rw [← h.resolveRowid_target hne, hrow] at hex
      exact absurd hex.symm (Option.some_ne_none _)
  | some other =>
    have hends : db.nextRowid ∈ db₁.notes.map NoteRow.rowid ∧ other ∈ db₁.notes.map NoteRow.rowid :=
      ⟨h.nextRowid_mem, ServerDb.mem_rowids_of_resolveRowid hrow⟩
    have hvalid : kind ∈ VALID_KINDS := by
      rcases hkind with rfl | rfl
      · decide
      · decide
    have hdb : db' = db₁.insertEdge ⟨db.nextRowid, other, kind⟩ hends := by
      simp only [relateNote, hrow, addEdge, if_pos hvalid, dif_pos hends, Option.some.injEq,
        Prod.mk.injEq, and_true] at hstep
      exact hstep.symm
    have hedges' : db'.edges = if (⟨db.nextRowid, other, kind⟩ : NoteEdge) ∈ db₁.edges then db₁.edges
        else db₁.edges ++ [⟨db.nextRowid, other, kind⟩] := by rw [hdb]; rfl
    have hasks : ∀ e, AsksFor db note (pre ++ [(kind, target)]) e ↔
        AsksFor db note pre e ∨ e = ⟨db.nextRowid, other, kind⟩ := by
      intro e
      rw [asksFor_append_iff, ← h.resolveRowid_target hne, hrow]
      constructor
      · rintro (hpre | ⟨hfrom, -, hk, hto⟩)
        · exact .inl hpre
        · cases e
          simp only at hfrom hk hto
          rw [hfrom, hk, Option.some.inj hto]
          exact .inr rfl
      · rintro (hpre | rfl)
        · exact .inl hpre
        · exact .inr ⟨rfl, hkind, rfl, rfl⟩
    exact
      { projects := by rw [hdb]; exact h.projects
        notes := by
          have hnotes : db'.notes = db₁.notes := by rw [hdb]; rfl
          rw [hnotes, h.notes]
          congr 1
          exact List.map_congr_left fun n _ => (resolvedBy_append_of_ne hsup _ n).symm
        embeddings := by rw [hdb]; exact h.embeddings
        edges := by
          obtain ⟨added, hedges, hnodup, hmem⟩ := h.edges
          -- the foreign keys keep the new rowid out of the old edges
          have hfresh : (⟨db.nextRowid, other, kind⟩ : NoteEdge) ∉ db.edges := fun hold =>
            db.nextRowid_not_mem (db.edgeRows _ hold).1
          by_cases hin : (⟨db.nextRowid, other, kind⟩ : NoteEdge) ∈ added
          · have hold : (⟨db.nextRowid, other, kind⟩ : NoteEdge) ∈ db₁.edges := by
              rw [hedges]
              exact List.mem_append_right _ hin
            refine ⟨added, by rw [hedges', if_pos hold, hedges], hnodup, fun e => ?_⟩
            rw [hasks, ← hmem]
            refine ⟨.inl, ?_⟩
            rintro (he | rfl)
            · exact he
            · exact hin
          · have hnew : (⟨db.nextRowid, other, kind⟩ : NoteEdge) ∉ db₁.edges := by
              rw [hedges, List.mem_append]
              rintro (hold | hadded)
              · exact hfresh hold
              · exact hin hadded
            refine ⟨added ++ [⟨db.nextRowid, other, kind⟩], ?_, nodup_append_singleton hnodup hin,
              fun e => ?_⟩
            · rw [hedges', if_neg hnew, hedges, List.append_assoc]
            · rw [hasks, ← hmem, List.mem_append, List.mem_singleton] }

theorem relateNote_isSome (h : Stored db note embedding pre db₁) (target : String)
    (hkind : kind = "relates_to" ∨ kind = "contradicts") :
    ∃ db', relateNote note.projectId db.nextRowid kind target db₁ = some (db', ()) := by
  have hvalid : kind ∈ VALID_KINDS := by
    rcases hkind with rfl | rfl
    · decide
    · decide
  cases hrow : db₁.resolveRowid note.projectId target with
  | none => exact ⟨db₁, by simp only [relateNote, hrow]⟩
  | some other =>
    have hends : db.nextRowid ∈ db₁.notes.map NoteRow.rowid ∧
        other ∈ db₁.notes.map NoteRow.rowid :=
      ⟨h.nextRowid_mem, ServerDb.mem_rowids_of_resolveRowid hrow⟩
    refine ⟨db₁.insertEdge ⟨db.nextRowid, other, kind⟩ hends, ?_⟩
    simp only [relateNote, hrow, addEdge, if_pos hvalid, dif_pos hends]

/-- One resolution is stored, and its statement has worked if it has one. -/
theorem step (h : Stored db note embedding pre db₁) (hne : target ≠ note.syncId)
    {outcome : Outcome}
    (hstep : (applyResolution outcome note.projectId db.nextRowid note.syncId kind target).effect db₁ =
      some (db', ())) :
    Stored db note embedding (pre ++ [(kind, target)]) db' ∧
      (kind ∈ VALID_KINDS → outcome = .done) := by
  by_cases hsup : kind = "supersedes"
  · subst hsup
    rw [applyResolution, if_pos rfl, effect_bind_eq_some_iff (regular_statement _ _) fun _ =>
      regular_pure _] at hstep
    obtain ⟨db₂, changed, hwrite, hpure⟩ := hstep
    obtain ⟨hdone, hwrite⟩ := effect_statement_eq_some_iff.mp hwrite
    obtain rfl : db₂ = db' := (Prod.mk.inj (Option.some.inj hpure)).1
    exact ⟨h.append_supersedes hne hwrite, fun _ => hdone⟩
  · rw [applyResolution, if_neg hsup] at hstep
    by_cases hrel : kind = "relates_to" ∨ kind = "contradicts"
    · rw [if_pos hrel, effect_statement_eq_some_iff] at hstep
      exact ⟨h.append_relates hne hrel hstep.2, fun _ => hstep.1⟩
    · rw [if_neg hrel] at hstep
      obtain rfl : db₁ = db' := (Prod.mk.inj (Option.some.inj hstep)).1
      refine ⟨h.append_of_idle hsup fun e he => ?_, fun hvalid => ?_⟩
      · rcases (asksFor_append_iff e).mp he with hpre | ⟨-, hkind, hk, -⟩
        · exact hpre
        · exact absurd (hk ▸ hkind) hrel
      · simp only [VALID_KINDS, List.mem_cons, List.not_mem_nil, or_false] at hvalid
        exact absurd hvalid (not_or.mpr ⟨hsup, hrel⟩)

theorem step_isSome (h : Stored db note embedding pre db₁) (target : String) {outcome : Outcome}
    (hworks : kind ∈ VALID_KINDS → outcome = .done) :
    ∃ db', (applyResolution outcome note.projectId db.nextRowid note.syncId kind target).effect db₁ =
      some (db', ()) := by
  by_cases hsup : kind = "supersedes"
  · subst hsup
    rw [applyResolution, if_pos rfl]
    obtain ⟨db', changed, hwrite⟩ : ∃ db' changed,
        supersedeNote note.projectId target note.syncId db₁ = some (db', changed) := by
      unfold supersedeNote
      split
      · exact ⟨_, _, rfl⟩
      · exact ⟨_, _, rfl⟩
    refine ⟨db', (effect_bind_eq_some_iff (regular_statement _ _) fun _ => regular_pure _).mpr
      ⟨db', changed, ?_, rfl⟩⟩
    exact effect_statement_eq_some_iff.mpr ⟨hworks (by decide), hwrite⟩
  · rw [applyResolution, if_neg hsup]
    by_cases hrel : kind = "relates_to" ∨ kind = "contradicts"
    · obtain ⟨db', hwrite⟩ := h.relateNote_isSome target hrel
      have hvalid : kind ∈ VALID_KINDS := List.mem_cons.mpr (.inr (by simpa using hrel))
      refine ⟨db', ?_⟩
      rw [if_pos hrel]
      exact effect_statement_eq_some_iff.mpr ⟨hworks hvalid, hwrite⟩
    · exact ⟨db₁, by rw [if_neg hrel]; rfl⟩

end Stored

/-! ## The whole loop -/

variable {outcomes : Nat → Outcome}
variable {rs : List (String × String)}

/-- The statements of the resolutions that have one all work. -/
def AllWork (outcomes : Nat → Outcome) (rs : List (String × String)) : Prop :=
  ∀ j r, rs[j]? = some r → r.1 ∈ VALID_KINDS → outcomes j = .done

theorem allWork_cons_iff {r : String × String}
    {rest : List (String × String)} : AllWork outcomes (r :: rest) ↔
      (r.1 ∈ VALID_KINDS → outcomes 0 = .done) ∧ AllWork (fun j => outcomes (j + 1)) rest := by
  constructor
  · intro h
    exact ⟨h 0 r rfl, fun j x hx => h (j + 1) x (by simpa using hx)⟩
  · rintro ⟨hhead, htail⟩ j x hx
    cases j with
    | zero =>
      obtain rfl : r = x := Option.some.inj hx
      exact hhead
    | succ j => exact htail j x (by simpa using hx)

/-- By induction on the resolutions, with the ones already applied in front. -/
theorem Stored.run (h : Stored db note embedding pre db₁) (hne : ∀ r ∈ rs, r.2 ≠ note.syncId)
    (hrun : (applyResolutions note.projectId db.nextRowid note.syncId outcomes rs).effect db₁ = some (db', ()))
    : Stored db note embedding (pre ++ rs) db' ∧ AllWork outcomes rs := by
  induction rs generalizing pre db₁ outcomes with
  | nil =>
    obtain rfl : db₁ = db' := (Prod.mk.inj (Option.some.inj hrun)).1
    rw [List.append_nil]
    exact ⟨h, fun j r hr => absurd hr (by simp)⟩
  | cons r rest ih =>
    obtain ⟨hr, hrest⟩ := List.forall_mem_cons.mp hne
    obtain ⟨db₂, u, hstep, htail⟩ := (effect_bind_eq_some_iff (regular_applyResolution _ _ _ _ _ _)
      fun _ => regular_applyResolutions _ _ _ _ _).mp hrun
    obtain ⟨hstored, hworks⟩ := h.step hr hstep
    obtain ⟨hfinal, htailWorks⟩ := ih hstored hrest htail
    rw [List.append_assoc] at hfinal
    exact ⟨hfinal, allWork_cons_iff.mpr ⟨hworks, htailWorks⟩⟩

theorem Stored.run_isSome (h : Stored db note embedding pre db₁) (hne : ∀ r ∈ rs, r.2 ≠ note.syncId)
    (hworks : AllWork outcomes rs) :
    ∃ db', (applyResolutions note.projectId db.nextRowid note.syncId outcomes rs).effect db₁ =
      some (db', ()) := by
  induction rs generalizing pre db₁ outcomes with
  | nil => exact ⟨db₁, rfl⟩
  | cons r rest ih =>
    obtain ⟨hr, hrest⟩ := List.forall_mem_cons.mp hne
    obtain ⟨hhead, htail⟩ := allWork_cons_iff.mp hworks
    obtain ⟨db₂, hstep⟩ := h.step_isSome r.2 hhead
    obtain ⟨db', hrun⟩ := ih (h.step hr hstep).1 hrest htail
    exact ⟨db', (effect_bind_eq_some_iff (regular_applyResolution _ _ _ _ _ _)
      fun _ => regular_applyResolutions _ _ _ _ _).mpr ⟨db₂, (), hstep, hrun⟩⟩

/-! ## The call -/

variable {call : AddCall Vec} {faults : Faults}

/-- No statement before COMMIT fails. -/
structure ReachesCommit (faults : Faults) (db : LinkedDb Vec) (call : AddCall Vec) : Prop where
  begins : faults.beginning = .done
  inserts : faults.inserting.Allow db call.note call.embedding
  resolves : AllWork faults.resolving call.resolutions

theorem addAndResolve_of_some {r : Nat × String}
    (h : (addAndResolve faults call).effect db = some (db', r)) :
    (faults.inserting.Allow db call.note call.embedding ∧
      AllWork faults.resolving call.resolutions) ∧
    r = (db.nextRowid, call.note.syncId) ∧
    Stored db call.note call.embedding call.resolutions db' := by
  obtain ⟨db₁, stored, hadd, hrest⟩ := (effect_bind_eq_some_iff (regular_addNoteWithSyncId _ _ _)
    fun _ => (regular_applyResolutions _ _ _ _ _).bind fun _ => regular_pure _).mp h
  obtain ⟨hallow, hr⟩ := effect_addNoteWithSyncId_eq_some_iff.mp hadd
  obtain ⟨rfl, rfl⟩ := Prod.mk.inj hr
  obtain ⟨db₂, u, hrun, hpure⟩ := (effect_bind_eq_some_iff (regular_applyResolutions _ _ _ _ _)
    fun _ => regular_pure _).mp hrest
  obtain ⟨rfl, rfl⟩ := Prod.mk.inj (Option.some.inj hpure)
  obtain ⟨hstored, hworks⟩ := (stored_addEntry hallow.accepts).run call.unnamed hrun
  exact ⟨⟨hallow, hworks⟩, rfl, hstored⟩

theorem addAndResolve_isSome (hallow : faults.inserting.Allow db call.note call.embedding)
    (hworks : AllWork faults.resolving call.resolutions) :
    ∃ r, (addAndResolve faults call).effect db = some r := by
  obtain ⟨db₂, hrun⟩ := (stored_addEntry hallow.accepts).run_isSome call.unnamed hworks
  refine ⟨(db₂, db.nextRowid, call.note.syncId), ?_⟩
  exact (effect_bind_eq_some_iff (regular_addNoteWithSyncId _ _ _)
    fun _ => (regular_applyResolutions _ _ _ _ _).bind fun _ => regular_pure _).mpr
    ⟨_, _, effect_addNoteWithSyncId_eq_some_iff.mpr ⟨hallow, rfl⟩,
      (effect_bind_eq_some_iff (regular_applyResolutions _ _ _ _ _)
        fun _ => regular_pure _).mpr ⟨db₂, (), hrun, rfl⟩⟩

/-- An error leaves the tables as they were and no transaction open; success stores the
    entry with all its resolutions and closes the transaction; either way the next
    transaction on the connection can begin. -/
structure AddsAtomically (faults : Faults) (db : LinkedDb Vec) (call : AddCall Vec) : Prop where
  onError : ∀ conn, addNoteWithResolutions faults call (Connection.idle db) = (conn, none) →
    conn.db = db ∧ conn.saved = none
  onSuccess : ∀ conn r, addNoteWithResolutions faults call (Connection.idle db) = (conn, some r) →
    conn.saved = none ∧ r = (db.nextRowid, call.note.syncId) ∧
      Stored db call.note call.embedding call.resolutions conn.db
  next : ((addNoteWithResolutions faults call (Connection.idle db)).1.start .done).isSome

theorem addsAtomically_of_error
    (h : addNoteWithResolutions faults call (Connection.idle db) = (Connection.idle db, none)) :
    AddsAtomically faults db call where
  onError conn hconn := by
    obtain ⟨rfl, -⟩ := Prod.mk.inj (h.symm.trans hconn)
    exact ⟨rfl, rfl⟩
  onSuccess conn r hconn :=
    absurd (Prod.mk.inj (h.symm.trans hconn)).2.symm (Option.some_ne_none r)
  next := by
    rw [h]
    rfl

theorem addsAtomically_of_success {r : Nat × String}
    (h : addNoteWithResolutions faults call (Connection.idle db) = (Connection.idle db', some r))
    (hids : r = (db.nextRowid, call.note.syncId))
    (hstored : Stored db call.note call.embedding call.resolutions db') :
    AddsAtomically faults db call where
  onError conn hconn := absurd (Prod.mk.inj (h.symm.trans hconn)).2 (Option.some_ne_none r)
  onSuccess conn ids hconn := by
    obtain ⟨rfl, hid⟩ := Prod.mk.inj (h.symm.trans hconn)
    exact ⟨rfl, (Option.some.inj hid).symm.trans hids, hstored⟩
  next := by
    rw [h]
    rfl

/-- The call is atomic unless it reaches a COMMIT that fails and leaves the transaction open:
    that error is returned with no ROLLBACK. -/
theorem addsAtomically_iff (faults : Faults) (db : LinkedDb Vec) (call : AddCall Vec) :
    AddsAtomically faults db call ↔ ¬ (ReachesCommit faults db call ∧ faults.ending = .failed) := by
  have hcall := transaction_of_regular (regular_addAndResolve faults call) faults.beginning
    faults.ending db
  cases hwrite : Write.guarded faults.beginning (addAndResolve faults call).effect db with
  | none =>
    rw [hwrite] at hcall
    refine iff_of_true (addsAtomically_of_error hcall) ?_
    rintro ⟨hreach, -⟩
    obtain ⟨r, hr⟩ := addAndResolve_isSome hreach.inserts hreach.resolves
    rw [Write.guarded, if_pos hreach.begins, hr] at hwrite
    exact absurd hwrite (Option.some_ne_none r)
  | some r =>
    obtain ⟨hbegins, heffect⟩ := Write.guarded_eq_some_iff.mp hwrite
    obtain ⟨⟨hallow, hworks⟩, hids, hstored⟩ := addAndResolve_of_some heffect
    rw [hwrite] at hcall
    cases hending : faults.ending with
    | done =>
      rw [hending] at hcall
      refine iff_of_true (addsAtomically_of_success ?_ hids hstored) fun h => absurd h.2 (by decide)
      rw [addNoteWithResolutions, hending]
      exact hcall
    -- a commit that fails leaves the transaction open, with the write in it
    | failed =>
      rw [hending] at hcall
      have hleft : addNoteWithResolutions faults call (Connection.idle db) =
          (⟨r.1, some db⟩, none) := by
        rw [addNoteWithResolutions, hending]
        exact hcall
      refine iff_of_false (fun h => ?_) fun h => h ⟨⟨hbegins, hallow, hworks⟩, rfl⟩
      exact absurd (h.onError _ hleft).2 (Option.some_ne_none db)
    | rolledBack =>
      rw [hending] at hcall
      refine iff_of_true (addsAtomically_of_error ?_) fun h => absurd h.2 (by decide)
      rw [addNoteWithResolutions, hending]
      exact hcall

/-! ## A COMMIT that fails -/

/-- One project and nothing else. -/
def freshTables : ServerDb Int :=
  { (ServerDb.empty : ServerDb Int) with
    projects := [⟨1, "team", 0, none⟩]
    slugUnique := List.nodup_singleton "team" }

theorem freshTables_edgeRows : ∀ e ∈ freshTables.edges,
    e.fromId ∈ freshTables.notes.map NoteRow.rowid ∧
      e.toId ∈ freshTables.notes.map NoteRow.rowid := List.forall_mem_nil _

/-- A server with one project and nothing in it. -/
def freshServer : LinkedDb Int where
  toServerDb := freshTables
  edgeUnique := List.nodup_nil
  edgeRows := freshTables_edgeRows

def firstAdd : AddCall Int where
  note := ⟨1, "decision", "Pin the parser", "", [], [], none, "s1", 0⟩
  embedding := none
  resolutions := []
  unnamed := List.forall_mem_nil _
  unpushed := rfl

/-- Everything works up to the COMMIT. -/
def commitFails : Faults where
  beginning := .done
  inserting := ⟨.done, .done⟩
  resolving _ := .done
  ending := .failed

/-- The first entry of a fresh server, with a COMMIT that is refused: the call reports an
    error, the row is there for every reader of the connection, and the next BEGIN fails. -/
theorem not_addsAtomically_of_failed_commit :
    ¬ AddsAtomically commitFails freshServer firstAdd ∧
    (addNoteWithResolutions commitFails firstAdd (Connection.idle freshServer)).2 = none ∧
    (addNoteWithResolutions commitFails firstAdd (Connection.idle freshServer)).1.db.notes.map
      NoteRow.title = ["Pin the parser"] ∧
    ((addNoteWithResolutions commitFails firstAdd (Connection.idle freshServer)).1.start
      .done).isSome = false := by
  have hnext : ((addNoteWithResolutions commitFails firstAdd (Connection.idle freshServer)).1.start
      .done).isSome = false := by decide
  refine ⟨fun h => ?_, by decide, by decide, hnext⟩
  have hok := h.next
  rw [hnext] at hok
  exact absurd hok (by decide)

end Server
end Inkentry
