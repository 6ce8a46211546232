/-
  Inkentry.Server.BatchTextOnly

  A batch push when every statement works: each entry is skipped, stored or
  refused by the tables, the tables keep the invariant of the project dimensions,
  and an entry without a vector that needs a row gets one, with the repair signal
  raised.
-/

import Inkentry.Server.BatchRun
import Inkentry.Server.ProjectDims

namespace Inkentry
namespace Server

open Transaction
open Batch (Push BatchNoteItem BatchPushResponse Progress Slot creating pushSlot pushSlots
  pushMemoryBatch findByRemoteIds slotsFrom AllFit)

variable {Vec D : Type} {server : Setup Vec D} {db db' : LinkedDb Vec}

/-- The push with every statement working. -/
def Batch.Push.working (push : Push Vec) : Push Vec :=
  { push with faults := ⟨RegisterFaults.working, .done, fun _ => InsertFaults.working⟩ }

/-- The row of the entry is there, and no vector for it. -/
def LinkedDb.HoldsTextOnly (db : LinkedDb Vec) (note : NewNote) : Prop :=
  ∃ rowid, note.row rowid ∈ db.notes ∧ rowid ∉ db.embeddings.map Prod.fst

theorem LinkedDb.nextRowid_not_mem_embeddings (db : LinkedDb Vec) :
    db.nextRowid ∉ db.embeddings.map Prod.fst := by
  intro hmem
  obtain ⟨e, he, hid⟩ := List.mem_map.mp hmem
  obtain ⟨n, hn, hrow⟩ := db.vectorRows e he
  have hlt := db.rowidsBelow n hn
  omega

/-! ## The loop -/

variable {projectId : Nat} {now : Int} {c : Slot Vec} {slots : List (Slot Vec)} {s : Progress}
  {note : NewNote}

/-- The loop over an entry that is known. -/
def Batch.Progress.skip (s : Progress) (c : Slot Vec) (found : Batch.ExistingNote) : Progress :=
  { s with
    results := s.results ++ [⟨.skipped, c.item.externalId, found.syncId, found.hasEmbedding⟩]
    skipped := s.skipped + 1
    needsRepair := s.needsRepair || !found.hasEmbedding }

/-- The loop over an entry that it stored. -/
def Batch.Progress.create (s : Progress) (c : Slot Vec) : Progress where
  existing := Function.update s.existing c.item.externalId (some ⟨c.syncId, c.embedding.isSome⟩)
  results := s.results ++ [⟨.created, c.item.externalId, c.syncId, c.embedding.isSome⟩]
  created := s.created + 1
  skipped := s.skipped
  needsRepair := s.needsRepair || c.embedding.isNone

/-- The entry's statements work, and its vector has the dimension of its project. -/
structure Setup.Sends (server : Setup Vec D) (db : LinkedDb Vec) (projectId : Nat)
    (c : Slot Vec) : Prop where
  works : c.faults = InsertFaults.working
  fits : server.FitsProject db projectId c.embedding

/-- One entry is skipped, stored, or refused by the tables. -/
inductive SlotRun (db : LinkedDb Vec) (projectId : Nat) (now : Int) (c : Slot Vec) (s : Progress) :
    LinkedDb Vec → Option Progress → Prop where
  | skipped (found : Batch.ExistingNote) (hfound : s.existing c.item.externalId = some found) :
      SlotRun db projectId now c s db (some (s.skip c found))
  | stored (hnew : s.existing c.item.externalId = none)
      (haccepts : db.Accepts (c.note projectId now)) :
      SlotRun db projectId now c s (db.addEntry (c.note projectId now) c.embedding haccepts)
        (some (s.create c))
  | refused (hnew : s.existing c.item.externalId = none)
      (hrefused : ¬ db.Accepts (c.note projectId now)) :
      SlotRun db projectId now c s db none

theorem run_pushSlot (hworks : c.faults = InsertFaults.working) :
    ∃ db' r, pushSlot projectId now c s (Connection.idle db) = (Connection.idle db', r) ∧
      SlotRun db projectId now c s db' r := by
  cases hknown : s.existing c.item.externalId with
  | some found =>
    refine ⟨db, some (s.skip c found), ?_, .skipped found hknown⟩
    rw [pushSlot, hknown]
    rfl
  | none =>
    by_cases haccepts : db.Accepts (c.note projectId now)
    · refine ⟨_, some (s.create c), ?_, .stored hknown haccepts⟩
      rw [pushSlot, hknown, hworks]
      exact Sql.bind_of_some (run_addNoteWithSyncId haccepts)
    · refine ⟨db, none, ?_, .refused hknown haccepts⟩
      rw [pushSlot, hknown, hworks]
      exact Sql.bind_of_none (run_addNoteWithSyncId_of_refused haccepts)

/-- The loop takes its first entry and goes on unless that one is refused. -/
theorem run_pushSlots_cons (hworks : c.faults = InsertFaults.working) :
    ∃ db₁ r, SlotRun db projectId now c s db₁ r ∧
      pushSlots projectId now (c :: slots) s (Connection.idle db) =
        match r with
        | some s' => pushSlots projectId now slots s' (Connection.idle db₁)
        | none => (Connection.idle db₁, none) := by
  obtain ⟨db₁, r, hrun, hslot⟩ := @run_pushSlot Vec db projectId now c s hworks
  refine ⟨db₁, r, hslot, ?_⟩
  cases r with
  | some s' => exact Sql.bind_of_some hrun
  | none => exact Sql.bind_of_none hrun

theorem SlotRun.grown {db₁ : LinkedDb Vec} {r : Option Progress}
    (hslot : SlotRun db projectId now c s db₁ r) (h : server.Sound db)
    (hfits : server.FitsProject db projectId c.embedding) :
    server.Sound db₁ ∧ db₁.projects = db.projects := by
  cases hslot with
  | skipped found hfound => exact ⟨h, rfl⟩
  | stored hnew haccepts =>
    have hgrown := grown_addEntry h haccepts hfits
    exact ⟨h.grown hgrown, hgrown.projects⟩
  | refused hnew hrefused => exact ⟨h, rfl⟩

/-- Whatever becomes of the loop, its tables keep the invariant and the projects. -/
theorem pushSlots_step (h : server.Sound db) (hsends : ∀ c ∈ slots, server.Sends db projectId c) :
    ∃ db', (pushSlots projectId now slots s (Connection.idle db)).1 = Connection.idle db' ∧
      server.Sound db' ∧ db'.projects = db.projects := by
  induction slots generalizing db s with
  | nil => exact ⟨db, rfl, h, rfl⟩
  | cons c rest ih =>
    obtain ⟨hc, hrest⟩ := List.forall_mem_cons.mp hsends
    obtain ⟨db₁, r, hslot, hrun⟩ := @run_pushSlots_cons Vec db projectId now c rest s hc.works
    obtain ⟨hsound, hprojects⟩ := hslot.grown h hc.fits
    cases r with
    | none => exact ⟨db₁, congrArg Prod.fst hrun, hsound, hprojects⟩
    | some s' =>
      have hsends' : ∀ c ∈ rest, server.Sends db₁ projectId c := by
        intro c hc
        refine ⟨(hrest c hc).works, fun v hv => ?_⟩
        rw [hprojects]
        exact (hrest c hc).fits v hv
      obtain ⟨db', hleft, hsound', hprojects'⟩ := @ih db₁ s' hsound hsends'
      rw [hrun]
      exact ⟨db', hleft, hsound', hprojects'.trans hprojects⟩

/-! ### The entries without a vector -/

variable {conn : Connection (LinkedDb Vec)}

theorem LinkedDb.HoldsTextOnly.addEntry (h : db.HoldsTextOnly note) {other : NewNote}
    (embedding : Option Vec) (haccepts : db.Accepts other) :
    (db.addEntry other embedding haccepts).HoldsTextOnly note := by
  obtain ⟨rowid, hmem, hnone⟩ := h
  refine ⟨rowid, ?_, ?_⟩
  · rw [LinkedDb.addEntry_notes]
    exact List.mem_append_left _ hmem
  · rw [LinkedDb.addEntry_embeddings, List.map_append, List.mem_append]
    rintro (hold | hnew)
    · exact hnone hold
    · cases embedding with
      | none => exact absurd hnew List.not_mem_nil
      | some v =>
        have hlt : rowid < db.nextRowid := db.rowidsBelow _ hmem
        obtain rfl : rowid = db.nextRowid := List.mem_singleton.mp hnew
        exact absurd hlt (lt_irrefl _)

theorem holdsTextOnly_addEntry (haccepts : db.Accepts note) :
    (db.addEntry note none haccepts).HoldsTextOnly note := by
  refine ⟨db.nextRowid, ?_, ?_⟩
  · rw [LinkedDb.addEntry_notes]
    exact List.mem_append_right _ (List.mem_singleton.mpr rfl)
  · rw [LinkedDb.addEntry_embeddings]
    simpa using db.nextRowid_not_mem_embeddings

theorem pushSlots_keeps {s' : Progress} (hworks : ∀ c ∈ slots, c.faults = InsertFaults.working)
    (h : pushSlots projectId now slots s (Connection.idle db) = (conn, some s'))
    (hrepair : s.needsRepair = true) (hholds : db.HoldsTextOnly note) :
    s'.needsRepair = true ∧ conn.db.HoldsTextOnly note := by
  induction slots generalizing db s with
  | nil =>
    obtain ⟨rfl, hs⟩ := Prod.mk.inj h
    obtain rfl := Option.some.inj hs
    exact ⟨hrepair, hholds⟩
  | cons c rest ih =>
    obtain ⟨hc, hrest⟩ := List.forall_mem_cons.mp hworks
    obtain ⟨db₁, r, hslot, hrun⟩ := @run_pushSlots_cons Vec db projectId now c rest s hc
    rw [hrun] at h
    cases hslot with
    | skipped found hfound =>
      exact ih hrest h (by simp [Batch.Progress.skip, hrepair]) hholds
    | stored hnew haccepts =>
      exact ih hrest h (by simp [Batch.Progress.create, hrepair]) (hholds.addEntry _ haccepts)
    | refused hnew hrefused => exact absurd (Prod.mk.inj h).2.symm (Option.some_ne_none _)

/-- An entry without a vector that needs a row gets one, and the signal is raised. -/
theorem pushSlots_textOnly {s' : Progress} (hworks : ∀ c ∈ slots, c.faults = InsertFaults.working)
    (h : pushSlots projectId now slots s (Connection.idle db) = (conn, some s'))
    (hmem : c ∈ creating (fun e => (s.existing e).isSome) slots) (hnone : c.embedding = none) :
    s'.needsRepair = true ∧ conn.db.HoldsTextOnly (c.note projectId now) := by
  induction slots generalizing db s with
  | nil => exact absurd hmem List.not_mem_nil
  | cons head rest ih =>
    obtain ⟨hhead, hrest⟩ := List.forall_mem_cons.mp hworks
    obtain ⟨db₁, r, hslot, hrun⟩ := @run_pushSlots_cons Vec db projectId now head rest s hhead
    rw [hrun] at h
    cases hslot with
    | skipped found hfound =>
      rw [Batch.creating_cons_of_some hfound] at hmem
      exact ih hrest h hmem
    | stored hnew haccepts =>
      rw [Batch.creating_cons_of_none hnew] at hmem
      rcases List.mem_cons.mp hmem with rfl | hlater
      · rw [hnone] at h
        exact pushSlots_keeps hrest h (by simp [Batch.Progress.create, hnone])
          (holdsTextOnly_addEntry haccepts)
      · refine ih hrest h ?_
        rw [Batch.Progress.create, Batch.isSome_update]
        exact hlater
    | refused hnew hrefused => exact absurd (Prod.mk.inj h).2.symm (Option.some_ne_none _)

/-! ### The handler -/

theorem slotsFrom_works (minted : Nat → String) (i : Nat) (entries : List (BatchNoteItem Vec))
    (found : List (Option Vec)) :
    ∀ c ∈ slotsFrom minted (fun _ => InsertFaults.working) i entries found,
      c.faults = InsertFaults.working := by
  induction entries generalizing i found with
  | nil => exact List.forall_mem_nil _
  | cons entry rest ih => exact List.forall_mem_cons.mpr ⟨rfl, ih (i + 1) found.tail⟩

theorem Batch.Push.working_works (push : Push Vec) :
    ∀ c ∈ push.working.slots, c.faults = InsertFaults.working :=
  slotsFrom_works _ _ _ _

variable {push : Push Vec}

/-- A push always registers its project, and then is its loop. -/
theorem run_pushMemoryBatch (h : server.Sound db) :
    ∃ db₁ p, Registered db push.slug server.config.embeddingDim server.config.embeddingModel
      db₁ p ∧
      pushMemoryBatch server.config push.working (Connection.idle db) =
        (pushSlots p.id push.now push.working.slots (push.working.start db) >>= fun s =>
          pure (⟨s.created, s.skipped, 0, s.results⟩, s.needsRepair)) (Connection.idle db₁) := by
  obtain ⟨db₁, p, hrun, hreg⟩ := run_upsertProject h.ids (h.fitsRecord push.slug)
  refine ⟨db₁, p, hreg, ?_⟩
  have hlookup : Sql.statement push.working.faults.lookup (Write.read fun db : LinkedDb Vec =>
      findByRemoteIds db p.id (push.working.entries.map BatchNoteItem.externalId))
      (Connection.idle db₁) = (Connection.idle db₁, some (push.working.existing db)) := by
    have hread := Batch.findByRemoteIds_congr hreg.rows p.id
      (push.working.entries.map BatchNoteItem.externalId)
    rw [hreg.id] at hread ⊢
    rw [Batch.Push.existing]
    exact congrArg (fun e => (Connection.idle db₁, some e)) hread
  rw [pushMemoryBatch]
  exact (Sql.bind_of_some hrun).trans (Sql.bind_of_some hlookup)

/-- The vectors of the entries, the client's and the server's, have the configured length. -/
def Setup.ValidPush (server : Setup Vec D) (push : Push Vec) : Prop :=
  ∀ v ∈ push.working.slots.filterMap Slot.embedding,
    server.length v = server.config.embeddingDim

theorem sends_of_valid (h : server.Sound db) (hvalid : server.ValidPush push)
    {p : Project} (hreg : Registered db push.slug server.config.embeddingDim
      server.config.embeddingModel db' p) :
    ∀ c ∈ push.working.slots, server.Sends db' p.id c := by
  intro c hc
  refine ⟨push.working_works c hc, fun v hv => ⟨?_, hreg.exists_dim h⟩⟩
  exact hvalid v (List.mem_filterMap.mpr ⟨c, hc, hv⟩)

theorem pushMemoryBatch_step (h : server.Sound db) (hvalid : server.ValidPush push) :
    ∃ db', (pushMemoryBatch server.config push.working (Connection.idle db)).1 =
      Connection.idle db' ∧ server.Sound db' ∧ KeepsDims db db' := by
  obtain ⟨db₁, p, hreg, hrun⟩ := @run_pushMemoryBatch Vec D server db push h
  obtain ⟨db', hleft, hsound, hprojects⟩ := @pushSlots_step Vec D server db₁ p.id push.now
    push.working.slots (push.working.start db) (hreg.sound h (.inr rfl))
    (sends_of_valid h hvalid hreg)
  refine ⟨db', ?_, hsound, (hreg.keepsDims h.ids).trans (KeepsDims.of_projects hprojects)⟩
  rw [hrun]
  exact (bind_pure_fst _ _ _).trans hleft

/-- The push is answered when its entries fit the tables, and only then. -/
theorem pushMemoryBatch_isSome_iff (h : server.Sound db) :
    (∃ conn r, pushMemoryBatch server.config push.working (Connection.idle db) = (conn, some r)) ↔
      AllFit db (db.projectIdOf push.slug) (push.working.needed db) := by
  constructor
  · rintro ⟨conn, r, hrun⟩
    exact (Batch.answered_of_run hrun).fits
  · intro hfits
    refine Batch.run_isSome ⟨⟨rfl, ?_⟩, rfl⟩ hfits
    have hrecord := h.fitsRecord push.working.slug
    cases hproject : db.project? push.working.slug with
    | none => rfl
    | some p => exact ⟨hrecord p hproject, fun _ => rfl, fun _ => rfl⟩

/-- In an answered push the entries without a vector that need a row are stored. -/
theorem stored_of_answered (h : server.Sound db) (hvalid : server.ValidPush push)
    {r : BatchPushResponse × Bool}
    (hrun : pushMemoryBatch server.config push.working (Connection.idle db) = (conn, some r))
    {c : Slot Vec} (hmem : c ∈ push.working.needed db) (hnone : c.embedding = none) :
    conn = Connection.idle conn.db ∧ r.2 = true ∧
      conn.db.HoldsTextOnly (c.note (db.projectIdOf push.slug) push.now) := by
  obtain ⟨db', hleft, -⟩ := pushMemoryBatch_step h hvalid
  obtain ⟨db₁, p, hreg, hcall⟩ := @run_pushMemoryBatch Vec D server db push h
  rw [hcall] at hrun
  obtain ⟨s', hloop, rfl⟩ := exists_of_bind_pure hrun
  obtain ⟨hrepair, hholds⟩ := pushSlots_textOnly push.working_works hloop hmem hnone
  refine ⟨?_, hrepair, hreg.id ▸ hholds⟩
  rw [hcall, hrun] at hleft
  obtain rfl : conn = Connection.idle db' := hleft
  rfl

end Server
end Inkentry
