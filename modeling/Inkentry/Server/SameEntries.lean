/-
  Inkentry.Server.SameEntries

  Two runs of the server side by side, over tables with the same entries that may
  differ in the vectors: registering, storing and the loop of a push keep the
  entries the same, whatever vectors the two runs carry.
-/

import Inkentry.Server.BatchTextOnly

namespace Inkentry
namespace Server

open Transaction
open Batch (Push BatchNoteItem Progress Slot pushSlots pushMemoryBatch slotsFrom)

variable {Vec D : Type} {server : Setup Vec D} {db db' : LinkedDb Vec}

/-- What is the same after forgetting is the same of two values that are. -/
theorem congr_of_forget {α β : Type} (forget : α → α) (f : α → β) (hf : ∀ a, f (forget a) = f a)
    {a b : α} (h : forget a = forget b) : f a = f b := by
  rw [← hf a, ← hf b, h]

/-! ## The tables -/

/-- The projects, entries and edges are the same. -/
structure SameEntries (db db' : LinkedDb Vec) : Prop where
  projects : (db.projects.map fun p => (p.id, p.slug)) = db'.projects.map fun p => (p.id, p.slug)
  notes : db.notes = db'.notes
  edges : ∀ e, e ∈ db.edges ↔ e ∈ db'.edges
  nextRowid : db.nextRowid = db'.nextRowid

variable {db₁ db₁' : LinkedDb Vec} {slug model : String} {dim dim' : Nat} {p p' : Project}
  {note : NewNote}

theorem map_id_project? (db : LinkedDb Vec) (slug : String) :
    (db.project? slug).map Project.id =
      ((db.projects.map fun p => (p.id, p.slug)).find? fun k => k.2 = slug).map Prod.fst := by
  rw [List.find?_map, Option.map_map]
  rfl

theorem SameEntries.ids (h : SameEntries db db') :
    db.projects.map Project.id = db'.projects.map Project.id := by
  have hids := congrArg (List.map Prod.fst) h.projects
  rwa [List.map_map, List.map_map] at hids

theorem SameEntries.nextProjectId (h : SameEntries db db') :
    db.nextProjectId = db'.nextProjectId := by
  rw [ServerDb.nextProjectId, ServerDb.nextProjectId, h.ids]

theorem SameEntries.map_id_project? (h : SameEntries db db') (slug : String) :
    (db.project? slug).map Project.id = (db'.project? slug).map Project.id := by
  rw [Server.map_id_project?, Server.map_id_project?, h.projects]

theorem SameEntries.projectIdOf (h : SameEntries db db') (slug : String) :
    db.projectIdOf slug = db'.projectIdOf slug := by
  have hid := h.map_id_project? slug
  unfold ServerDb.projectIdOf
  cases hp : db.project? slug with
  | none =>
    cases hp' : db'.project? slug with
    | none => exact h.nextProjectId
    | some q => rw [hp, hp'] at hid; exact absurd hid.symm (Option.some_ne_none _)
  | some p =>
    cases hp' : db'.project? slug with
    | none => rw [hp, hp'] at hid; exact absurd hid (Option.some_ne_none _)
    | some q => rw [hp, hp'] at hid; exact Option.some.inj hid

theorem SameEntries.accepts_iff (h : SameEntries db db') :
    db.Accepts note ↔ db'.Accepts note := by
  rw [LinkedDb.Accepts, LinkedDb.Accepts, h.ids, h.notes]

theorem SameEntries.registered (h : SameEntries db db')
    (hids : (db.projects.map Project.id).Nodup) (hreg : Registered db slug dim model db₁ p)
    (hreg' : Registered db' slug dim' model db₁' p') : SameEntries db₁ db₁' ∧ p.id = p'.id := by
  refine ⟨⟨?_, ?_, ?_, ?_⟩, ?_⟩
  · have hid := h.map_id_project? slug
    rw [hreg.projects, hreg'.projects, ServerDb.map_registered _ (fun _ => rfl) hids,
      ServerDb.map_registered _ (fun _ => rfl) (h.ids ▸ hids)]
    cases hp : db.project? slug with
    | none =>
      cases hp' : db'.project? slug with
      | none => rw [h.projects, h.nextProjectId]
      | some q => rw [hp, hp'] at hid; exact absurd hid.symm (Option.some_ne_none _)
    | some q =>
      cases hp' : db'.project? slug with
      | none => rw [hp, hp'] at hid; exact absurd hid (Option.some_ne_none _)
      | some q' => exact h.projects
  · rw [hreg.rows.notes, hreg'.rows.notes, h.notes]
  · rw [hreg.rows.edges, hreg'.rows.edges]
    exact h.edges
  · rw [hreg.rows.nextRowid, hreg'.rows.nextRowid, h.nextRowid]
  · rw [hreg.id, hreg'.id, h.projectIdOf]

theorem SameEntries.addEntry (h : SameEntries db db') {note' : NewNote} (hnote : note = note')
    (embedding embedding' : Option Vec) (haccepts : db.Accepts note)
    (haccepts' : db'.Accepts note') :
    SameEntries (db.addEntry note embedding haccepts)
      (db'.addEntry note' embedding' haccepts') where
  projects := by
    rw [LinkedDb.addEntry_projects, LinkedDb.addEntry_projects]
    exact h.projects
  notes := by rw [LinkedDb.addEntry_notes, LinkedDb.addEntry_notes, hnote, h.notes, h.nextRowid]
  edges := by
    rw [LinkedDb.addEntry_edges, LinkedDb.addEntry_edges]
    exact h.edges
  nextRowid := by rw [LinkedDb.addEntry_nextRowid, LinkedDb.addEntry_nextRowid, h.nextRowid]

theorem SameEntries.asksFor_iff (h : SameEntries db db') (rs : List (String × String))
    (e : NoteEdge) : AsksFor db note rs e ↔ AsksFor db' note rs e := by
  rw [AsksFor, AsksFor, h.notes, h.nextRowid]

theorem SameEntries.added (h : SameEntries db db') {call call' : AddCall Vec}
    (hnote : call.note = call'.note) (hres : call.resolutions = call'.resolutions)
    (hadded : Added db call db₁) (hadded' : Added db' call' db₁') : SameEntries db₁ db₁' where
  projects := by
    rw [hadded.stored.projects, hadded'.stored.projects]
    exact h.projects
  notes := by
    rw [hadded.stored.notes, hadded'.stored.notes, hnote, hres, h.notes, h.nextRowid]
  edges := by
    intro e
    obtain ⟨added, hedges, -, hmem⟩ := hadded.stored.edges
    obtain ⟨added', hedges', -, hmem'⟩ := hadded'.stored.edges
    rw [hedges, hedges', List.mem_append, List.mem_append, hmem, hmem', hnote, hres, h.edges,
      h.asksFor_iff]
  nextRowid := by rw [hadded.nextRowid, hadded'.nextRowid, h.nextRowid]

/-! ## The loop of a push -/

def Batch.BatchNoteItem.textOnly (item : BatchNoteItem Vec) : BatchNoteItem Vec :=
  { item with vector := none }

def Batch.Slot.textOnly (c : Slot Vec) : Slot Vec :=
  { c with item := c.item.textOnly, embedding := none }

/-- The same external ids are known, under the same ids. -/
def KnowsSame (s s' : Progress) : Prop :=
  ∀ e, (s.existing e).map Batch.ExistingNote.syncId = (s'.existing e).map Batch.ExistingNote.syncId

variable {projectId : Nat} {now : Int} {c c' : Slot Vec} {slots slots' : List (Slot Vec)}
  {s s' : Progress} {r r' : Option Progress}

theorem KnowsSame.create (h : KnowsSame s s') (hc : c.textOnly = c'.textOnly) :
    KnowsSame (s.create c) (s'.create c') := by
  have hext : c.item.externalId = c'.item.externalId :=
    congr_of_forget Slot.textOnly (fun c => c.item.externalId) (fun _ => rfl) hc
  have hid : c.syncId = c'.syncId := congr_of_forget Slot.textOnly Slot.syncId (fun _ => rfl) hc
  intro e
  show (Function.update s.existing _ _ e).map _ = (Function.update s'.existing _ _ e).map _
  rw [← hext]
  by_cases heq : e = c.item.externalId
  · rw [heq, Function.update_self, Function.update_self]
    exact congrArg some hid
  · rw [Function.update_of_ne heq, Function.update_of_ne heq]
    exact h e

/-- The two loops do the same with an entry that may have a vector in one of them only. -/
theorem SlotRun.same (hc : c.textOnly = c'.textOnly) (hs : KnowsSame s s')
    (h : SameEntries db db') (hrun : SlotRun db projectId now c s db₁ r)
    (hrun' : SlotRun db' projectId now c' s' db₁' r') :
    SameEntries db₁ db₁' ∧ Option.Rel KnowsSame r r' := by
  have hnote : c.note projectId now = c'.note projectId now :=
    congr_of_forget Slot.textOnly (Slot.note projectId now) (fun _ => rfl) hc
  have hext : c.item.externalId = c'.item.externalId :=
    congr_of_forget Slot.textOnly (fun c => c.item.externalId) (fun _ => rfl) hc
  have hknown := hs c.item.externalId
  -- what is known decides, and then the tables, which are the same in both
  cases hrun with
  | skipped found hfound =>
    rw [hfound] at hknown
    cases hrun' with
    | skipped found' hfound' => exact ⟨h, .some hs⟩
    | stored hnew' _ =>
      rw [hext, hnew'] at hknown
      exact absurd hknown (Option.some_ne_none _)
    | refused hnew' _ =>
      rw [hext, hnew'] at hknown
      exact absurd hknown (Option.some_ne_none _)
  | stored hnew haccepts =>
    rw [hnew, hext] at hknown
    cases hrun' with
    | skipped found' hfound' =>
      rw [hfound'] at hknown
      exact absurd hknown.symm (Option.some_ne_none _)
    | stored hnew' haccepts' =>
      refine ⟨?_, .some (hs.create hc)⟩
      exact h.addEntry hnote _ _ haccepts haccepts'
    | refused hnew' hrefused =>
      exact absurd (h.accepts_iff.mp (hnote ▸ haccepts)) hrefused
  | refused hnew hrefused =>
    rw [hnew, hext] at hknown
    cases hrun' with
    | skipped found' hfound' =>
      rw [hfound'] at hknown
      exact absurd hknown.symm (Option.some_ne_none _)
    | stored hnew' haccepts' =>
      exact absurd (h.accepts_iff.mpr haccepts') (hnote ▸ hrefused)
    | refused hnew' hrefused' => exact ⟨h, .none⟩

/-- Two runs of the loop over the same entries, with vectors or without. -/
theorem pushSlots_same (hslots : slots.map Slot.textOnly = slots'.map Slot.textOnly)
    (hworks : ∀ c ∈ slots, c.faults = InsertFaults.working)
    (hworks' : ∀ c ∈ slots', c.faults = InsertFaults.working)
    (hs : KnowsSame s s') (h : SameEntries db db') :
    SameEntries (pushSlots projectId now slots s (Connection.idle db)).1.db
      (pushSlots projectId now slots' s' (Connection.idle db')).1.db := by
  induction slots generalizing slots' db db' s s' with
  | nil =>
    obtain rfl : slots' = [] := List.map_eq_nil_iff.mp hslots.symm
    exact h
  | cons c rest ih =>
    obtain ⟨c', rest', rfl, hc, hrest⟩ := List.map_eq_cons_iff.mp hslots.symm
    obtain ⟨hw, hworks⟩ := List.forall_mem_cons.mp hworks
    obtain ⟨hw', hworks'⟩ := List.forall_mem_cons.mp hworks'
    obtain ⟨db₁, r, hslot, hrun⟩ := @run_pushSlots_cons Vec db projectId now c rest s hw
    obtain ⟨db₁', r', hslot', hrun'⟩ := @run_pushSlots_cons Vec db' projectId now c' rest' s' hw'
    obtain ⟨hsame, hrel⟩ := SlotRun.same hc.symm hs h hslot hslot'
    rw [hrun, hrun']
    cases hrel with
    | none => exact hsame
    | some hs' => exact ih hrest.symm hworks hworks' hs' hsame

/-! ## A whole push -/

def Batch.Push.textOnly (push : Push Vec) : Push Vec :=
  { push.working with entries := push.entries.map BatchNoteItem.textOnly, embedded := .notReady }

theorem slotsFrom_textOnly (minted : Nat → String) (i : Nat) (entries : List (BatchNoteItem Vec))
    (found : List (Option Vec)) :
    (slotsFrom minted (fun _ => InsertFaults.working) i entries found).map Slot.textOnly =
      slotsFrom minted (fun _ => InsertFaults.working) i (entries.map BatchNoteItem.textOnly)
        (entries.map fun _ => none) := by
  induction entries generalizing i found with
  | nil => rfl
  | cons entry rest ih =>
    rw [slotsFrom, List.map_cons, ih]
    rfl

variable {push push' : Push Vec}

theorem map_textOnly_slots (push : Push Vec) :
    push.working.slots.map Slot.textOnly = push.textOnly.slots := by
  have hassign : push.textOnly.embedded.assign push.textOnly.entries =
      push.entries.map fun _ => none := by
    show (push.entries.map BatchNoteItem.textOnly).map (fun _ => none) = _
    rw [List.map_map]
    rfl
  have hslots : push.textOnly.slots = slotsFrom push.minted (fun _ => InsertFaults.working) 0
      (push.entries.map BatchNoteItem.textOnly) (push.entries.map fun _ => none) :=
    congrArg (slotsFrom push.minted (fun _ => InsertFaults.working) 0
      (push.entries.map BatchNoteItem.textOnly)) hassign
  rw [hslots]
  exact slotsFrom_textOnly _ _ _ _

theorem SameEntries.existing (h : SameEntries db db') (hpush : push.textOnly = push'.textOnly) :
    KnowsSame (push.working.start db) (push'.working.start db') := by
  have hids : push.entries.map BatchNoteItem.externalId =
      push'.entries.map BatchNoteItem.externalId := by
    have hentries : push.entries.map BatchNoteItem.textOnly =
        push'.entries.map BatchNoteItem.textOnly := congrArg Push.entries hpush
    have hmap := congrArg (List.map BatchNoteItem.externalId) hentries
    rw [List.map_map, List.map_map] at hmap
    exact hmap
  have hslug : push.slug = push'.slug :=
    congr_of_forget Push.textOnly Push.slug (fun _ => rfl) hpush
  intro e
  show (Batch.findByRemoteIds db (db.projectIdOf push.slug)
    (push.entries.map BatchNoteItem.externalId) e).map _ =
    (Batch.findByRemoteIds db' (db'.projectIdOf push'.slug)
      (push'.entries.map BatchNoteItem.externalId) e).map _
  rw [hids, hslug, h.projectIdOf, Batch.findByRemoteIds, Batch.findByRemoteIds, h.notes]
  split
  · rw [Option.map_map, Option.map_map]
    rfl
  · rfl

theorem SameEntries.pushMemoryBatch (h : SameEntries db db') (hsound : server.Sound db)
    (hsound' : server.Sound db') (hpush : push.textOnly = push'.textOnly) :
    SameEntries
      (Batch.pushMemoryBatch server.config push.working (Connection.idle db)).1.db
      (Batch.pushMemoryBatch server.config push'.working (Connection.idle db')).1.db := by
  obtain ⟨db₁, p, hreg, hrun⟩ := @run_pushMemoryBatch Vec D server db push hsound
  obtain ⟨db₁', p', hreg', hrun'⟩ := @run_pushMemoryBatch Vec D server db' push' hsound'
  have hslug : push.slug = push'.slug :=
    congr_of_forget Push.textOnly Push.slug (fun _ => rfl) hpush
  have hnow : push.now = push'.now := congr_of_forget Push.textOnly Push.now (fun _ => rfl) hpush
  have hslots : push.working.slots.map Slot.textOnly = push'.working.slots.map Slot.textOnly := by
    rw [map_textOnly_slots, map_textOnly_slots, hpush]
  rw [← hslug] at hreg'
  obtain ⟨hsame, hid⟩ := h.registered hsound.ids hreg hreg'
  rw [hrun, hrun', bind_pure_fst, bind_pure_fst, ← hid, ← hnow]
  exact pushSlots_same hslots push.working_works push'.working_works (h.existing hpush) hsame

end Server
end Inkentry
