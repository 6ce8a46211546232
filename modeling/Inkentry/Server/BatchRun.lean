/-
  Inkentry.Server.BatchRun

  What one run of the batch push answers and stores, from any state of the
  server.  The results depend on the batch and on the live rows alone
  (`resultsOf`); the rows it needs are those of the first occurrence of each
  external id that no live row carries (`creating`).

  `answered_of_run` describes a run that is answered.  Of one that is not,
  `pushSlots_first` says whether it leaves rows behind: the first insert decides.
-/

import Inkentry.Server.Batch

namespace Inkentry
namespace Server
namespace Batch

open Transaction

variable {Vec : Type*}

/-! ## What the loop makes of a batch -/

def resultsOf : (String → Option ExistingNote) → List (Slot Vec) → List BatchItemResult
  | _, [] => []
  | existing, slot :: rest =>
    match existing slot.item.externalId with
    | some found =>
      ⟨.skipped, slot.item.externalId, found.syncId, found.hasEmbedding⟩ :: resultsOf existing rest
    | none =>
      ⟨.created, slot.item.externalId, slot.syncId, slot.embedding.isSome⟩ ::
        resultsOf (Function.update existing slot.item.externalId
          (some ⟨slot.syncId, slot.embedding.isSome⟩)) rest

def creating : (String → Bool) → List (Slot Vec) → List (Slot Vec)
  | _, [] => []
  | known, slot :: rest =>
    if known slot.item.externalId then creating known rest
    else slot :: creating (Function.update known slot.item.externalId true) rest

/-- The rows of inserted entries, under rowids from `rowid` on. -/
def addedRows (projectId : Nat) (now : Int) : Nat → List (Slot Vec) → List NoteRow
  | _, [] => []
  | rowid, slot :: rest =>
    (slot.note projectId now).row rowid :: addedRows projectId now (rowid + 1) rest

/-- Nothing stands in the way of inserting these entries one after the other. -/
structure AllFit (db : LinkedDb Vec) (projectId : Nat) (slots : List (Slot Vec)) : Prop where
  works : ∀ c ∈ slots, c.faults.insert = .done ∧ (c.embedding.isSome → c.faults.vector = .done)
  unused : ∀ c ∈ slots, c.syncId ∉ db.notes.map NoteRow.syncId
  distinct : (slots.map Slot.syncId).Nodup
  unclaimed : ∀ c ∈ slots, (projectId, c.item.externalId) ∉ db.notes.filterMap NoteRow.pushKey

theorem allFit_nil (db : LinkedDb Vec) (projectId : Nat) : AllFit db projectId [] where
  works := List.forall_mem_nil _
  unused := List.forall_mem_nil _
  distinct := List.nodup_nil
  unclaimed := List.forall_mem_nil _

variable {db db' : LinkedDb Vec} {projectId : Nat} {now : Int} {slot : Slot Vec}
  {rest slots : List (Slot Vec)}

theorem accepts_note_iff (hproject : projectId ∈ db.projects.map Project.id) :
    db.Accepts (slot.note projectId now) ↔ slot.syncId ∉ db.notes.map NoteRow.syncId ∧
      (projectId, slot.item.externalId) ∉ db.notes.filterMap NoteRow.pushKey := by
  constructor
  · rintro ⟨-, hid, hkey⟩
    exact ⟨hid, hkey _ rfl⟩
  · rintro ⟨hid, hkey⟩
    refine ⟨hproject, hid, ?_⟩
    intro r hr
    obtain rfl : slot.item.externalId = r := Option.some.inj hr
    exact hkey

/-- The first entry is inserted, and the others fit the tables with it in them. -/
theorem allFit_cons_iff (hproject : projectId ∈ db.projects.map Project.id)
    (hext : ∀ c ∈ rest, c.item.externalId ≠ slot.item.externalId) :
    AllFit db projectId (slot :: rest) ↔
      ∃ h : slot.faults.Allow db (slot.note projectId now) slot.embedding,
        AllFit (db.addEntry (slot.note projectId now) slot.embedding h.accepts) projectId rest := by
  -- what the first slot takes is its sync id and its key in the project
  have hids : ∀ h : db.Accepts (slot.note projectId now),
      (db.addEntry (slot.note projectId now) slot.embedding h).notes.map NoteRow.syncId =
        db.notes.map NoteRow.syncId ++ [slot.syncId] := by
    intro h
    rw [LinkedDb.addEntry_notes, List.map_append]
    rfl
  have hkeys : ∀ h : db.Accepts (slot.note projectId now),
      (db.addEntry (slot.note projectId now) slot.embedding h).notes.filterMap NoteRow.pushKey =
        db.notes.filterMap NoteRow.pushKey ++ [(projectId, slot.item.externalId)] := by
    intro h
    rw [LinkedDb.addEntry_notes, List.filterMap_append]
    rfl
  constructor
  · intro h
    obtain ⟨hworks, hworks'⟩ := List.forall_mem_cons.mp h.works
    obtain ⟨hunused, hunused'⟩ := List.forall_mem_cons.mp h.unused
    obtain ⟨hunclaimed, hunclaimed'⟩ := List.forall_mem_cons.mp h.unclaimed
    obtain ⟨hnew, hdistinct⟩ := List.nodup_cons.mp h.distinct
    have haccepts : db.Accepts (slot.note projectId now) :=
      (accepts_note_iff hproject).mpr ⟨hunused, hunclaimed⟩
    refine ⟨⟨hworks.1, hworks.2, haccepts⟩, hworks', ?_, hdistinct, ?_⟩
    · intro c hc
      rw [hids, List.mem_append, List.mem_singleton]
      rintro (hold | hsame)
      · exact hunused' c hc hold
      · exact hnew (hsame ▸ List.mem_map_of_mem hc)
    · intro c hc
      rw [hkeys, List.mem_append, List.mem_singleton]
      rintro (hold | hsame)
      · exact hunclaimed' c hc hold
      · exact hext c hc (Prod.mk.inj hsame).2
  · rintro ⟨hallow, h⟩
    obtain ⟨hunused, hunclaimed⟩ := (accepts_note_iff hproject).mp hallow.accepts
    refine ⟨?_, ?_, ?_, ?_⟩
    · exact List.forall_mem_cons.mpr ⟨⟨hallow.insert, hallow.vector⟩, h.works⟩
    · refine List.forall_mem_cons.mpr ⟨hunused, fun c hc hold => h.unused c hc ?_⟩
      rw [hids]
      exact List.mem_append_left _ hold
    · refine List.nodup_cons.mpr ⟨fun hmem => ?_, h.distinct⟩
      obtain ⟨c, hc, hsame⟩ := List.mem_map.mp hmem
      refine h.unused c hc ?_
      rw [hids, hsame]
      exact List.mem_append_right _ (List.mem_singleton.mpr rfl)
    · refine List.forall_mem_cons.mpr ⟨hunclaimed, fun c hc hold => h.unclaimed c hc ?_⟩
      rw [hkeys]
      exact List.mem_append_left _ hold

/-! ### The entries that need a row -/

variable {known : String → Bool}
variable {i : Nat} {c : Slot Vec}

theorem mem_creating (h : c ∈ creating known slots) :
    known c.item.externalId = false ∧ c ∈ slots := by
  induction slots generalizing known with
  | nil => exact absurd h List.not_mem_nil
  | cons slot rest ih =>
    unfold creating at h
    split at h
    · obtain ⟨hknown, hmem⟩ := ih h
      exact ⟨hknown, List.mem_cons_of_mem _ hmem⟩
    · next hunknown =>
      rcases List.mem_cons.mp h with rfl | hrest
      · exact ⟨by simpa using hunknown, List.mem_cons_self⟩
      · obtain ⟨hknown, hmem⟩ := ih hrest
        refine ⟨?_, List.mem_cons_of_mem _ hmem⟩
        by_cases heq : c.item.externalId = slot.item.externalId
        · rw [heq, Function.update_self] at hknown
          exact absurd hknown (by decide)
        · rwa [Function.update_of_ne heq] at hknown

/-- Behind an entry that needs a row, no other one needs a row for the same external id. -/
theorem externalId_ne_of_mem_creating {externalId : String}
    (h : c ∈ creating (Function.update known externalId true) slots) :
    c.item.externalId ≠ externalId := by
  intro heq
  have hknown := (mem_creating h).1
  rw [heq, Function.update_self] at hknown
  exact absurd hknown (by decide)

/-- Behind a first slot of another external id, the first occurrence is a first one. -/
theorem first_of_cons {head : Slot Vec} {rest : List (Slot Vec)} {externalId : String}
    (hfirst : ∀ j < i + 1, ∀ c, (head :: rest)[j]? = some c → c.item.externalId ≠ externalId) :
    head.item.externalId ≠ externalId
      ∧ ∀ j < i, ∀ c, rest[j]? = some c → c.item.externalId ≠ externalId :=
  ⟨hfirst 0 (Nat.succ_pos i) head rfl,
    fun j hj c hc => hfirst (j + 1) (by omega) c (by simpa using hc)⟩

theorem mem_creating_of_first (hslot : slots[i]? = some slot)
    (hunknown : known slot.item.externalId = false)
    (hfirst : ∀ j < i, ∀ c, slots[j]? = some c → c.item.externalId ≠ slot.item.externalId) :
    slot ∈ creating known slots := by
  induction slots generalizing known i with
  | nil => exact absurd hslot (by simp)
  | cons head rest ih =>
    unfold creating
    cases i with
    | zero =>
      obtain rfl : head = slot := Option.some.inj hslot
      rw [if_neg (by simp [hunknown])]
      exact List.mem_cons_self
    | succ i =>
      obtain ⟨hhead, hrest⟩ := first_of_cons hfirst
      have hslot' : rest[i]? = some slot := by simpa using hslot
      split
      · exact ih hslot' hunknown hrest
      · refine List.mem_cons_of_mem _ (ih hslot' ?_ hrest)
        rw [Function.update_of_ne hhead.symm]
        exact hunknown

/-! ### The results -/

variable {r : BatchItemResult} {found : ExistingNote}

theorem resultsOf_externalId (existing : String → Option ExistingNote) (slots : List (Slot Vec)) :
    (resultsOf existing slots).map BatchItemResult.externalId =
      slots.map fun slot => slot.item.externalId := by
  induction slots generalizing existing with
  | nil => rfl
  | cons slot rest ih =>
    unfold resultsOf
    split
    · rw [List.map_cons, ih, List.map_cons]
    · rw [List.map_cons, ih, List.map_cons]

theorem isSome_update (existing : String → Option ExistingNote) (externalId : String)
    (found : ExistingNote) :
    (fun e => (Function.update existing externalId (some found) e).isSome) =
      Function.update (fun e => (existing e).isSome) externalId true := by
  funext e
  by_cases heq : e = externalId
  · rw [heq, Function.update_self, Function.update_self]
    rfl
  · rw [Function.update_of_ne heq, Function.update_of_ne heq]

theorem creating_cons_of_some {existing : String → Option ExistingNote}
    (h : existing slot.item.externalId = some found) (rest : List (Slot Vec)) :
    creating (fun e => (existing e).isSome) (slot :: rest) =
      creating (fun e => (existing e).isSome) rest := by
  rw [creating, h, if_pos Option.isSome_some]

theorem creating_cons_of_none {existing : String → Option ExistingNote}
    (h : existing slot.item.externalId = none) (rest : List (Slot Vec)) :
    creating (fun e => (existing e).isSome) (slot :: rest) =
      slot :: creating (Function.update (fun e => (existing e).isSome) slot.item.externalId true)
        rest := by
  rw [creating, h, if_neg (by simp)]

/-- A live row is reported as skipped, under its own id. -/
theorem resultsOf_of_existing {existing : String → Option ExistingNote}
    (hslot : slots[i]? = some slot) (hresult : (resultsOf existing slots)[i]? = some r)
    (hfound : existing slot.item.externalId = some found) :
    r = ⟨.skipped, slot.item.externalId, found.syncId, found.hasEmbedding⟩ := by
  induction slots generalizing existing i with
  | nil => exact absurd hslot (by simp)
  | cons head rest ih =>
    unfold resultsOf at hresult
    cases i with
    | zero =>
      obtain rfl : head = slot := Option.some.inj hslot
      rw [hfound] at hresult
      exact (Option.some.inj hresult).symm
    | succ i =>
      have hslot' : rest[i]? = some slot := by simpa using hslot
      split at hresult
      · exact ih hslot' (by simpa using hresult) hfound
      · next hnone =>
        refine ih hslot' (by simpa using hresult) ?_
        have hne : slot.item.externalId ≠ head.item.externalId := by
          intro heq
          rw [← heq, hfound] at hnone
          exact absurd hnone (Option.some_ne_none _)
        rw [Function.update_of_ne hne]
        exact hfound

/-- The first occurrence of an external id no live row carries is created. -/
theorem resultsOf_of_first {existing : String → Option ExistingNote} (hslot : slots[i]? = some slot)
    (hresult : (resultsOf existing slots)[i]? = some r)
    (hnone : existing slot.item.externalId = none)
    (hfirst : ∀ j < i, ∀ c, slots[j]? = some c → c.item.externalId ≠ slot.item.externalId) :
    r = ⟨.created, slot.item.externalId, slot.syncId, slot.embedding.isSome⟩ := by
  induction slots generalizing existing i with
  | nil => exact absurd hslot (by simp)
  | cons head rest ih =>
    unfold resultsOf at hresult
    cases i with
    | zero =>
      obtain rfl : head = slot := Option.some.inj hslot
      rw [hnone] at hresult
      exact (Option.some.inj hresult).symm
    | succ i =>
      obtain ⟨hhead, hrest⟩ := first_of_cons hfirst
      have hslot' : rest[i]? = some slot := by simpa using hslot
      split at hresult
      · exact ih hslot' (by simpa using hresult) hnone hrest
      · refine ih hslot' (by simpa using hresult) ?_ hrest
        rw [Function.update_of_ne hhead.symm]
        exact hnone

/-- Every id in the results is a live row's or that of an entry of the batch that got a row. -/
theorem resultsOf_id {existing : String → Option ExistingNote} (hslot : slots[i]? = some slot)
    (hresult : (resultsOf existing slots)[i]? = some r) :
    (∃ found, existing slot.item.externalId = some found ∧ r.id = found.syncId) ∨
    ∃ c ∈ creating (fun e => (existing e).isSome) slots,
      c.item.externalId = slot.item.externalId ∧ r.id = c.syncId := by
  induction slots generalizing existing i with
  | nil => exact absurd hslot (by simp)
  | cons head rest ih =>
    unfold resultsOf at hresult
    cases hhead : existing head.item.externalId with
    | some found =>
      rw [hhead] at hresult
      rw [creating_cons_of_some hhead]
      cases i with
      | zero =>
        obtain rfl : head = slot := Option.some.inj hslot
        obtain rfl := Option.some.inj hresult
        exact .inl ⟨found, hhead, rfl⟩
      | succ i => exact ih (by simpa using hslot) (by simpa using hresult)
    | none =>
      rw [hhead] at hresult
      rw [creating_cons_of_none hhead]
      cases i with
      | zero =>
        obtain rfl : head = slot := Option.some.inj hslot
        obtain rfl := Option.some.inj hresult
        exact .inr ⟨head, List.mem_cons_self, rfl, rfl⟩
      | succ i =>
        rcases ih (by simpa using hslot) (by simpa using hresult) with ⟨found, hfound, hid⟩ |
          ⟨c, hc, hext, hid⟩
        -- created a slot before, so skipped here with the id it was given there
        · by_cases heq : slot.item.externalId = head.item.externalId
          · rw [heq, Function.update_self] at hfound
            obtain rfl := Option.some.inj hfound
            exact .inr ⟨head, List.mem_cons_self, heq.symm, hid⟩
          · rw [Function.update_of_ne heq] at hfound
            exact .inl ⟨found, hfound, hid⟩
        · rw [isSome_update] at hc
          exact .inr ⟨c, List.mem_cons_of_mem _ hc, hext, hid⟩

/-! ## The loop -/

/-- The loop went through: what it found in order, and what it leaves. -/
structure Pushed (db : LinkedDb Vec) (projectId : Nat) (now : Int) (slots : List (Slot Vec))
    (s : Progress) (db' : LinkedDb Vec) (s' : Progress) : Prop where
  fits : AllFit db projectId (creating (fun e => (s.existing e).isSome) slots)
  notes : db'.notes = db.notes ++
    addedRows projectId now db.nextRowid (creating (fun e => (s.existing e).isSome) slots)
  results : s'.results = s.results ++ resultsOf s.existing slots
  created : s'.created = s.created + (resultsOf s.existing slots).countP fun r => r.status = .created
  skipped : s'.skipped = s.skipped + (resultsOf s.existing slots).countP fun r => r.status = .skipped

theorem pushSlots_eq_some {s s' : Progress} (hproject : projectId ∈ db.projects.map Project.id)
    (h : (pushSlots projectId now slots s).effect db = some (db', s')) :
    Pushed db projectId now slots s db' s' := by
  -- over the slots; the table of known entries says which of the rest are still created
  induction slots generalizing db s with
  | nil =>
    obtain ⟨rfl, rfl⟩ := Prod.mk.inj (Option.some.inj h)
    exact ⟨allFit_nil db projectId, (List.append_nil _).symm, (List.append_nil _).symm, rfl, rfl⟩
  | cons slot rest ih =>
    obtain ⟨db₁, s₁, hstep, hrest⟩ := (effect_bind_eq_some_iff (regular_pushSlot _ _ _ _)
      fun s => regular_pushSlots _ _ rest s).mp h
    unfold pushSlot at hstep
    cases hknown : s.existing slot.item.externalId with
    | some found =>
      rw [hknown] at hstep
      obtain ⟨rfl, rfl⟩ := Prod.mk.inj (Option.some.inj hstep)
      have hcreating := creating_cons_of_some hknown rest
      have hresults : resultsOf s.existing (slot :: rest) =
          ⟨.skipped, slot.item.externalId, found.syncId, found.hasEmbedding⟩ ::
            resultsOf s.existing rest := by
        rw [resultsOf, hknown]
      obtain ⟨hfits, hnotes, hres, hcreated, hskipped⟩ := ih hproject hrest
      refine ⟨hcreating ▸ hfits, hcreating ▸ hnotes, ?_, ?_, ?_⟩
      · rw [hres, hresults, List.append_assoc]
        rfl
      · rw [hcreated, hresults, List.countP_cons_of_neg (by simp)]
      · rw [hskipped, hresults, List.countP_cons_of_pos (by simp)]
        exact Nat.add_right_comm s.skipped 1 _
    | none =>
      rw [hknown] at hstep
      obtain ⟨db₂, stored, hadd, hpure⟩ := (effect_bind_eq_some_iff
        (regular_addNoteWithSyncId _ _ _) fun _ => regular_pure _).mp hstep
      obtain ⟨rfl, rfl⟩ := Prod.mk.inj (Option.some.inj hpure)
      obtain ⟨hallow, hstored⟩ := effect_addNoteWithSyncId_eq_some_iff.mp hadd
      obtain ⟨rfl, rfl⟩ := Prod.mk.inj hstored
      have hcreating := creating_cons_of_none hknown rest
      have hresults : resultsOf s.existing (slot :: rest) =
          ⟨.created, slot.item.externalId, slot.syncId, slot.embedding.isSome⟩ ::
            resultsOf (Function.update s.existing slot.item.externalId
              (some ⟨slot.syncId, slot.embedding.isSome⟩)) rest := by
        rw [resultsOf, hknown]
      have hproject' : projectId ∈ (db.addEntry (slot.note projectId now) slot.embedding
          hallow.accepts).projects.map Project.id := by
        rw [LinkedDb.addEntry_projects]
        exact hproject
      obtain ⟨hfits, hnotes, hres, hcreated, hskipped⟩ := ih hproject' hrest
      rw [isSome_update] at hfits hnotes
      refine ⟨?_, ?_, ?_, ?_, ?_⟩
      · rw [hcreating]
        exact (allFit_cons_iff hproject fun c hc => externalId_ne_of_mem_creating hc).mpr
          ⟨hallow, hfits⟩
      · rw [hnotes, hcreating, LinkedDb.addEntry_notes, LinkedDb.addEntry_nextRowid,
          List.append_assoc]
        rfl
      · rw [hres, hresults, List.append_assoc]
        rfl
      · rw [hcreated, hresults, List.countP_cons_of_pos (by simp)]
        exact Nat.add_right_comm s.created 1 _
      · rw [hskipped, hresults, List.countP_cons_of_neg (by simp)]
        rfl

theorem pushSlots_isSome {s : Progress} (hproject : projectId ∈ db.projects.map Project.id)
    (h : AllFit db projectId (creating (fun e => (s.existing e).isSome) slots)) :
    ∃ r, (pushSlots projectId now slots s).effect db = some r := by
  induction slots generalizing db s with
  | nil => exact ⟨(db, s), rfl⟩
  | cons slot rest ih =>
    cases hknown : s.existing slot.item.externalId with
    | some found =>
      rw [creating_cons_of_some hknown] at h
      have hstep : (pushSlot projectId now slot s).effect db = some (db,
          { s with
            results := s.results ++
              [⟨.skipped, slot.item.externalId, found.syncId, found.hasEmbedding⟩]
            skipped := s.skipped + 1
            needsRepair := s.needsRepair || !found.hasEmbedding }) := by
        rw [pushSlot, hknown]
        rfl
      exact effect_bind_isSome (regular_pushSlot _ _ _ _) (fun s => regular_pushSlots _ _ rest s)
        hstep (ih hproject h)
    | none =>
      rw [creating_cons_of_none hknown] at h
      obtain ⟨hallow, hfits⟩ : ∃ h : slot.faults.Allow db (slot.note projectId now) slot.embedding,
          AllFit (db.addEntry (slot.note projectId now) slot.embedding h.accepts) projectId _ :=
        (allFit_cons_iff hproject fun c hc => externalId_ne_of_mem_creating hc).mp h
      have hstep : (pushSlot projectId now slot s).effect db = some
          (db.addEntry (slot.note projectId now) slot.embedding hallow.accepts,
          { existing := Function.update s.existing slot.item.externalId
              (some ⟨slot.syncId, slot.embedding.isSome⟩)
            results := s.results ++
              [⟨.created, slot.item.externalId, slot.syncId, slot.embedding.isSome⟩]
            created := s.created + 1
            skipped := s.skipped
            needsRepair := s.needsRepair || slot.embedding.isNone }) := by
        rw [pushSlot, hknown]
        exact (effect_bind_eq_some_iff (regular_addNoteWithSyncId _ _ _) fun _ =>
          regular_pure _).mpr ⟨_, _, effect_addNoteWithSyncId_eq_some_iff.mpr ⟨hallow, rfl⟩, rfl⟩
      -- the entry of the first slot leaves room for the others, as `AllFit` says
      refine effect_bind_isSome (regular_pushSlot _ _ _ _) (fun s => regular_pushSlots _ _ rest s)
        hstep (ih ?_ ?_)
      · rw [LinkedDb.addEntry_projects]
        exact hproject
      · rw [isSome_update]
        exact hfits

/-! ## A push that stops midway -/

/-- Rows are only added, and the projects are left alone. -/
structure Grows (db db' : LinkedDb Vec) : Prop where
  notes : ∃ added, db'.notes = db.notes ++ added
  projects : db'.projects = db.projects

theorem Grows.refl (db : LinkedDb Vec) : Grows db db := ⟨⟨[], (List.append_nil _).symm⟩, rfl⟩

theorem Grows.trans {db db' db'' : LinkedDb Vec} (h : Grows db db') (h' : Grows db' db'') :
    Grows db db'' := by
  obtain ⟨added, hnotes⟩ := h.notes
  obtain ⟨added', hnotes'⟩ := h'.notes
  exact ⟨⟨added ++ added', by rw [hnotes', hnotes, List.append_assoc]⟩,
    h'.projects.trans h.projects⟩

theorem grows_of_insertNote {note : NewNote} {rowid : Nat}
    (h : insertNote note db = some (db', rowid)) : Grows db db' := by
  unfold insertNote at h
  split at h
  · obtain ⟨rfl, -⟩ := Prod.mk.inj (Option.some.inj h)
    exact ⟨⟨[note.row db.nextRowid], rfl⟩, rfl⟩
  · exact absurd h.symm (Option.some_ne_none _)

theorem grows_of_insertVector {rowid : Nat} {v : Vec} {u : Unit}
    (h : insertVector rowid v db = some (db', u)) : Grows db db' := by
  unfold insertVector at h
  split at h
  · obtain ⟨rfl, -⟩ := Prod.mk.inj (Option.some.inj h)
    exact ⟨⟨[], (List.append_nil _).symm⟩, rfl⟩
  · exact absurd h.symm (Option.some_ne_none _)

theorem along_afterInsert (faults : InsertFaults) (note : NewNote) (embedding : Option Vec)
    (rowid : Nat) : Along Grows (do
      match embedding with
      | some vec => Sql.statement faults.vector (insertVector rowid vec)
      | none => pure ()
      pure (rowid, note.syncId) : Sql (LinkedDb Vec) (Nat × String)) := by
  cases embedding with
  | none =>
    exact (along_pure Grows.refl _).bind Grows.refl (fun _ _ _ => Grows.trans) fun _ =>
      along_pure Grows.refl _
  | some vec =>
    exact (along_statement Grows.refl _ fun _ _ _ => grows_of_insertVector).bind Grows.refl
      (fun _ _ _ => Grows.trans) fun _ => along_pure Grows.refl _

theorem along_addNoteWithSyncId (faults : InsertFaults) (note : NewNote) (embedding : Option Vec) :
    Along Grows (addNoteWithSyncId faults note embedding) :=
  (along_statement Grows.refl _ fun _ _ _ => grows_of_insertNote).bind Grows.refl
    (fun _ _ _ => Grows.trans) fun rowid => along_afterInsert faults note embedding rowid

theorem along_pushSlot (projectId : Nat) (now : Int) (slot : Slot Vec) (s : Progress) :
    Along Grows (pushSlot projectId now slot s) := by
  unfold pushSlot
  split
  · exact along_pure Grows.refl _
  · exact (along_addNoteWithSyncId _ _ _).bind Grows.refl (fun _ _ _ => Grows.trans) fun _ =>
      along_pure Grows.refl _

theorem along_pushSlots (projectId : Nat) (now : Int) (slots : List (Slot Vec)) (s : Progress) :
    Along Grows (pushSlots projectId now slots s) := by
  induction slots generalizing s with
  | nil => exact along_pure Grows.refl _
  | cons slot rest ih =>
    exact (along_pushSlot _ _ _ _).bind Grows.refl (fun _ _ _ => Grows.trans) fun s => ih s

/-- The row of an entry is inserted, whatever becomes of its vector. -/
structure RowLands (db : LinkedDb Vec) (projectId : Nat) (c : Slot Vec) : Prop where
  works : c.faults.insert = .done
  unused : c.syncId ∉ db.notes.map NoteRow.syncId
  unclaimed : (projectId, c.item.externalId) ∉ db.notes.filterMap NoteRow.pushKey

theorem rowLands_iff (hproject : projectId ∈ db.projects.map Project.id) :
    RowLands db projectId slot ↔
      slot.faults.insert = .done ∧ ∃ r, insertNote (slot.note projectId now) db = some r := by
  constructor
  · rintro ⟨hworks, hunused, hunclaimed⟩
    exact ⟨hworks, _, dif_pos ((accepts_note_iff hproject).mpr ⟨hunused, hunclaimed⟩)⟩
  · rintro ⟨hworks, r, hr⟩
    by_cases haccepts : db.Accepts (slot.note projectId now)
    · obtain ⟨hunused, hunclaimed⟩ := (accepts_note_iff hproject).mp haccepts
      exact ⟨hworks, hunused, hunclaimed⟩
    · rw [insertNote, dif_neg haccepts] at hr
      exact absurd hr.symm (Option.some_ne_none r)

/-- The first row that has to be inserted decides whether any row is stored. -/
theorem pushSlots_first {s : Progress} {c : Slot Vec} {others : List (Slot Vec)}
    (hproject : projectId ∈ db.projects.map Project.id)
    (hcreating : creating (fun e => (s.existing e).isSome) slots = c :: others) :
    (RowLands db projectId c → ∃ added, added ≠ [] ∧
      (pushSlots projectId now slots s (Connection.idle db)).1.db.notes = db.notes ++ added) ∧
    (¬ RowLands db projectId c →
      (pushSlots projectId now slots s (Connection.idle db)).1.db.notes = db.notes) := by
  induction slots generalizing s with
  | nil => exact absurd hcreating (List.cons_ne_nil _ _).symm
  | cons slot rest ih =>
    cases hknown : s.existing slot.item.externalId with
    | some found =>
      have hskip : pushSlot projectId now slot s (Connection.idle db) = (Connection.idle db,
          some { s with
            results := s.results ++
              [⟨.skipped, slot.item.externalId, found.syncId, found.hasEmbedding⟩]
            skipped := s.skipped + 1
            needsRepair := s.needsRepair || !found.hasEmbedding }) := by
        rw [pushSlot, hknown]
        rfl
      rw [creating_cons_of_some hknown] at hcreating
      rw [pushSlots, Sql.bind_of_some hskip]
      exact ih hcreating
    | none =>
      rw [creating_cons_of_none hknown] at hcreating
      obtain ⟨rfl, -⟩ := List.cons.inj hcreating
      constructor
      · intro hlands
        obtain ⟨hdone, r, hr⟩ : _ ∧ ∃ r, insertNote (slot.note projectId now) db = some r :=
          (rowLands_iff hproject).mp hlands
        -- the row is committed, and nothing after it takes it back
        have hrow : ∃ db₁, r.1 = db₁ ∧ db₁.notes = db.notes ++ [(slot.note projectId now).row db.nextRowid] := by
          refine ⟨r.1, rfl, ?_⟩
          unfold insertNote at hr
          split at hr
          · obtain rfl := Option.some.inj hr
            rfl
          · exact absurd hr.symm (Option.some_ne_none r)
        obtain ⟨db₁, hdb₁, hnotes⟩ := hrow
        have hinsert : (Sql.statement slot.faults.insert (insertNote (slot.note projectId now))
            (Connection.idle db)).1 = Connection.idle db₁ := by
          rw [hdone, statement_of_some hr, hdb₁]
        obtain ⟨db₂, hadd, hgrows⟩ := exists_of_bind Grows.refl
          (fun rowid => along_afterInsert slot.faults (slot.note projectId now) slot.embedding rowid)
          hinsert
        have hslot : ∃ db₃, (pushSlot projectId now slot s (Connection.idle db)).1 =
            Connection.idle db₃ ∧ Grows db₂ db₃ := by
          rw [pushSlot, hknown]
          exact exists_of_bind Grows.refl (fun _ => along_pure Grows.refl _) hadd
        obtain ⟨db₃, hslot, hgrows'⟩ := hslot
        obtain ⟨db₄, hrest, hgrows''⟩ := exists_of_bind Grows.refl
          (fun s => along_pushSlots projectId now rest s) hslot
        obtain ⟨added, hadded⟩ := ((hgrows.trans hgrows').trans hgrows'').notes
        refine ⟨(slot.note projectId now).row db.nextRowid :: added, List.cons_ne_nil _ _, ?_⟩
        have hlast : (pushSlots projectId now (slot :: rest) s (Connection.idle db)).1.db = db₄ :=
          congrArg Connection.db hrest
        rw [hlast, hadded, hnotes, List.append_assoc]
        rfl
      · intro hlands
        have hrefused : Sql.statement slot.faults.insert (insertNote (slot.note projectId now))
            (Connection.idle db) = (Connection.idle db, none) :=
          statement_of_refused fun h => hlands ((rowLands_iff hproject).mpr h)
        have hadd : addNoteWithSyncId slot.faults (slot.note projectId now) slot.embedding
            (Connection.idle db) = (Connection.idle db, none) := Sql.bind_of_none hrefused
        have hslot : pushSlot projectId now slot s (Connection.idle db) =
            (Connection.idle db, none) := by
          rw [pushSlot, hknown]
          exact Sql.bind_of_none hadd
        rw [pushSlots, Sql.bind_of_none hslot]
        rfl

/-! ## One push from a state of the server -/

variable {push : Push Vec}
variable {db₁ : LinkedDb Vec} {cfg : Config}

/-- The lookup the loop starts from. -/
def Push.existing (push : Push Vec) (db : LinkedDb Vec) : String → Option ExistingNote :=
  findByRemoteIds db (db.projectIdOf push.slug) (push.entries.map BatchNoteItem.externalId)

/-- The entries that need a row in this state. -/
def Push.needed (push : Push Vec) (db : LinkedDb Vec) : List (Slot Vec) :=
  creating (fun e => (push.existing db e).isSome) push.slots

/-- The project registers and the live rows can be read. -/
def Reaches (cfg : Config) (push : Push Vec) (db : LinkedDb Vec) : Prop :=
  Registers push.faults.registering db push.slug cfg.embeddingDim cfg.embeddingModel ∧
    push.faults.lookup = .done

theorem slotsFrom_item (minted : Nat → String) (faults : Nat → InsertFaults) (i : Nat)
    (entries : List (BatchNoteItem Vec)) (server : List (Option Vec)) :
    (slotsFrom minted faults i entries server).map Slot.item = entries := by
  induction entries generalizing i server with
  | nil => rfl
  | cons entry rest ih => rw [slotsFrom, List.map_cons, ih]

theorem Push.slots_item (push : Push Vec) : push.slots.map Slot.item = push.entries :=
  slotsFrom_item _ _ _ _ _

theorem findByRemoteIds_congr (h : SameRows db db₁) (projectId : Nat)
    (ids : List String) : findByRemoteIds db₁ projectId ids = findByRemoteIds db projectId ids := by
  funext e
  simp only [findByRemoteIds, h.notes, h.embeddings]

theorem AllFit.congr (h : SameRows db db₁) :
    AllFit db₁ projectId slots ↔ AllFit db projectId slots := by
  constructor
  · rintro ⟨hworks, hunused, hdistinct, hunclaimed⟩
    rw [h.notes] at hunused hunclaimed
    exact ⟨hworks, hunused, hdistinct, hunclaimed⟩
  · rintro ⟨hworks, hunused, hdistinct, hunclaimed⟩
    rw [← h.notes] at hunused hunclaimed
    exact ⟨hworks, hunused, hdistinct, hunclaimed⟩

theorem RowLands.congr (h : SameRows db db₁) :
    RowLands db₁ projectId c ↔ RowLands db projectId c := by
  constructor
  · rintro ⟨hworks, hunused, hunclaimed⟩
    rw [h.notes] at hunused hunclaimed
    exact ⟨hworks, hunused, hunclaimed⟩
  · rintro ⟨hworks, hunused, hunclaimed⟩
    rw [← h.notes] at hunused hunclaimed
    exact ⟨hworks, hunused, hunclaimed⟩

/-- What the loop of a push starts with. -/
def Push.start (push : Push Vec) (db : LinkedDb Vec) : Progress :=
  ⟨push.existing db, [], 0, 0, false⟩

/-- A push that reaches its loop is the loop, on tables with the same rows. -/
theorem run_of_reaches (h : Reaches cfg push db) :
    ∃ db₁, SameRows db db₁ ∧ db₁.OnRecord push.slug (db.projectIdOf push.slug) ∧
      pushMemoryBatch cfg push (Connection.idle db) =
        (pushSlots (db.projectIdOf push.slug) push.now push.slots (push.start db) >>= fun s =>
          pure (⟨s.created, s.skipped, 0, s.results⟩, s.needsRepair)) (Connection.idle db₁) := by
  obtain ⟨⟨db₁, project⟩, hregister⟩ := upsertProject_isSome h.1
  obtain ⟨-, hid, hrec⟩ := upsertProject_eq_some hregister
  have hrun := run_idle_of_effect (regular_upsertProject _ _ _ _) hregister
  obtain ⟨db₁', hleft, hsame⟩ := along_upsertProject push.faults.registering push.slug
    cfg.embeddingDim cfg.embeddingModel db
  obtain rfl : db₁ = db₁' := by
    rw [hrun] at hleft
    exact congrArg Connection.db hleft
  refine ⟨db₁, hsame, hid ▸ hrec, ?_⟩
  rw [pushMemoryBatch, Sql.bind_of_some hrun, h.2, hid,
    Sql.bind_of_some (statement_of_some (Write.read_apply _ _)), findByRemoteIds_congr hsame]
  rfl

/-- A push that does not reach its loop is refused with the rows untouched. -/
theorem run_of_not_reaches (h : ¬ Reaches cfg push db) :
    (pushMemoryBatch cfg push (Connection.idle db)).2 = none ∧
      (pushMemoryBatch cfg push (Connection.idle db)).1.db.notes = db.notes := by
  obtain ⟨db₁, hleft, hsame⟩ := along_upsertProject push.faults.registering push.slug
    cfg.embeddingDim cfg.embeddingModel db
  cases hregister : (upsertProject push.faults.registering push.slug cfg.embeddingDim
      cfg.embeddingModel).effect db with
  | none =>
    have hnone := run_idle_of_effect_none (regular_upsertProject _ _ _ _) hregister
    have hrun : upsertProject push.faults.registering push.slug cfg.embeddingDim
        cfg.embeddingModel (Connection.idle db) = (Connection.idle db₁, none) :=
      Prod.ext hleft hnone
    rw [pushMemoryBatch, Sql.bind_of_none hrun]
    exact ⟨rfl, hsame.notes⟩
  | some r =>
    have hrun := run_idle_of_effect (regular_upsertProject _ _ _ _) hregister
    have hlookup : push.faults.lookup ≠ .done := fun hdone =>
      h ⟨(upsertProject_eq_some hregister).1, hdone⟩
    rw [hrun] at hleft
    obtain rfl : r.1 = db₁ := congrArg Connection.db hleft
    rw [pushMemoryBatch, Sql.bind_of_some hrun,
      Sql.bind_of_none (statement_of_refused fun hdone => hlookup hdone.1)]
    exact ⟨rfl, hsame.notes⟩

/-- An answered push: what it depended on, and what it stored and answered. -/
structure Answered (cfg : Config) (push : Push Vec) (db db' : LinkedDb Vec)
    (response : BatchPushResponse) : Prop where
  reaches : Reaches cfg push db
  fits : AllFit db (db.projectIdOf push.slug) (push.needed db)
  onRecord : db'.OnRecord push.slug (db.projectIdOf push.slug)
  notes : db'.notes = db.notes ++
    addedRows (db.projectIdOf push.slug) push.now db.nextRowid (push.needed db)
  results : response.results = resultsOf (push.existing db) push.slots
  created : response.created =
    (resultsOf (push.existing db) push.slots).countP fun r => r.status = .created
  skipped : response.skipped =
    (resultsOf (push.existing db) push.slots).countP fun r => r.status = .skipped
  failed : response.failed = 0

theorem answered_of_run {conn : Connection (LinkedDb Vec)} {r : BatchPushResponse × Bool}
    (h : pushMemoryBatch cfg push (Connection.idle db) = (conn, some r)) :
    Answered cfg push db conn.db r.1 := by
  by_cases hreaches : Reaches cfg push db
  · obtain ⟨db₁, hsame, hrec, hrun⟩ := run_of_reaches hreaches
    have hregular : Regular (pushSlots (db.projectIdOf push.slug) push.now push.slots
        (push.start db) >>= fun s => pure (⟨s.created, s.skipped, 0, s.results⟩, s.needsRepair) :
        Sql (LinkedDb Vec) (BatchPushResponse × Bool)) :=
      (regular_pushSlots _ _ _ _).bind fun _ => regular_pure _
    rw [hrun] at h
    -- on an idle connection a run answers exactly when the loop has an effect
    cases heffect : (pushSlots (db.projectIdOf push.slug) push.now push.slots
        (push.start db) >>= fun s => pure (⟨s.created, s.skipped, 0, s.results⟩, s.needsRepair) :
        Sql (LinkedDb Vec) (BatchPushResponse × Bool)).effect db₁ with
    | none =>
      have hnone := run_idle_of_effect_none hregular heffect
      rw [h] at hnone
      exact absurd hnone (Option.some_ne_none r)
    | some r' =>
      have hsome := run_idle_of_effect hregular heffect
      obtain ⟨hconn, hr⟩ := Prod.mk.inj (h.symm.trans hsome)
      obtain ⟨db', s', hloop, hpure⟩ := (effect_bind_eq_some_iff (regular_pushSlots _ _ _ _)
        fun _ => regular_pure _).mp heffect
      obtain rfl := Option.some.inj hpure
      obtain rfl := Option.some.inj hr
      obtain ⟨hfits, hnotes, hresults, hcreated, hskipped⟩ := pushSlots_eq_some hrec.mem_ids hloop
      have hdb : conn.db = db' := by rw [hconn]; rfl
      -- the loop only adds, so the project it recorded is still there
      have hgrows : Grows db₁ db' := by
        obtain ⟨db'', hleft, hgrows⟩ := along_pushSlots (db.projectIdOf push.slug) push.now
          push.slots (push.start db) db₁
        have hloopRun := run_idle_of_effect (regular_pushSlots _ _ _ _) hloop
        rw [hloopRun] at hleft
        obtain rfl : db' = db'' := congrArg Connection.db hleft
        exact hgrows
      refine ⟨hreaches, (AllFit.congr hsame).mp hfits, ?_, ?_, ?_, ?_, ?_, rfl⟩
      · obtain ⟨p, hp, hid⟩ := hrec
        refine ⟨p, ?_, hid⟩
        rw [hdb, ServerDb.project?, hgrows.projects]
        exact hp
      · rw [hdb, hnotes, hsame.notes, hsame.nextRowid]
        rfl
      · exact hresults
      · rw [hcreated]
        exact Nat.zero_add _
      · rw [hskipped]
        exact Nat.zero_add _
  · have hnone := (run_of_not_reaches hreaches).1
    rw [h] at hnone
    exact absurd hnone (Option.some_ne_none r)

theorem run_isSome (hreaches : Reaches cfg push db)
    (hfits : AllFit db (db.projectIdOf push.slug) (push.needed db)) :
    ∃ conn r, pushMemoryBatch cfg push (Connection.idle db) = (conn, some r) := by
  obtain ⟨db₁, hsame, hrec, hrun⟩ := run_of_reaches hreaches
  obtain ⟨r, hr⟩ : ∃ r, (pushSlots (db.projectIdOf push.slug) push.now push.slots
      (push.start db)).effect db₁ = some r :=
    pushSlots_isSome hrec.mem_ids ((AllFit.congr hsame).mpr hfits)
  rw [hrun, Sql.bind_of_some (run_idle_of_effect (regular_pushSlots _ _ _ _) hr)]
  exact ⟨_, _, rfl⟩

end Batch
end Server
end Inkentry
