/-
  Inkentry.Server.Repush

  Pushing a batch again.  An entry whose row is live is skipped under that row's
  id, whatever became of the rest of the batch.  The unique indexes also count
  archived rows, though, so an entry whose row was archived is inserted and
  refused, and by then the entries before it are stored.  `batchHolds_iff` says
  when neither happens.
-/

import Inkentry.Server.BatchRun

namespace Inkentry
namespace Server
namespace Batch

open Transaction

variable {Vec : Type*} {db db' : LinkedDb Vec} {projectId : Nat} {now : Int} {slot : Slot Vec}
  {rest slots : List (Slot Vec)}

/-! ## The rows behind the results -/

variable {push : Push Vec}
variable {entry : BatchNoteItem Vec} {response : BatchPushResponse} {externalId : String}
  {cfg : Config} {result : BatchItemResult}
variable {n : NoteRow} {i : Nat} {c : Slot Vec}

theorem mem_addedRows (projectId : Nat) (now : Int) (h : c ∈ slots) (rowid : Nat) :
    ∃ r, (c.note projectId now).row r ∈ addedRows projectId now rowid slots := by
  induction slots generalizing rowid with
  | nil => exact absurd h List.not_mem_nil
  | cons slot rest ih =>
    rcases List.mem_cons.mp h with rfl | hrest
    · exact ⟨rowid, List.mem_cons_self⟩
    · obtain ⟨r, hr⟩ := ih hrest (rowid + 1)
      exact ⟨r, List.mem_cons_of_mem _ hr⟩

theorem liveWith_iff : liveWith projectId externalId n = true ↔
    n.projectId = projectId ∧ n.status = "active" ∧ n.remoteId = some externalId := by
  simp [liveWith, and_assoc]

theorem eq_of_pushKey {n m : NoteRow} (hn : n ∈ db.notes) (hm : m ∈ db.notes)
    (hnkey : n.pushKey = some (projectId, externalId))
    (hmkey : m.pushKey = some (projectId, externalId)) : n = m := by
  have hpair := List.pairwise_filterMap.mp db.remoteUnique
  by_contra hne
  obtain ⟨i, hi, rfl⟩ := List.mem_iff_getElem.mp hn
  obtain ⟨j, hj, rfl⟩ := List.mem_iff_getElem.mp hm
  rcases Nat.lt_trichotomy i j with hlt | heq | hgt
  · exact List.pairwise_iff_getElem.mp hpair i j hi hj hlt _ hnkey _ hmkey rfl
  · exact hne (by rw [getElem_congr_idx heq])
  · exact List.pairwise_iff_getElem.mp hpair j i hj hi hgt _ hmkey _ hnkey rfl

theorem pushKey_of_liveWith
    (h : liveWith projectId externalId n = true) : n.pushKey = some (projectId, externalId) := by
  obtain ⟨hproject, -, hremote⟩ := liveWith_iff.mp h
  rw [NoteRow.pushKey, hremote, Option.map_some, hproject]

theorem Push.existing_eq_some (hentry : entry ∈ push.entries) (hn : n ∈ db.notes)
    (hlive : liveWith (db.projectIdOf push.slug) entry.externalId n = true) :
    ∃ found, push.existing db entry.externalId = some found ∧ found.syncId = n.syncId := by
  have hmem : entry.externalId ∈ push.entries.map BatchNoteItem.externalId :=
    List.mem_map_of_mem hentry
  have hsome : (db.notes.find? (liveWith (db.projectIdOf push.slug) entry.externalId)).isSome :=
    List.find?_isSome.mpr ⟨n, hn, hlive⟩
  obtain ⟨m, hm⟩ := Option.isSome_iff_exists.mp hsome
  have hmn : m = n := eq_of_pushKey (List.mem_of_find?_eq_some hm) hn
    (pushKey_of_liveWith (List.find?_some hm)) (pushKey_of_liveWith hlive)
  refine ⟨⟨m.syncId, db.embeddings.any fun e => e.1 = m.rowid⟩, ?_, by rw [hmn]⟩
  rw [Push.existing, findByRemoteIds, if_pos hmem, hm]
  rfl

theorem Push.existing_live {found : ExistingNote} (h : push.existing db externalId = some found) :
    ∃ n ∈ db.notes, liveWith (db.projectIdOf push.slug) externalId n = true ∧
      n.syncId = found.syncId := by
  unfold Push.existing findByRemoteIds at h
  split at h
  · obtain ⟨n, hn, rfl⟩ := Option.map_eq_some_iff.mp h
    exact ⟨n, List.mem_of_find?_eq_some hn, List.find?_some hn, rfl⟩
  · exact absurd h.symm (Option.some_ne_none _)

theorem Push.existing_eq_none
    (h : ∀ n ∈ db.notes, ¬ liveWith (db.projectIdOf push.slug) externalId n = true) :
    push.existing db externalId = none := by
  cases hfound : push.existing db externalId with
  | none => rfl
  | some found =>
    obtain ⟨n, hn, hlive, -⟩ := Push.existing_live hfound
    exact absurd hlive (h n hn)

theorem Push.slots_getElem?
    (h : push.entries[i]? = some entry)
    : ∃ slot, push.slots[i]? = some slot ∧ slot.item = entry := by
  rw [← push.slots_item, List.getElem?_map, Option.map_eq_some_iff] at h
  exact h

theorem Push.entries_getElem? {j : Nat}
    (h : push.slots[j]? = some c) : push.entries[j]? = some c.item := by
  rw [← push.slots_item, List.getElem?_map, h]
  rfl

/-- The id in a result is the id of a row with the entry's external id. -/
theorem Answered.row_of_result (h : Answered cfg push db db' response)
    (hentry : push.entries[i]? = some entry) (hresult : response.results[i]? = some result) :
    ∃ n ∈ db'.notes, n.syncId = result.id ∧
      liveWith (db.projectIdOf push.slug) entry.externalId n = true := by
  obtain ⟨slot, hslot, rfl⟩ := push.slots_getElem? hentry
  rw [h.results] at hresult
  rcases resultsOf_id hslot hresult with ⟨found, hfound, hid⟩ | ⟨c, hc, hext, hid⟩
  · obtain ⟨n, hn, hlive, hsync⟩ := Push.existing_live hfound
    refine ⟨n, ?_, hsync.trans hid.symm, hlive⟩
    rw [h.notes]
    exact List.mem_append_left _ hn
  · obtain ⟨r, hr⟩ := mem_addedRows (db.projectIdOf push.slug) push.now hc db.nextRowid
    refine ⟨(c.note (db.projectIdOf push.slug) push.now).row r, ?_, hid.symm, ?_⟩
    · rw [h.notes]
      exact List.mem_append_right _ hr
    · exact liveWith_iff.mpr ⟨rfl, rfl, congrArg some hext⟩

/-! ## What is claimed of a push -/

/-- `db'` is a later state of the server: the project keeps its id, and a rowid that is still
    there is the same entry. -/
structure Later (slug : String) (db db' : LinkedDb Vec) : Prop where
  project : ∀ id, db.OnRecord slug id → db'.OnRecord slug id
  rows : ∀ n ∈ db.notes, ∀ m ∈ db'.notes, m.rowid = n.rowid →
    m.syncId = n.syncId ∧ m.projectId = n.projectId ∧ m.remoteId = n.remoteId

/-- Nothing but the rows already pushed can stand in the way: the project registers, the
    statements work, and the ids are free. -/
structure Unhindered (cfg : Config) (push : Push Vec) (db : LinkedDb Vec) : Prop where
  reaches : Reaches cfg push db
  works : ∀ c ∈ push.needed db, c.faults.insert = .done ∧ (c.embedding.isSome → c.faults.vector = .done)
  unused : ∀ c ∈ push.needed db, c.syncId ∉ db.notes.map NoteRow.syncId
  distinct : ((push.needed db).map Slot.syncId).Nodup

/-- The push of a validated batch on a state of the server. -/
structure BatchHolds (cfg : Config) (push : Push Vec) (db : LinkedDb Vec) : Prop where
  /-- It answers, also where a row of the batch was archived. -/
  answers : Unhindered cfg push db →
    (pushMemoryBatch cfg push (Connection.idle db)).2.isSome
  /-- One result per entry, in order, and counts that add up. -/
  ordered : ∀ conn r, pushMemoryBatch cfg push (Connection.idle db) = (conn, some r) →
    r.1.results.map BatchItemResult.externalId = push.entries.map BatchNoteItem.externalId ∧
      r.1.created + r.1.skipped + r.1.failed = push.entries.length
  /-- An entry with a live row is skipped under that row's id. -/
  skips : ∀ conn r, pushMemoryBatch cfg push (Connection.idle db) = (conn, some r) →
    ∀ (i : Nat) (entry : BatchNoteItem Vec) (result : BatchItemResult), push.entries[i]? = some entry → r.1.results[i]? = some result →
    ∀ n ∈ db.notes, liveWith (db.projectIdOf push.slug) entry.externalId n = true →
      result.status = .skipped ∧ result.id = n.syncId
  /-- So a re-push hands out the ids of the first push for every row that is still active. -/
  resends : ∀ (cfg₀ : Config) (push₀ : Push Vec) (db₀ : LinkedDb Vec) conn₀ r₀,
    push₀.slug = push.slug → push₀.entries = push.entries →
    pushMemoryBatch cfg₀ push₀ (Connection.idle db₀) = (conn₀, some r₀) →
    Later push.slug conn₀.db db →
    ∀ conn r, pushMemoryBatch cfg push (Connection.idle db) = (conn, some r) →
    ∀ (i : Nat) (first second : BatchItemResult), r₀.1.results[i]? = some first → r.1.results[i]? = some second →
    ∀ m ∈ conn₀.db.notes, m.syncId = first.id →
    ∀ n ∈ db.notes, n.rowid = m.rowid → n.status = "active" →
      second.status = .skipped ∧ second.id = first.id
  /-- The first entry of each external id with no live row gets a fresh row. -/
  creates : ∀ conn r, pushMemoryBatch cfg push (Connection.idle db) = (conn, some r) →
    ∀ (i : Nat) (entry : BatchNoteItem Vec) (result : BatchItemResult), push.entries[i]? = some entry → r.1.results[i]? = some result →
    (∀ n ∈ db.notes, ¬ liveWith (db.projectIdOf push.slug) entry.externalId n = true) →
    (∀ j < i, ∀ e, push.entries[j]? = some e → e.externalId ≠ entry.externalId) →
      result.status = .created ∧ ∃ n ∈ conn.db.notes, n.syncId = result.id ∧
        n.syncId ∉ db.notes.map NoteRow.syncId ∧
        liveWith (db.projectIdOf push.slug) entry.externalId n = true
  /-- An error leaves no row of the batch. -/
  clean : (pushMemoryBatch cfg push (Connection.idle db)).2 = none →
    (pushMemoryBatch cfg push (Connection.idle db)).1.db.notes = db.notes

/-- The two ways out: an entry whose archived row holds its external id, in a push that
    nothing else stands in the way of, and a first insert that works before one that does not. -/
structure Admits (cfg : Config) (push : Push Vec) (db : LinkedDb Vec) : Prop where
  unclaimed : Unhindered cfg push db → ∀ c ∈ push.needed db,
    (db.projectIdOf push.slug, c.item.externalId) ∉ db.notes.filterMap NoteRow.pushKey
  whole : Reaches cfg push db → ∀ c others, push.needed db = c :: others →
    RowLands db (db.projectIdOf push.slug) c →
    AllFit db (db.projectIdOf push.slug) (push.needed db)

theorem Answered.ordered (h : Answered cfg push db db' response) :
    response.results.map BatchItemResult.externalId = push.entries.map BatchNoteItem.externalId ∧
      response.created + response.skipped + response.failed = push.entries.length := by
  have hexternal : response.results.map BatchItemResult.externalId =
      push.entries.map BatchNoteItem.externalId := by
    rw [h.results, resultsOf_externalId, ← push.slots_item, List.map_map]
    rfl
  refine ⟨hexternal, ?_⟩
  have hlength : response.results.length = push.entries.length := by
    rw [← List.length_map, hexternal, List.length_map]
  have hsplit := List.length_eq_countP_add_countP
    (fun r : BatchItemResult => decide (r.status = .created)) (l := response.results)
  have hneg : response.results.countP (fun r => decide (r.status = .skipped)) =
      response.results.countP fun r => decide ¬ decide (r.status = .created) = true := by
    refine List.countP_congr fun r _ => ?_
    cases r.status <;> simp
  rw [h.created, h.skipped, h.failed, ← h.results, hneg, ← hlength]
  exact hsplit.symm

theorem Answered.skips (h : Answered cfg push db db' response)
    (hentry : push.entries[i]? = some entry) (hresult : response.results[i]? = some result)
    (hn : n ∈ db.notes) (hlive : liveWith (db.projectIdOf push.slug) entry.externalId n = true) :
    result.status = .skipped ∧ result.id = n.syncId := by
  obtain ⟨found, hfound, hsync⟩ :=
    Push.existing_eq_some (List.mem_of_getElem? hentry) hn hlive
  obtain ⟨slot, hslot, rfl⟩ := push.slots_getElem? hentry
  rw [h.results] at hresult
  rw [resultsOf_of_existing hslot hresult hfound]
  exact ⟨rfl, hsync⟩

theorem Answered.resends {cfg cfg₀ : Config} {push push₀ : Push Vec} {db₀ db₁ : LinkedDb Vec}
    {response response₀ : BatchPushResponse} (h : Answered cfg push db db' response)
    (h₀ : Answered cfg₀ push₀ db₀ db₁ response₀) (hslug : push₀.slug = push.slug)
    (hentries : push₀.entries = push.entries) (hlater : Later push.slug db₁ db)
    {first second : BatchItemResult} (hfirst : response₀.results[i]? = some first)
    (hsecond : response.results[i]? = some second) {m n : NoteRow} (hm : m ∈ db₁.notes)
    (hid : m.syncId = first.id) (hn : n ∈ db.notes) (hrow : n.rowid = m.rowid)
    (hactive : n.status = "active") : second.status = .skipped ∧ second.id = first.id := by
  have hlt : i < push₀.entries.length := by
    have hi : i < response₀.results.length := (List.getElem?_eq_some_iff.mp hfirst).1
    have hlen := congrArg List.length h₀.ordered.1
    rw [List.length_map, List.length_map] at hlen
    omega
  obtain ⟨entry, hentry⟩ : ∃ entry, push₀.entries[i]? = some entry :=
    ⟨_, List.getElem?_eq_getElem hlt⟩
  -- the row the first push answered with carries the entry's external id
  obtain ⟨m', hm', hsync, hlive⟩ := h₀.row_of_result hentry hfirst
  obtain rfl : m' = m := List.inj_on_of_nodup_map db₁.syncUnique hm' hm (hsync.trans hid.symm)
  obtain ⟨hproject, -, hremote⟩ := liveWith_iff.mp hlive
  obtain ⟨hnsync, hnproject, hnremote⟩ := hlater.rows m' hm n hn hrow
  have hsame : db.projectIdOf push.slug = db₀.projectIdOf push₀.slug :=
    (hlater.project _ (hslug ▸ h₀.onRecord)).projectIdOf
  have hnlive : liveWith (db.projectIdOf push.slug) entry.externalId n = true :=
    liveWith_iff.mpr ⟨by rw [hnproject, hproject, hsame], hactive, hnremote.trans hremote⟩
  obtain ⟨hskipped, hsecondId⟩ := h.skips (hentries ▸ hentry) hsecond hn hnlive
  exact ⟨hskipped, hsecondId.trans (hnsync.trans hid)⟩

theorem Answered.creates (h : Answered cfg push db db' response)
    (hentry : push.entries[i]? = some entry) (hresult : response.results[i]? = some result)
    (hnone : ∀ n ∈ db.notes, ¬ liveWith (db.projectIdOf push.slug) entry.externalId n = true)
    (hfirst : ∀ j < i, ∀ e, push.entries[j]? = some e → e.externalId ≠ entry.externalId) :
    result.status = .created ∧ ∃ n ∈ db'.notes, n.syncId = result.id ∧
      n.syncId ∉ db.notes.map NoteRow.syncId ∧
      liveWith (db.projectIdOf push.slug) entry.externalId n = true := by
  have hexisting := Push.existing_eq_none hnone
  obtain ⟨slot, hslot, rfl⟩ := push.slots_getElem? hentry
  have hslots : ∀ j < i, ∀ c, push.slots[j]? = some c → c.item.externalId ≠ slot.item.externalId :=
    fun j hj c hc => hfirst j hj c.item (push.entries_getElem? hc)
  have hneeded : slot ∈ push.needed db :=
    mem_creating_of_first hslot (by rw [hexisting]; rfl) hslots
  rw [h.results] at hresult
  obtain rfl := resultsOf_of_first hslot hresult hexisting hslots
  obtain ⟨r, hr⟩ := mem_addedRows (db.projectIdOf push.slug) push.now hneeded db.nextRowid
  refine ⟨rfl, (slot.note (db.projectIdOf push.slug) push.now).row r, ?_, rfl, ?_, ?_⟩
  · rw [h.notes]
    exact List.mem_append_right _ hr
  · exact h.fits.unused slot hneeded
  · exact liveWith_iff.mpr ⟨rfl, rfl, rfl⟩

/-! ## When it holds -/

/-- A run with no answer that reached its loop had an insert it could not make. -/
theorem not_allFit_of_run (hreaches : Reaches cfg push db)
    (hnone : (pushMemoryBatch cfg push (Connection.idle db)).2 = none) :
    ¬ AllFit db (db.projectIdOf push.slug) (push.needed db) := by
  intro hfits
  obtain ⟨conn, r, hrun⟩ := run_isSome hreaches hfits
  rw [hrun] at hnone
  exact absurd hnone (Option.some_ne_none r)

/-- The rows a run leaves that reached its loop, by whether its first row lands. -/
theorem notes_of_first (hreaches : Reaches cfg push db) {others : List (Slot Vec)}
    (hneeded : push.needed db = c :: others) :
    (RowLands db (db.projectIdOf push.slug) c → ∃ added, added ≠ [] ∧
      (pushMemoryBatch cfg push (Connection.idle db)).1.db.notes = db.notes ++ added) ∧
    (¬ RowLands db (db.projectIdOf push.slug) c →
      (pushMemoryBatch cfg push (Connection.idle db)).1.db.notes = db.notes) := by
  obtain ⟨db₁, hsame, hrec, hrun⟩ := run_of_reaches hreaches
  have hfirst := @pushSlots_first Vec db₁ (db.projectIdOf push.slug) push.now push.slots
    (push.start db) c others hrec.mem_ids hneeded
  rw [hrun, bind_pure_fst, ← hsame.notes]
  exact ⟨fun h => hfirst.1 ((RowLands.congr hsame).mpr h),
    fun h => hfirst.2 fun h' => h ((RowLands.congr hsame).mp h')⟩

theorem clean_of_admits (h : Admits cfg push db)
    (hnone : (pushMemoryBatch cfg push (Connection.idle db)).2 = none) :
    (pushMemoryBatch cfg push (Connection.idle db)).1.db.notes = db.notes := by
  by_cases hreaches : Reaches cfg push db
  · have hnot := not_allFit_of_run hreaches hnone
    cases hneeded : push.needed db with
    | nil =>
      rw [hneeded] at hnot
      exact absurd (allFit_nil db _) hnot
    | cons c others =>
      refine (notes_of_first hreaches hneeded).2 fun hlands => hnot ?_
      exact h.whole hreaches c others hneeded hlands
  · exact (run_of_not_reaches hreaches).2

/-- The push of a batch does what is claimed of it exactly when no archived row holds an
    external id it needs, in a push nothing else stands in the way of, and no insert fails
    behind one that worked. -/
theorem batchHolds_iff (cfg : Config) (push : Push Vec) (db : LinkedDb Vec) :
    BatchHolds cfg push db ↔ Admits cfg push db := by
  constructor
  · intro h
    constructor
    · intro hfree
      obtain ⟨r, hr⟩ := Option.isSome_iff_exists.mp (h.answers hfree)
      exact (answered_of_run (Prod.ext rfl hr)).fits.unclaimed
    · intro hreaches c others hneeded hlands
      by_contra hfits
      -- the first entry landed and the whole batch did not: the error left it there
      obtain ⟨added, hne, hnotes⟩ := (notes_of_first hreaches hneeded).1 hlands
      have hnone : (pushMemoryBatch cfg push (Connection.idle db)).2 = none := by
        cases hr : (pushMemoryBatch cfg push (Connection.idle db)).2 with
        | none => rfl
        | some r => exact absurd (answered_of_run (Prod.ext rfl hr)).fits hfits
      have hsame := h.clean hnone
      rw [hnotes] at hsame
      exact hne (List.append_right_eq_self.mp hsame)
  · intro h
    exact
      { answers := by
          intro hfree
          have hfits : AllFit db (db.projectIdOf push.slug) (push.needed db) :=
            ⟨hfree.works, hfree.unused, hfree.distinct, h.unclaimed hfree⟩
          obtain ⟨conn, r, hrun⟩ := run_isSome hfree.reaches hfits
          rw [hrun]
          rfl
        ordered := fun conn r hrun => (answered_of_run hrun).ordered
        skips := fun conn r hrun i entry result hentry hresult n hn hlive =>
          (answered_of_run hrun).skips hentry hresult hn hlive
        resends := fun cfg₀ push₀ db₀ conn₀ r₀ hslug hentries hrun₀ hlater conn r hrun i first
            second hfirst hsecond m hm hid n hn hrow hactive =>
          (answered_of_run hrun).resends (answered_of_run hrun₀) hslug hentries hlater hfirst
            hsecond hm hid hn hrow hactive
        creates := fun conn r hrun i entry result hentry hresult hnone hfirst =>
          (answered_of_run hrun).creates hentry hresult hnone hfirst
        clean := clean_of_admits h }

/-! ## An archived entry in the batch -/

/-- The entry `b`, archived. -/
def archivedNotes : List NoteRow :=
  [⟨1, 1, "s1", "decision", "B", "", [], [], 0, "archived", none, some "b"⟩]

theorem archivedNotes_rowidUnique : (archivedNotes.map NoteRow.rowid).Nodup :=
  List.nodup_singleton 1

theorem archivedNotes_syncUnique : (archivedNotes.map NoteRow.syncId).Nodup :=
  List.nodup_singleton "s1"

theorem archivedNotes_remoteUnique : (archivedNotes.filterMap NoteRow.pushKey).Nodup :=
  List.nodup_singleton (1, "b")

theorem archivedNotes_rowidsBelow : ∀ n ∈ archivedNotes, n.rowid < 2 := by
  simp [archivedNotes]

theorem archivedNotes_vectorRows :
    ∀ e ∈ (ServerDb.empty : ServerDb Int).embeddings, ∃ n ∈ archivedNotes, n.rowid = e.1 :=
  List.forall_mem_nil _

theorem archivedNotes_successorInProject : ∀ n ∈ archivedNotes, ∀ r ∈ n.supersededBy,
    ∃ m ∈ archivedNotes, m.rowid = r ∧ m.projectId = n.projectId := by
  simp [archivedNotes]

theorem archivedNotes_edgeRows : ∀ e ∈ (ServerDb.empty : ServerDb Int).edges,
    e.fromId ∈ archivedNotes.map NoteRow.rowid ∧ e.toId ∈ archivedNotes.map NoteRow.rowid :=
  List.forall_mem_nil _

/-- A server on which the entry pushed as `b` has been archived. -/
def archivedServer : LinkedDb Int where
  toServerDb := { (ServerDb.empty : ServerDb Int) with
    projects := [⟨1, "team", 4, some "m"⟩]
    notes := archivedNotes
    nextRowid := 2
    slugUnique := List.nodup_singleton "team"
    rowidUnique := archivedNotes_rowidUnique
    syncUnique := archivedNotes_syncUnique
    remoteUnique := archivedNotes_remoteUnique
    rowidsBelow := archivedNotes_rowidsBelow
    vectorRows := archivedNotes_vectorRows
    successorInProject := archivedNotes_successorInProject }
  edgeUnique := List.nodup_nil
  edgeRows := archivedNotes_edgeRows

/-- The same two entries are pushed again, `b` behind a new entry `a`. -/
def againWithNew : Push Int where
  slug := "team"
  entries := [⟨none, "decision", "A", none, "a", none, none⟩,
    ⟨none, "decision", "B", none, "b", none, none⟩]
  embedded := .notReady
  minted i := if i = 0 then "s2" else "s3"
  now := 0
  faults := ⟨⟨.done, .done, .done, .done⟩, .done, fun _ => ⟨.done, .done⟩⟩

/-- The insert of `b` is refused for its archived row: the push is answered with an error,
    and the row of `a` is stored. -/
theorem not_batchHolds_of_archived :
    ¬ BatchHolds ⟨4, "m"⟩ againWithNew archivedServer ∧
    (pushMemoryBatch ⟨4, "m"⟩ againWithNew (Connection.idle archivedServer)).2 = none ∧
    (pushMemoryBatch ⟨4, "m"⟩ againWithNew (Connection.idle archivedServer)).1.db.notes.map
      NoteRow.title = ["B", "A"] := by
  have hnone : (pushMemoryBatch ⟨4, "m"⟩ againWithNew (Connection.idle archivedServer)).2 = none := by
    decide
  have hnotes : (pushMemoryBatch ⟨4, "m"⟩ againWithNew
      (Connection.idle archivedServer)).1.db.notes.map NoteRow.title = ["B", "A"] := by decide
  refine ⟨fun h => ?_, hnone, hnotes⟩
  rw [h.clean hnone] at hnotes
  exact absurd hnotes (by decide)

end Batch
end Server
end Inkentry
