/-
  Inkentry.Carrier.Completeness

  What an import leaves behind.  The entities in the store afterwards are those
  that were there and those listed that it did not know by content
  (`mem_entities_importIntoMemory`), so an entity of the ref is lost when it is
  not among the newest that the listing returns.
-/

import Inkentry.Carrier.Import

namespace Inkentry
namespace Carrier

open OrderLimit GitNotes Memory

/-- The entities that have a row. -/
def entities (s : Store) : List String := s.rows.map Note.entityId

/-! ## What each step adds -/

variable {mint : Nat → NoteId}
variable {notes : List Note} {s s' : Store}

theorem mem_entities_insertOrRecover {env : StoreEnv} {n : Note} {tags linkedFiles : List String}
    {id : NoteId} {created : Bool}
    (h : s.insertOrRecover env n tags linkedFiles = some (id, created, s')) (e : String) :
    e ∈ entities s' ↔ e ∈ entities s ∨ e = n.entityId := by
  have hattach : ∀ (s₁ : Store) (id : NoteId),
      entities (s₁.attachTagsAndFiles env id tags linkedFiles) = entities s₁ := by
    intro s₁ id
    rw [entities, Store.attachTagsAndFiles, Store.edit_rows, List.map_map, entities]
    refine List.map_congr_left fun m _ => ?_
    by_cases hm : m.id = id <;> simp [hm]
  rcases Store.insertOrRecover_cases h with ⟨-, -, s₁, hins, rfl⟩ | ⟨-, row, hrow, hent, -, rfl⟩
  · rw [hattach, entities, (Store.insertRow_eq_some hins).1, List.map_append, List.mem_append]
    simp [entities]
  · rw [hattach]
    constructor
    · exact Or.inl
    · rintro (he | rfl)
      · exact he
      · exact hent ▸ List.mem_map_of_mem hrow

theorem mem_entities_addNoteWithCreatedAt {env : ImportEnv} {uuid : NoteId} {n : Note}
    (h : addNoteWithCreatedAt env s uuid n = some s') (e : String) :
    e ∈ entities s' ↔ e ∈ entities s ∨ e = noteEntityId env.sha n := by
  rw [addNoteWithCreatedAt] at h
  split at h
  case isTrue => exact absurd h (by simp)
  case isFalse =>
    obtain ⟨⟨id, created, s₁⟩, hins, hs⟩ := Option.map_eq_some_iff.mp h
    rw [← hs]
    exact mem_entities_insertOrRecover hins e

theorem mem_entities_importNotes {env : ImportEnv} {i : Nat}
    (h : importNotes env mint i s notes = some s') (e : String) :
    e ∈ entities s' ↔ e ∈ entities s ∨ ∃ n ∈ notes, noteEntityId env.sha n = e := by
  induction notes generalizing i s with
  | nil =>
    obtain rfl := Option.some.inj h
    simp
  | cons n rest ih =>
    obtain ⟨s₁, hadd, hrest⟩ := Option.bind_eq_some_iff.mp h
    rw [ih hrest, mem_entities_addNoteWithCreatedAt hadd, List.exists_mem_cons_iff, or_assoc,
      eq_comm (a := e)]

theorem applyEdge_rows (kind source target : String) (acc : CarriedEdgeImport × Store) :
    (applyEdge kind source target acc).2.rows = acc.2.rows := by
  rw [applyEdge]
  split
  · split
    · rfl
    · exact Store.insertEdge_rows _ _
  · rfl

theorem importCarriedEdges_rows (s : Store) (edges : List (String × CarriedEdge)) :
    (importCarriedEdges s edges).2.rows = s.rows := by
  refine List.foldlRecOn edges _ (motive := fun acc : CarriedEdgeImport × Store => acc.2.rows = s.rows) rfl ?_
  intro acc hacc e _
  split
  · rw [applyEdge_rows, hacc]
  · exact hacc

theorem importSupersedeEdges_rows (s : Store) (pairs : List (String × String)) :
    (importSupersedeEdges s pairs).2.rows = s.rows := by
  refine List.foldlRecOn pairs _ (motive := fun acc : CarriedEdgeImport × Store => acc.2.rows = s.rows) rfl ?_
  intro acc hacc p _
  split
  · split
    · exact hacc
    · rw [applyEdge_rows, hacc]
  · rw [applyEdge_rows, hacc]

theorem exists_mem_newEntries {sha : String → String} {existing : List String} {e : String} :
    (∃ n ∈ newEntries sha existing notes, noteEntityId sha n = e)
      ↔ e ∉ existing ∧ ∃ n ∈ notes, noteEntityId sha n = e := by
  induction notes generalizing existing with
  | nil => simp [newEntries]
  | cons n rest ih =>
    rw [newEntries]
    split
    case isTrue hknown =>
      rw [ih, List.exists_mem_cons_iff]
      refine and_congr_right fun hfresh => ⟨.inr, ?_⟩
      rintro (rfl | hrest)
      · exact absurd hknown hfresh
      · exact hrest
    case isFalse hfresh =>
      rw [List.exists_mem_cons_iff, ih, List.exists_mem_cons_iff, List.mem_cons, not_or]
      constructor
      · rintro (rfl | ⟨⟨-, hnew⟩, hrest⟩)
        · exact ⟨hfresh, .inl rfl⟩
        · exact ⟨hnew, .inr hrest⟩
      · rintro ⟨hnew, hfirst | hrest⟩
        · exact .inl hfirst
        · by_cases heq : noteEntityId sha n = e
          · exact .inl heq
          · exact .inr ⟨⟨fun h => heq h.symm, hnew⟩, hrest⟩

section

variable {Oid : Type*}
variable {carried : List (String × CarriedEdge)} {supersedes : List (String × String)}
  {outcome : GitNotesImport} {workingOid : Option Oid}
variable {existing : List String} {db? : Option (MemoryDb Oid)} {notes : List Note}
  {env : ImportEnv}

/-- What an import that goes through leaves in the store, and the OID it records. -/
theorem mem_entities_importIntoMemory {mint : Nat → NoteId} {db : MemoryDb Oid}
    (h : importIntoMemory env mint notes workingOid existing carried supersedes db? = some (outcome, some db))
    :
    db.lastImportedWorkingOid = workingOid
      ∧ ∀ e, e ∈ entities db.store ↔ e ∈ entities (db?.getD .fresh).store
          ∨ e ∉ existing ∧ ∃ n ∈ notes, noteEntityId env.sha n = e := by
  rw [importIntoMemory] at h
  split at h
  -- nothing listed: the marker moves, and no row is written
  case isTrue hnil =>
    obtain ⟨-, hdb⟩ := Prod.mk.inj (Option.some.inj h)
    obtain ⟨db₀, rfl, rfl⟩ := Option.map_eq_some_iff.mp hdb
    exact ⟨rfl, fun e => by simp [hnil]⟩
  case isFalse hnil =>
    simp only at h
    split at h
    -- listed, but all of it known
    case isTrue hnothing =>
      obtain ⟨-, hdb⟩ := Prod.mk.inj (Option.some.inj h)
      obtain rfl := Option.some.inj hdb
      refine ⟨rfl, fun e => ⟨.inl, ?_⟩⟩
      rintro (he | hnew)
      · exact he
      · rw [← exists_mem_newEntries, hnothing.1] at hnew
        simp at hnew
    case isFalse =>
      obtain ⟨s, hs, hrest⟩ := Option.map_eq_some_iff.mp h
      obtain ⟨-, hdb⟩ := Prod.mk.inj hrest
      obtain rfl := Option.some.inj hdb
      refine ⟨rfl, fun e => ?_⟩
      rw [entities, importSupersedeEdges_rows, importCarriedEdges_rows, ← entities,
        mem_entities_importNotes hs, exists_mem_newEntries]

/-- Without a store, an import that leaves none had nothing to import. -/
theorem importIntoMemory_none {mint : Nat → NoteId}
    (h : importIntoMemory env mint notes workingOid existing carried supersedes db? = some (outcome, none))
    : db? = none := by
  rw [importIntoMemory] at h
  split at h
  case isTrue => exact Option.map_eq_none_iff.mp (Prod.mk.inj (Option.some.inj h)).2
  case isFalse =>
    simp only at h
    split at h
    case isTrue => simp at h
    case isFalse =>
      obtain ⟨s, -, hrest⟩ := Option.map_eq_some_iff.mp h
      simp at hrest

/-- An import leaves the OID of the last merge as it was. -/
theorem lastMerged_importIntoMemory {mint : Nat → NoteId} {db? db'? : Option (MemoryDb Oid)}
    (h : importIntoMemory env mint notes workingOid existing carried supersedes db? = some (outcome, db'?))
    : (db'?.getD .fresh).lastMergedTrackingOid = (db?.getD .fresh).lastMergedTrackingOid := by
  rw [importIntoMemory] at h
  split at h
  case isTrue =>
    rw [← (Prod.mk.inj (Option.some.inj h)).2]
    cases db? <;> rfl
  case isFalse =>
    simp only at h
    split at h
    case isTrue => rw [← (Prod.mk.inj (Option.some.inj h)).2]; rfl
    case isFalse =>
      obtain ⟨s, -, hrest⟩ := Option.map_eq_some_iff.mp h
      rw [← (Prod.mk.inj hrest).2]
      rfl

/-! ## Completeness -/

/-- A record on the ref, reachable from HEAD or not. -/
def OnRef (repo : Repo) (r : NoteRecord) : Prop := ∃ commit, r ∈ repo.notes commit

/-- Every entity of the ref has a row under its identity. -/
def Imported (sha : String → String) (repo : Repo) (s : Store) : Prop :=
  ∀ r, OnRef repo r → r.resolveEntityId sha ∈ entities s

/-- An entity has a row, or is listed with the content its identity is of, which is not
    known yet. -/
def InReach (sha : String → String) (s : Store) (existing : List String) (listed : List Note)
    (entity : String) : Prop :=
  entity ∈ entities s ∨ entity ∉ existing ∧ ∃ n ∈ listed, noteEntityId sha n = entity

/-- After an import that goes through, every entity of the ref has a row exactly when
    each had one or is among the newest that the listing returns. -/
theorem importComplete_iff {env : ImportEnv} {mint : Nat → NoteId} {repo : Repo}
    {workingOid : Option Oid} {db? : Option (MemoryDb Oid)} {outcome : GitNotesImport}
    {db : MemoryDb Oid}
    (h : importGitNotesIntoMemory env mint repo workingOid db? = some (outcome, some db)) :
    db.lastImportedWorkingOid = workingOid
      ∧ (Imported env.sha repo db.store
        ↔ ∀ r, OnRef repo r → InReach env.sha (db?.getD .fresh).store
            (knownContents env.sha db?) (collect env.sha repo none true none GIT_NOTES_MAX_LIST)
            (r.resolveEntityId env.sha)) := by
  obtain ⟨notes, hlist, h⟩ := Option.bind_eq_some_iff.mp h
  obtain ⟨carried, -, h⟩ := Option.bind_eq_some_iff.mp h
  obtain ⟨supersedes, -, h⟩ := Option.bind_eq_some_iff.mp h
  have hnotes : notes = collect env.sha repo none true none GIT_NOTES_MAX_LIST := by
    rw [listForImport, list] at hlist
    split at hlist
    · exact (Option.some.inj hlist).symm
    · exact absurd hlist (by simp)
  obtain ⟨hmark, hmem⟩ := mem_entities_importIntoMemory h
  refine ⟨hmark, forall_congr' fun r => imp_congr_right fun _ => ?_⟩
  rw [hmem, InReach, ← hnotes]

end

/-! ## More entities than a listing returns -/

theorem length_collect_le (sha : String → String) (repo : Repo) (kindFilter : Option String)
    (includeArchived : Bool) (asOf : Option Int) (limit : Nat) :
    (collect sha repo kindFilter includeArchived asOf limit).length ≤ limit := by
  rw [collect, List.length_map, List.length_drop]
  omega

/-- A first import loses an entity of a ref that has more than the listing returns. -/
theorem not_imported_of_many {Oid : Type*} {env : ImportEnv} {repo : Repo} {workingOid : Option Oid}
    {outcome : GitNotesImport} {db : MemoryDb Oid}
    (h : importGitNotesIntoMemory env mint repo workingOid (some .fresh) = some (outcome, some db))
    {records : List NoteRecord} (hon : ∀ r ∈ records, OnRef repo r)
    (hdistinct : (records.map (NoteRecord.resolveEntityId env.sha)).Nodup)
    (hmany : GIT_NOTES_MAX_LIST < records.length) : ¬ Imported env.sha repo db.store := by
  intro hall
  have hreach := (importComplete_iff h).2.mp hall
  have hsub : records.map (NoteRecord.resolveEntityId env.sha)
      ⊆ (collect env.sha repo none true none GIT_NOTES_MAX_LIST).map (noteEntityId env.sha) := by
    intro e he
    obtain ⟨r, hr, rfl⟩ := List.mem_map.mp he
    rcases hreach r (hon r hr) with hrow | ⟨-, n, hn, hne⟩
    · exact absurd hrow (by simp [entities, MemoryDb.fresh, Store.empty])
    · exact hne ▸ List.mem_map_of_mem hn
  have hlen := (List.subperm_of_subset hdistinct hsub).length_le
  rw [List.length_map, List.length_map] at hlen
  have hcap := length_collect_le env.sha repo none true none GIT_NOTES_MAX_LIST
  omega

/-! ## Imports that go through -/

/-- A row with a fresh id and no remote id is inserted or finds its content there. -/
theorem insertOrRecover_isSome (env : StoreEnv) {s : Store} {n : Note} (tags files : List String)
    (hid : n.id ∉ s.rows.map Note.id) (hrem : n.remoteId = none) :
    ∃ id created s', s.insertOrRecover env n tags files = some (id, created, s')
      ∧ ∀ m ∈ s'.rows.map Note.id, m ∈ s.rows.map Note.id ∨ m = n.id := by
  have hattach : ∀ (s₁ : Store) (id : NoteId),
      (s₁.attachTagsAndFiles env id tags files).rows.map Note.id = s₁.rows.map Note.id := by
    intro s₁ id
    rw [Store.attachTagsAndFiles, Store.edit_rows, List.map_map]
    refine List.map_congr_left fun m _ => ?_
    by_cases hm : m.id = id <;> simp [hm]
  by_cases hent : n.entityId ∈ s.rows.map Note.entityId
  · obtain ⟨row, hrow, heq⟩ := List.mem_map.mp hent
    refine ⟨_, _, _, Store.insertOrRecover_of_mem env n tags files hrow heq, ?_⟩
    intro m hm
    exact .inl (hattach s row.id ▸ hm)
  · have hins : ∃ s₁, s.insertRow n = some s₁ := by
      unfold Store.insertRow
      rw [dif_pos ⟨hid, hent, by simp [hrem]⟩]
      exact ⟨_, rfl⟩
    obtain ⟨s₁, hins⟩ := hins
    refine ⟨n.id, true, s₁.attachTagsAndFiles env n.id tags files, ?_, ?_⟩
    · simp only [Store.insertOrRecover, hins]
    · intro m hm
      rw [hattach, (Store.insertRow_eq_some hins).1, List.map_append, List.mem_append] at hm
      simpa using hm

/-- Every linked path of an entry stays in the project. -/
def Attachable (env : ImportEnv) (n : Note) : Prop :=
  (n.linkedFiles.any fun p => (env.linkPath p).isSome && env.escapes p) = false

instance (env : ImportEnv) (n : Note) : Decidable (Attachable env n) :=
  inferInstanceAs (Decidable (_ = _))

theorem importNotes_isSome (env : ImportEnv) (hmint : Function.Injective mint) {i : Nat} {s : Store}
    (hattach : ∀ n ∈ notes, Attachable env n) (hfresh : ∀ j, i ≤ j → mint j ∉ s.rows.map Note.id) :
    ∃ s', importNotes env mint i s notes = some s' := by
  induction notes generalizing i s with
  | nil => exact ⟨s, rfl⟩
  | cons n rest ih =>
    obtain ⟨hn, hrest⟩ := List.forall_mem_cons.mp hattach
    obtain ⟨id, created, s₁, hins, hids⟩ := insertOrRecover_isSome env.toStoreEnv n.tags
      n.linkedFiles (n := importedRow env.toStoreEnv (mint i) n) (hfresh i le_rfl) rfl
    have hadd : addNoteWithCreatedAt env s (mint i) n = some s₁ := by
      rw [addNoteWithCreatedAt, if_neg (by rw [hn]; decide), hins, Option.map_some]
    obtain ⟨s', hs'⟩ := ih (i := i + 1) (s := s₁) hrest <| by
      intro j hj hmem
      rcases hids _ hmem with hold | hnew
      · exact hfresh j (by omega) hold
      · have hji : j = i := hmint hnew
        omega
    exact ⟨s', by rw [importNotes, hadd, Option.bind_some, hs']⟩

/-- An import into a store goes through when the ids are fresh and no path escapes. -/
theorem exists_import {Oid : Type*} (env : ImportEnv) (hmint : Function.Injective mint)
    (hescapes : ∀ p, env.escapes p = false) {repo : Repo} (hread : readable repo = true)
    (workingOid : Option Oid) (db : MemoryDb Oid)
    (hfresh : ∀ j, mint j ∉ db.store.rows.map Note.id) :
    ∃ outcome db', importGitNotesIntoMemory env mint repo workingOid (some db)
      = some (outcome, some db') := by
  simp only [importGitNotesIntoMemory, listForImport, list, carriedEdges, carriedSupersedeEdges,
    if_pos hread, Option.bind_some]
  rw [importIntoMemory]
  split
  case isTrue => exact ⟨_, _, rfl⟩
  case isFalse =>
    simp only [Option.getD_some]
    split
    case isTrue => exact ⟨_, _, rfl⟩
    case isFalse =>
      obtain ⟨s', hs'⟩ : ∃ s', importNotes env mint 0 db.store
          (newEntries env.sha (knownContents env.sha (some db))
            (collect env.sha repo none true none
              (min GIT_NOTES_IMPORT_LIMIT GIT_NOTES_MAX_LIST))) = some s' :=
        importNotes_isSome env hmint (fun n _ => by simp [Attachable, hescapes]) fun j _ => hfresh j
      rw [hs']
      exact ⟨_, _, rfl⟩

/-! ## A ref with 501 entries -/

/-- A machine whose hash keeps the text it is given, with no path outside the project. -/
def plainImportEnv : ImportEnv := ⟨⟨fun text => text, some, some⟩, fun _ => false⟩

/-- Ids by position. -/
def countedId (i : Nat) : NoteId := ⟨String.ofList (List.replicate i 'i')⟩

/-- A line as `memory add` appends it, without a stored identity. -/
def plainRecord (i : Nat) : NoteRecord where
  schemaVersion := 1
  id := i
  kind := "note"
  title := String.ofList (List.replicate i 'a')
  body := ""
  tags := []
  linkedFiles := []
  createdAt := i
  status := "active"
  sourceRef := none
  validAt := none
  invalidAt := none
  supersededBy := none
  remoteId := none
  entityId := none
  supersededByEntityId := none
  edges := []
  origin := none
  op := none
  patchId := none

/-- One commit with a note of `n` entries. -/
def plainRepo (n : Nat) : Repo where
  history := ["c1"]
  nodup := List.nodup_singleton _
  notes commit := if commit = "c1" then (List.range n).map plainRecord else []

theorem countedId_injective : Function.Injective countedId := by
  intro i j h
  have hlen := congrArg (fun id : NoteId => id.token.toList.length) h
  simpa [countedId] using hlen

theorem plainRecord_entity_injective :
    Function.Injective fun i => (plainRecord i).resolveEntityId plainImportEnv.sha := by
  intro i j h
  have hlen := congrArg String.length h
  have hescape : jsonEscape 'a' = "a" := by decide
  have hone : "a".length = 1 := rfl
  simpa [NoteRecord.resolveEntityId, plainRecord, entityId, plainImportEnv, canonicalBytes,
    jsonString, hescape, hone] using hlen

theorem readable_plainRepo (n : Nat) : readable (plainRepo n) = true := by
  refine List.all_eq_true.mpr fun p hp => ?_
  obtain ⟨commit, -, hp⟩ := List.mem_flatMap.mp hp
  obtain ⟨r, hr, rfl⟩ := List.mem_map.mp hp
  obtain ⟨i, -, rfl⟩ : ∃ i, i < n ∧ plainRecord i = r := by
    simp only [plainRepo] at hr
    split at hr
    · simpa using hr
    · simp at hr
  rfl

/-- A ref with one entry is imported in full. -/
theorem importComplete_of_one :
    ∃ outcome db, importGitNotesIntoMemory plainImportEnv countedId (plainRepo 1) (some "w1")
        (some .fresh) = some (outcome, some db)
      ∧ Imported plainImportEnv.sha (plainRepo 1) db.store := by
  obtain ⟨outcome, db, h⟩ := exists_import plainImportEnv countedId_injective (fun _ => rfl)
    (readable_plainRepo 1) (some "w1") .fresh (by simp [MemoryDb.fresh, Store.empty])
  refine ⟨outcome, db, h, (importComplete_iff h).2.mpr ?_⟩
  rintro r ⟨commit, hr⟩
  obtain rfl : plainRecord 0 = r := by
    simp only [plainRepo] at hr
    split at hr
    · obtain ⟨i, hi, rfl⟩ := List.mem_map.mp hr
      obtain rfl : i = 0 := by simpa using hi
      rfl
    · simp at hr
  exact .inr (by decide +kernel)

/-- The first import of a ref with 501 entries reports success, records the ref and
    leaves an entry behind. -/
theorem not_importComplete_of_501 :
    ∃ outcome db, importGitNotesIntoMemory plainImportEnv countedId (plainRepo 501) (some "w1")
        (some .fresh) = some (outcome, some db)
      ∧ db.lastImportedWorkingOid = some "w1"
      ∧ ¬ Imported plainImportEnv.sha (plainRepo 501) db.store := by
  obtain ⟨outcome, db, h⟩ := exists_import plainImportEnv countedId_injective (fun _ => rfl)
    (readable_plainRepo 501) (some "w1") .fresh (by simp [MemoryDb.fresh, Store.empty])
  refine ⟨outcome, db, h, (importComplete_iff h).1, ?_⟩
  have hmany := @not_imported_of_many _ _ _ _ _ _ _ h ((List.range 501).map plainRecord)
  refine hmany ?_ ?_ ?_
  · intro r hr
    exact ⟨"c1", by simpa [plainRepo] using hr⟩
  · rw [List.map_map]
    exact List.nodup_range.map plainRecord_entity_injective
  · simp [GIT_NOTES_MAX_LIST]

end Carrier
end Inkentry
