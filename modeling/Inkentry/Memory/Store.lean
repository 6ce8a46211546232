/-
  Inkentry.Memory.Store

  The local memory store: the `notes` table and the edges between its rows.

  The table's three unique indexes are fields of `Store`, so an insert that
  would break one does not build a store; it fails, as the SQL statement does,
  and `recoverFromEntityIdCollision` reuses the row that holds the content
  already.  Every other statement rewrites rows in place through a `RowEdit`,
  which leaves identity and content alone.

  `StoreEnv` holds what the store calls and does not define: the hash, the tag
  spelling and the path resolution.  A path that leaves the project is refused
  before a command writes anything, so those that get here resolve.
-/

import Inkentry.Lib.SortedSet
import Inkentry.Record

namespace Inkentry
namespace Memory

open SortedSet

/-- The functions a store is given. -/
structure StoreEnv where
  sha : String → String
  /-- One spelling per tag; `none` for a blank one. -/
  normalizeTag : String → Option String
  /-- The path a linked file is stored under; `none` for a blank one. -/
  linkPath : String → Option String

/-- A relationship between two rows. -/
structure MemoryEdge where
  fromId : NoteId
  toId : NoteId
  kind : String
  deriving DecidableEq, Repr

/-! ## Tables -/

/-- The rows in insertion order, and the edges. -/
@[ext] structure Store where
  rows : List Note
  edges : List MemoryEdge
  uuidUnique : (rows.map Note.id).Nodup
  entityUnique : (rows.map Note.entityId).Nodup
  remoteUnique : (rows.filterMap Note.remoteId).Nodup

def Store.empty : Store := ⟨[], [], List.nodup_nil, List.nodup_nil, List.nodup_nil⟩

/-- The row with an id, every column included. -/
def Store.row? (s : Store) (id : NoteId) : Option Note := s.rows.find? fun n => n.id = id

/-- An entry as it is read back; `remote_id` is not among the columns selected. -/
def rowToNote (n : Note) : Note := { n with remoteId := none }

def Store.get (s : Store) (id : NoteId) : Option Note := (s.row? id).map rowToNote

def Store.hasNote (s : Store) (id : NoteId) : Bool := (s.row? id).isSome

/-- The row that holds some content. -/
def Store.rowForEntity? (s : Store) (entity : String) : Option Note :=
  s.rows.find? fun n => n.entityId = entity

def Store.noteIdForRemoteId (s : Store) (remoteId : String) : Option NoteId :=
  (s.rows.find? fun n => n.remoteId = some remoteId).map Note.id

/-- The pull cursor: the largest remote id stamped on any row. -/
def Store.maxRemoteId (s : Store) : Option String := (s.rows.filterMap Note.remoteId).max?

/-! ## Writing rows -/

/-- A rewrite of a row that leaves its identity and content alone. -/
structure RowEdit where
  apply : Note → Note
  id_apply : ∀ n, (apply n).id = n.id
  entityId_apply : ∀ n, (apply n).entityId = n.entityId
  remoteId_apply : ∀ n, (apply n).remoteId = n.remoteId
  content_apply : ∀ n, (apply n).kind = n.kind ∧ (apply n).title = n.title ∧ (apply n).body = n.body

attribute [simp] RowEdit.id_apply RowEdit.entityId_apply RowEdit.remoteId_apply

/-- `UPDATE notes SET .. WHERE ..`. -/
def Store.edit (s : Store) (e : RowEdit) (p : Note → Bool) : Store where
  rows := s.rows.map fun n => if p n then e.apply n else n
  edges := s.edges
  uuidUnique := by
    have hmap : (s.rows.map fun n => if p n then e.apply n else n).map Note.id
        = s.rows.map Note.id := by
      rw [List.map_map]
      refine List.map_congr_left fun n _ => ?_
      by_cases hp : p n <;> simp [hp]
    rw [hmap]
    exact s.uuidUnique
  entityUnique := by
    have hmap : (s.rows.map fun n => if p n then e.apply n else n).map Note.entityId
        = s.rows.map Note.entityId := by
      rw [List.map_map]
      refine List.map_congr_left fun n _ => ?_
      by_cases hp : p n <;> simp [hp]
    rw [hmap]
    exact s.entityUnique
  remoteUnique := by
    have hmap : (s.rows.map fun n => if p n then e.apply n else n).filterMap Note.remoteId
        = s.rows.filterMap Note.remoteId := by
      rw [List.filterMap_map]
      refine List.filterMap_congr fun n _ => ?_
      by_cases hp : p n <;> simp [hp]
    rw [hmap]
    exact s.remoteUnique

/-- `INSERT INTO notes`; `none` when a unique index refuses the row. -/
def Store.insertRow (s : Store) (n : Note) : Option Store :=
  if h : n.id ∉ s.rows.map Note.id ∧ n.entityId ∉ s.rows.map Note.entityId
      ∧ ∀ r ∈ n.remoteId, r ∉ s.rows.filterMap Note.remoteId then
    some
      { rows := s.rows ++ [n]
        edges := s.edges
        uuidUnique := by
          rw [List.map_append, List.map_singleton]
          exact s.uuidUnique.append (List.nodup_singleton _) (by simpa using h.1)
        entityUnique := by
          rw [List.map_append, List.map_singleton]
          exact s.entityUnique.append (List.nodup_singleton _) (by simpa using h.2.1)
        remoteUnique := by
          rw [List.filterMap_append]
          cases hr : n.remoteId with
          | none => simpa [hr] using s.remoteUnique
          | some r =>
            have hnotin := h.2.2 r hr
            rw [List.filterMap_cons_some hr, List.filterMap_nil]
            exact s.remoteUnique.append (List.nodup_singleton _) (by simpa using hnotin) }
  else none

/-- `INSERT OR IGNORE INTO memory_edges`. -/
def Store.insertEdge (s : Store) (e : MemoryEdge) : Store :=
  if e ∈ s.edges then s else { s with edges := s.edges ++ [e] }

/-- Add-only: normalised tags and resolved paths joined to a row's own. -/
def attachEdit (env : StoreEnv) (tags linkedFiles : List String) : RowEdit where
  apply n := { n with
    tags := unionInto n.tags (tags.filterMap env.normalizeTag)
    linkedFiles := unionInto n.linkedFiles (linkedFiles.filterMap env.linkPath) }
  id_apply _ := rfl
  entityId_apply _ := rfl
  remoteId_apply _ := rfl
  content_apply _ := ⟨rfl, rfl, rfl⟩

def Store.attachTagsAndFiles (env : StoreEnv) (s : Store) (id : NoteId)
    (tags linkedFiles : List String) : Store :=
  s.edit (attachEdit env tags linkedFiles) fun n => n.id = id

/-- Overwrites the origin. -/
def originEdit (origin : Origin) : RowEdit where
  apply n := { n with origin := some origin }
  id_apply _ := rfl
  entityId_apply _ := rfl
  remoteId_apply _ := rfl
  content_apply _ := ⟨rfl, rfl, rfl⟩

def Store.setOrigin (s : Store) (id : NoteId) (origin : Origin) : Store :=
  s.edit (originEdit origin) fun n => n.id = id

/-! ## Adding -/

/-- What a caller supplies for a new row. -/
structure RowInput where
  kind : String
  title : String
  body : String
  tags : List String
  linkedFiles : List String
  sourceRef : Option String
  validAt : Option Int

/-- A fresh row, before its tags and files are attached. -/
def freshRow (env : StoreEnv) (uuid : NoteId) (createdAt : Int) (input : RowInput) : Note where
  id := uuid
  entityId := entityId env.sha input.kind input.title input.body
  kind := input.kind
  title := input.title
  body := input.body
  tags := []
  linkedFiles := []
  createdAt := createdAt
  status := "active"
  supersededBy := none
  sourceRef := input.sourceRef
  validAt := input.validAt
  invalidAt := none
  remoteId := none
  origin := none

/-- Inserts a row, or reuses the one with its content when a unique index
    refuses it; tags and files are attached either way.  `none` is the error of
    a collision on something else. -/
def Store.insertOrRecover (env : StoreEnv) (s : Store) (n : Note) (tags linkedFiles : List String) :
    Option (NoteId × Bool × Store) :=
  match s.insertRow n with
  | some s' => some (n.id, true, s'.attachTagsAndFiles env n.id tags linkedFiles)
  | none => (s.rowForEntity? n.entityId).map fun existing =>
      (existing.id, false, s.attachTagsAndFiles env existing.id tags linkedFiles)

/-- Inserts an entry; `(id, created)` and the store. -/
def Store.addNote (env : StoreEnv) (s : Store) (uuid : NoteId) (now : Int) (input : RowInput) :
    Option (NoteId × Bool × Store) :=
  s.insertOrRecover env (freshRow env uuid now input) input.tags input.linkedFiles

/-! ## Lifecycle -/

/-- `SET status = 'archived'`. -/
def archiveEdit : RowEdit where
  apply n := { n with status := "archived" }
  id_apply _ := rfl
  entityId_apply _ := rfl
  remoteId_apply _ := rfl
  content_apply _ := ⟨rfl, rfl, rfl⟩

/-- `SET status = 'archived', superseded_by = .., invalid_at = ..` unless set. -/
def supersedeEdit (newId : NoteId) (now : Int) : RowEdit where
  apply n := { n with
    status := "archived"
    supersededBy := some newId
    invalidAt := n.invalidAt.or (some now) }
  id_apply _ := rfl
  entityId_apply _ := rfl
  remoteId_apply _ := rfl
  content_apply _ := ⟨rfl, rfl, rfl⟩

/-- The row an update guarded by `uuid = ? AND status = 'active'` matches. -/
def isActiveRow (id : NoteId) (n : Note) : Bool := n.id = id && n.status = "active"

/-- Whether such an update changes a row. -/
def Store.hasActive (s : Store) (id : NoteId) : Bool := s.rows.any (isActiveRow id)

/-- Archives an active entry; whether one was. -/
def Store.archive (s : Store) (id : NoteId) : Bool × Store :=
  (s.hasActive id, s.edit archiveEdit (isActiveRow id))

/-- Archives an active entry and links it to its replacement; whether one was. -/
def Store.supersede (s : Store) (now : Int) (oldId newId : NoteId) : Bool × Store :=
  if s.hasActive oldId then
    (true, (s.edit (supersedeEdit newId now) (isActiveRow oldId)).insertEdge
      ⟨newId, oldId, "supersedes"⟩)
  else (false, s)

/-- `SET superseded_by = ..`, whatever the row's status. -/
def linkEdit (successor : NoteId) : RowEdit where
  apply n := { n with supersededBy := some successor }
  id_apply _ := rfl
  entityId_apply _ := rfl
  remoteId_apply _ := rfl
  content_apply _ := ⟨rfl, rfl, rfl⟩

def Store.setSupersededBy (s : Store) (id successor : NoteId) : Store :=
  s.edit (linkEdit successor) fun n => n.id = id

/-- Inserts an entry in place of an active one.  When the content is that of the
    entry to be replaced, nothing is archived; when that entry is not active,
    nothing is written at all. -/
def Store.addNoteSuperseding (env : StoreEnv) (s : Store) (uuid : NoteId) (now sqlNow : Int)
    (input : RowInput) (supersedesId : NoteId) : Option (NoteId × Bool × Store) :=
  (s.insertOrRecover env (freshRow env uuid now { input with sourceRef := none }) input.tags
      input.linkedFiles).bind fun (id, created, s') =>
    if id = supersedesId then some (id, created, s')
    else
      let (changed, s'') := s'.supersede sqlNow supersedesId id
      if changed then some (id, created, s'') else none

/-! ## Stamping remote ids -/

/-- The rows after `UPDATE notes SET remote_id = ? WHERE uuid = ? AND remote_id IS NULL`. -/
def stampRows (rows : List Note) (id : NoteId) (remoteId : String) : List Note :=
  rows.map fun n => if n.id = id ∧ n.remoteId = none then { n with remoteId := some remoteId } else n

/-- Records the server's id for a row that has none; `none` when another row
    holds it. -/
def Store.setRemoteId (s : Store) (id : NoteId) (remoteId : String) : Option Store :=
  if h : ((stampRows s.rows id remoteId).filterMap Note.remoteId).Nodup then
    some
      { rows := stampRows s.rows id remoteId
        edges := s.edges
        uuidUnique := by
          have hmap : (stampRows s.rows id remoteId).map Note.id = s.rows.map Note.id := by
            rw [stampRows, List.map_map]
            refine List.map_congr_left fun n _ => ?_
            by_cases hn : n.id = id ∧ n.remoteId = none <;> simp [hn]
          rw [hmap]
          exact s.uuidUnique
        entityUnique := by
          have hmap : (stampRows s.rows id remoteId).map Note.entityId
              = s.rows.map Note.entityId := by
            rw [stampRows, List.map_map]
            refine List.map_congr_left fun n _ => ?_
            by_cases hn : n.id = id ∧ n.remoteId = none <;> simp [hn]
          rw [hmap]
          exact s.entityUnique
        remoteUnique := h }
  else none

/-! ## What the statements do -/

variable {s s' : Store} {tags linkedFiles : List String} {id : NoteId} {n : Note} {entity : String}
  {env : StoreEnv} {created : Bool}

theorem Store.row?_eq_some_iff {s : Store} : s.row? id = some n ↔ n ∈ s.rows ∧ n.id = id := by
  constructor
  · intro h
    exact ⟨List.mem_of_find?_eq_some h, by simpa using List.find?_some h⟩
  · rintro ⟨hmem, hid⟩
    have hsome : (s.row? id).isSome := List.find?_isSome.mpr ⟨n, hmem, by simpa using hid⟩
    obtain ⟨m, hm⟩ := Option.isSome_iff_exists.mp hsome
    have hmid : m.id = id := by simpa using List.find?_some hm
    have hmn : m = n := List.inj_on_of_nodup_map s.uuidUnique (List.mem_of_find?_eq_some hm) hmem
      (hmid.trans hid.symm)
    rw [hm, hmn]

theorem Store.rowForEntity?_eq_some_iff {s : Store} :
    s.rowForEntity? entity = some n ↔ n ∈ s.rows ∧ n.entityId = entity := by
  constructor
  · intro h
    exact ⟨List.mem_of_find?_eq_some h, by simpa using List.find?_some h⟩
  · rintro ⟨hmem, hent⟩
    have hsome : (s.rowForEntity? entity).isSome :=
      List.find?_isSome.mpr ⟨n, hmem, by simpa using hent⟩
    obtain ⟨m, hm⟩ := Option.isSome_iff_exists.mp hsome
    have hment : m.entityId = entity := by simpa using List.find?_some hm
    have hmn : m = n := List.inj_on_of_nodup_map s.entityUnique (List.mem_of_find?_eq_some hm) hmem
      (hment.trans hent.symm)
    rw [hm, hmn]

@[simp] theorem Store.edit_rows (s : Store) (e : RowEdit) (p : Note → Bool) :
    (s.edit e p).rows = s.rows.map fun n => if p n then e.apply n else n := rfl

/-- A rewrite that changes none of the rows it matches changes nothing. -/
theorem Store.edit_eq_self {s : Store} {e : RowEdit} {p : Note → Bool}
    (h : ∀ n ∈ s.rows, p n = true → e.apply n = n) : s.edit e p = s := by
  refine Store.ext ?_ rfl
  rw [Store.edit_rows]
  refine (List.map_congr_left fun n hn => ?_).trans (List.map_id _)
  by_cases hp : p n = true
  · rw [if_pos hp, h n hn hp, id]
  · rw [if_neg hp, id]

@[simp] theorem Store.insertEdge_rows (s : Store) (e : MemoryEdge) :
    (s.insertEdge e).rows = s.rows := by
  unfold Store.insertEdge
  split <;> rfl

theorem Store.row?_edit (s : Store) (e : RowEdit) (p : Note → Bool) (id : NoteId) :
    (s.edit e p).row? id = (s.row? id).map fun n => if p n then e.apply n else n := by
  simp only [Store.row?, Store.edit_rows, List.find?_map]
  congr 2
  funext n
  by_cases hp : p n <;> simp [hp]

theorem Store.rowForEntity?_edit (s : Store) (e : RowEdit) (p : Note → Bool) (entity : String) :
    (s.edit e p).rowForEntity? entity
      = (s.rowForEntity? entity).map fun n => if p n then e.apply n else n := by
  simp only [Store.rowForEntity?, Store.edit_rows, List.find?_map]
  congr 2
  funext n
  by_cases hp : p n <;> simp [hp]

theorem Store.row?_insertEdge (s : Store) (e : MemoryEdge) (id : NoteId) :
    (s.insertEdge e).row? id = s.row? id := by
  simp only [Store.row?, Store.insertEdge_rows]

theorem Store.insertRow_eq_some (h : s.insertRow n = some s') :
    s'.rows = s.rows ++ [n] ∧ s'.edges = s.edges ∧ n.id ∉ s.rows.map Note.id
      ∧ n.entityId ∉ s.rows.map Note.entityId := by
  unfold Store.insertRow at h
  split at h
  case isTrue hfresh =>
    rw [Option.some_inj] at h
    subst h
    exact ⟨rfl, rfl, hfresh.1, hfresh.2.1⟩
  case isFalse => exact absurd h (by simp)

/-- An insert-or-recover either adds its row or finds the row with its content. -/
theorem Store.insertOrRecover_cases
    (h : s.insertOrRecover env n tags linkedFiles = some (id, created, s')) :
    (created = true ∧ id = n.id ∧ ∃ s₁, s.insertRow n = some s₁
        ∧ s' = s₁.attachTagsAndFiles env n.id tags linkedFiles)
    ∨ (created = false ∧ ∃ row ∈ s.rows, row.entityId = n.entityId ∧ id = row.id
        ∧ s' = s.attachTagsAndFiles env row.id tags linkedFiles) := by
  unfold Store.insertOrRecover at h
  cases hins : s.insertRow n with
  | some s₁ =>
    rw [hins] at h
    obtain ⟨rfl, hrest⟩ := Prod.mk.inj (Option.some.inj h)
    obtain ⟨rfl, rfl⟩ := Prod.mk.inj hrest
    exact .inl ⟨rfl, rfl, s₁, rfl, rfl⟩
  | none =>
    rw [hins] at h
    obtain ⟨row, hrow, heq⟩ := Option.map_eq_some_iff.mp h
    obtain ⟨rfl, hrest⟩ := Prod.mk.inj heq
    obtain ⟨rfl, rfl⟩ := Prod.mk.inj hrest
    obtain ⟨hmem, hent⟩ := Store.rowForEntity?_eq_some_iff.mp hrow
    exact .inr ⟨rfl, row, hmem, hent, rfl, rfl⟩

theorem Store.insertOrRecover_of_insert (env : StoreEnv) (h : s.insertRow n = some s')
    (tags linkedFiles : List String) :
    s.insertOrRecover env n tags linkedFiles
      = some (n.id, true, s'.attachTagsAndFiles env n.id tags linkedFiles) := by
  simp only [Store.insertOrRecover, h]

/-- When the content is there already, the row that holds it is reused. -/
theorem Store.insertOrRecover_of_mem (env : StoreEnv) {s : Store} {row : Note} (n : Note)
    (tags linkedFiles : List String) (hrow : row ∈ s.rows) (hent : row.entityId = n.entityId) :
    s.insertOrRecover env n tags linkedFiles
      = some (row.id, false, s.attachTagsAndFiles env row.id tags linkedFiles) := by
  have hnone : s.insertRow n = none := by
    unfold Store.insertRow
    rw [dif_neg]
    rintro ⟨-, hfresh, -⟩
    exact hfresh (hent ▸ List.mem_map_of_mem hrow)
  have hfind := Store.rowForEntity?_eq_some_iff.mpr ⟨hrow, hent⟩
  simp only [Store.insertOrRecover, hnone, hfind, Option.map_some]

theorem Store.hasActive_iff {s : Store} :
    s.hasActive id = true ↔ ∃ n ∈ s.rows, n.id = id ∧ n.status = "active" := by
  simp [Store.hasActive, isActiveRow]

/-- The entity of the row with an id. -/
def Store.entityOf (s : Store) (id : NoteId) : Option String := (s.row? id).map Note.entityId

theorem Store.entityOf_eq_some_iff {s : Store} :
    s.entityOf id = some entity ↔ ∃ n ∈ s.rows, n.id = id ∧ n.entityId = entity := by
  simp only [Store.entityOf, Option.map_eq_some_iff, Store.row?_eq_some_iff, and_assoc]

@[simp] theorem Store.entityOf_edit (s : Store) (e : RowEdit) (p : Note → Bool) (id : NoteId) :
    (s.edit e p).entityOf id = s.entityOf id := by
  rw [Store.entityOf, Store.row?_edit, Option.map_map, Store.entityOf]
  congr 1
  funext n
  by_cases hp : p n <;> simp [hp]

@[simp] theorem Store.entityOf_insertEdge (s : Store) (e : MemoryEdge) (id : NoteId) :
    (s.insertEdge e).entityOf id = s.entityOf id := by
  rw [Store.entityOf, Store.row?_insertEdge, Store.entityOf]

theorem Store.entityOf_insertRow (h : s.insertRow n = some s') (hid : s.entityOf id = some entity) :
    s'.entityOf id = some entity := by
  obtain ⟨m, hm, hmid, hment⟩ := Store.entityOf_eq_some_iff.mp hid
  refine Store.entityOf_eq_some_iff.mpr ⟨m, ?_, hmid, hment⟩
  rw [(Store.insertRow_eq_some h).1]
  exact List.mem_append_left _ hm

theorem Store.get_eq_some_iff {s : Store} :
    s.get id = some n ↔ ∃ row ∈ s.rows, row.id = id ∧ rowToNote row = n := by
  simp only [Store.get, Option.map_eq_some_iff, Store.row?_eq_some_iff, and_assoc]

theorem Store.entityOf_insertOrRecover {id id' : NoteId}
    (h : s.insertOrRecover env n tags linkedFiles = some (id, created, s'))
    (hid : s.entityOf id' = some entity) : s'.entityOf id' = some entity := by
  rcases Store.insertOrRecover_cases h with ⟨-, -, s₁, hins, rfl⟩ | ⟨-, row, -, -, -, rfl⟩
  · rw [Store.attachTagsAndFiles, Store.entityOf_edit]
    exact Store.entityOf_insertRow hins hid
  · rw [Store.attachTagsAndFiles, Store.entityOf_edit]
    exact hid

theorem Store.entityOf_insertOrRecover_self
    (h : s.insertOrRecover env n tags linkedFiles = some (id, created, s')) :
    s'.entityOf id = some n.entityId := by
  rcases Store.insertOrRecover_cases h with ⟨-, rfl, s₁, hins, rfl⟩ | ⟨-, row, hrow, hent, rfl, rfl⟩
  · rw [Store.attachTagsAndFiles, Store.entityOf_edit, Store.entityOf_eq_some_iff]
    refine ⟨n, ?_, rfl, rfl⟩
    rw [(Store.insertRow_eq_some hins).1]
    simp
  · rw [Store.attachTagsAndFiles, Store.entityOf_edit, Store.entityOf_eq_some_iff]
    exact ⟨row, hrow, rfl, hent⟩

/-- An add in place of the entry its own content is archives nothing. -/
theorem Store.addNoteSuperseding_self (env : StoreEnv) {s : Store} {row : Note} (uuid : NoteId)
    (now sqlNow : Int) {input : RowInput} (hrow : row ∈ s.rows)
    (hent : row.entityId = entityId env.sha input.kind input.title input.body) :
    s.addNoteSuperseding env uuid now sqlNow input row.id
      = some (row.id, false, s.attachTagsAndFiles env row.id input.tags input.linkedFiles) := by
  unfold Store.addNoteSuperseding
  rw [Store.insertOrRecover_of_mem env _ _ _ hrow hent, Option.bind_some]
  exact if_pos rfl

theorem Store.addNoteSuperseding_cases {uuid oldId id : NoteId} {now sqlNow : Int}
    {input : RowInput}
    (h : s.addNoteSuperseding env uuid now sqlNow input oldId = some (id, created, s')) :
    ∃ s₁, s.insertOrRecover env (freshRow env uuid now { input with sourceRef := none }) input.tags
        input.linkedFiles = some (id, created, s₁)
      ∧ (id = oldId ∧ s' = s₁
        ∨ id ≠ oldId ∧ s₁.hasActive oldId = true
          ∧ s' = (s₁.edit (supersedeEdit id sqlNow) (isActiveRow oldId)).insertEdge
              ⟨id, oldId, "supersedes"⟩) := by
  obtain ⟨⟨id', created', s₁⟩, hins, hrest⟩ := Option.bind_eq_some_iff.mp h
  by_cases hid : id' = oldId
  · simp only [if_pos hid, Option.some.injEq, Prod.mk.injEq] at hrest
    obtain ⟨rfl, rfl, rfl⟩ := hrest
    exact ⟨_, hins, .inl ⟨hid, rfl⟩⟩
  · simp only [if_neg hid, Store.supersede] at hrest
    by_cases hact : s₁.hasActive oldId = true
    · simp only [hact, if_true, Option.some.injEq, Prod.mk.injEq] at hrest
      obtain ⟨rfl, rfl, rfl⟩ := hrest
      exact ⟨_, hins, .inr ⟨hid, hact, rfl⟩⟩
    · simp [hact] at hrest

end Memory
end Inkentry
