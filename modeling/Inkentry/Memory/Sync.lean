/-
  Inkentry.Memory.Sync

  The local store's side of team sync: which rows a push offers, how an entry
  pulled from the server is applied, and what a store never loses.

  `Store.Holds` is what "present locally" means here: a row carries the entry's
  remote id, or holds its content already (the row an apply reuses instead of
  inserting a second one).  Rows are only ever inserted, edited in place and
  stamped, so every operation satisfies `Store.Keeps`, and with it everything
  that holds stays held.
-/

import Inkentry.Memory.Store

namespace Inkentry
namespace Memory

/-! ## Pulled entries -/

/-- One entry of a delta pull, its creation time parsed to seconds. -/
structure RemoteEntry where
  id : String
  kind : String
  title : String
  body : Option String
  sourceCommit : Option String
  createdAt : Int
  archived : Bool
  deriving DecidableEq, Repr

/-- The identity of a pulled entry's content. -/
def RemoteEntry.entityId (sha : String → String) (e : RemoteEntry) : String :=
  Inkentry.entityId sha e.kind e.title (e.body.getD "")

/-- The row a pulled entry is inserted as. -/
def pulledRow (env : StoreEnv) (uuid : NoteId) (e : RemoteEntry) : Note where
  id := uuid
  entityId := e.entityId env.sha
  kind := e.kind
  title := e.title
  body := e.body.getD ""
  tags := []
  linkedFiles := []
  createdAt := e.createdAt
  status := if e.archived then "archived" else "active"
  supersededBy := none
  sourceRef := e.sourceCommit
  validAt := none
  invalidAt := none
  remoteId := some e.id
  origin := none

/-- Applies a pulled entry, keyed by its remote id: whether a row was inserted,
    and the store.  A known entry only has its archival carried over. -/
def Store.applyRemoteNote (env : StoreEnv) (s : Store) (uuid : NoteId) (e : RemoteEntry) :
    Option (Bool × Store) :=
  match s.noteIdForRemoteId e.id with
  | some existing => some (false, if e.archived then (s.archive existing).2 else s)
  | none => (s.insertOrRecover env (pulledRow env uuid e) [] []).bind fun (id, created, s') =>
      if created then some (true, s')
      else (s'.setRemoteId id e.id).map fun s'' =>
        (false, if e.archived then (s''.archive id).2 else s'')

/-! ## Rows to push -/

/-- Active rows the server has not stamped yet, oldest first. -/
def Store.unsyncedRows (s : Store) : List Note :=
  (s.rows.filter fun n => n.status = "active" && n.remoteId = none).insertionSort
    fun m n => m.createdAt ≤ n.createdAt

/-- The number of active rows. -/
def Store.count (s : Store) : Nat := s.rows.countP fun n => n.status = "active"

/-! ## What a store keeps -/

variable {s s' : Store}
variable {id : NoteId} {e : RemoteEntry}

/-- Every row survives with its identity, and with its remote id once it has one. -/
def Store.Keeps (s s' : Store) : Prop :=
  ∀ n ∈ s.rows, ∃ n' ∈ s'.rows, n'.id = n.id ∧ n'.entityId = n.entityId
    ∧ ∀ r ∈ n.remoteId, n'.remoteId = some r

/-- A row carries the entry's remote id or holds its content. -/
def Store.Holds (sha : String → String) (s : Store) (e : RemoteEntry) : Prop :=
  ∃ n ∈ s.rows, n.remoteId = some e.id ∨ n.entityId = e.entityId sha

/-- The row with an id carries a remote id. -/
def Store.Stamped (s : Store) (id : NoteId) : Prop :=
  ∃ n ∈ s.rows, n.id = id ∧ n.remoteId.isSome

instance (sha : String → String) (s : Store) (e : RemoteEntry) : Decidable (s.Holds sha e) :=
  inferInstanceAs (Decidable (∃ n ∈ s.rows, n.remoteId = some e.id ∨ n.entityId = e.entityId sha))

instance (s : Store) (id : NoteId) : Decidable (s.Stamped id) :=
  inferInstanceAs (Decidable (∃ n ∈ s.rows, n.id = id ∧ n.remoteId.isSome))

theorem Store.Keeps.refl (s : Store) : s.Keeps s := fun n hn => ⟨n, hn, rfl, rfl, fun _ h => h⟩

theorem Store.Keeps.trans {s s' s'' : Store} (h : s.Keeps s') (h' : s'.Keeps s'') :
    s.Keeps s'' := by
  intro n hn
  obtain ⟨n', hn', hid, hent, hrem⟩ := h n hn
  obtain ⟨n'', hn'', hid', hent', hrem'⟩ := h' n' hn'
  exact ⟨n'', hn'', hid'.trans hid, hent'.trans hent, fun r hr => hrem' r (hrem r hr)⟩

theorem Store.Keeps.holds {sha : String → String} (h : s.Keeps s')
    (he : s.Holds sha e) : s'.Holds sha e := by
  obtain ⟨n, hn, hcase⟩ := he
  obtain ⟨n', hn', -, hent, hrem⟩ := h n hn
  rcases hcase with hr | hc
  · exact ⟨n', hn', .inl (hrem _ hr)⟩
  · exact ⟨n', hn', .inr (hent.trans hc)⟩

theorem Store.Keeps.stamped (h : s.Keeps s') (hs : s.Stamped id) : s'.Stamped id := by
  obtain ⟨n, hn, hid, hrem⟩ := hs
  obtain ⟨r, hr⟩ := Option.isSome_iff_exists.mp hrem
  obtain ⟨n', hn', hid', -, hrem'⟩ := h n hn
  exact ⟨n', hn', hid'.trans hid, by simp [hrem' r hr]⟩

theorem Store.hasNote_iff {s : Store} : s.hasNote id = true ↔ ∃ n ∈ s.rows, n.id = id := by
  simp [Store.hasNote, Store.row?]

theorem Store.Keeps.hasNote (h : s.Keeps s') (hs : s.hasNote id = true) : s'.hasNote id = true := by
  obtain ⟨n, hn, hid⟩ := Store.hasNote_iff.mp hs
  obtain ⟨n', hn', hid', -, -⟩ := h n hn
  exact Store.hasNote_iff.mpr ⟨n', hn', hid'.trans hid⟩

/-! ## Every operation keeps -/

variable {env : StoreEnv}

theorem Store.keeps_edit (s : Store) (e : RowEdit) (p : Note → Bool) : s.Keeps (s.edit e p) := by
  intro n hn
  refine ⟨if p n then e.apply n else n, List.mem_map_of_mem hn, ?_⟩
  by_cases hp : p n <;> simp [hp]

theorem Store.keeps_insertRow {n : Note} (h : s.insertRow n = some s') : s.Keeps s' := by
  intro m hm
  refine ⟨m, ?_, rfl, rfl, fun _ hr => hr⟩
  rw [(Store.insertRow_eq_some h).1]
  exact List.mem_append_left _ hm

theorem Store.keeps_insertEdge (s : Store) (e : MemoryEdge) : s.Keeps (s.insertEdge e) := by
  intro n hn
  exact ⟨n, by simpa using hn, rfl, rfl, fun _ hr => hr⟩

theorem Store.keeps_archive (s : Store) (id : NoteId) : s.Keeps (s.archive id).2 :=
  Store.keeps_edit _ _ _

theorem Store.keeps_supersede (s : Store) (now : Int) (oldId newId : NoteId) :
    s.Keeps (s.supersede now oldId newId).2 := by
  unfold Store.supersede
  split
  · exact (Store.keeps_edit _ _ _).trans (Store.keeps_insertEdge _ _)
  · exact .refl s

theorem Store.keeps_insertOrRecover {n : Note} {tags linkedFiles : List String} {created : Bool}
    (h : s.insertOrRecover env n tags linkedFiles = some (id, created, s')) : s.Keeps s' := by
  rcases Store.insertOrRecover_cases h with ⟨-, -, s₁, hins, rfl⟩ | ⟨-, row, -, -, -, rfl⟩
  · exact (Store.keeps_insertRow hins).trans (Store.keeps_edit _ _ _)
  · exact Store.keeps_edit _ _ _

theorem Store.keeps_addNoteSuperseding {uuid oldId id : NoteId} {now sqlNow : Int}
    {input : RowInput} {created : Bool}
    (h : s.addNoteSuperseding env uuid now sqlNow input oldId = some (id, created, s')) :
    s.Keeps s' := by
  obtain ⟨s₁, hins, ⟨-, rfl⟩ | ⟨-, -, rfl⟩⟩ := Store.addNoteSuperseding_cases h
  · exact Store.keeps_insertOrRecover hins
  · exact (Store.keeps_insertOrRecover hins).trans
      ((Store.keeps_edit _ _ _).trans (Store.keeps_insertEdge _ _))

/-! ## Stamping -/

variable {remoteId : String}

theorem Store.setRemoteId_eq_some
    (h : s.setRemoteId id remoteId = some s') : s'.rows = stampRows s.rows id remoteId := by
  unfold Store.setRemoteId at h
  split at h
  · rw [← Option.some.inj h]
  · exact absurd h (by simp)

theorem Store.keeps_setRemoteId (h : s.setRemoteId id remoteId = some s') : s.Keeps s' := by
  intro n hn
  rw [Store.setRemoteId_eq_some h]
  refine ⟨_, List.mem_map_of_mem hn, ?_⟩
  by_cases hc : n.id = id ∧ n.remoteId = none
  · simp [hc]
  · simp [hc]

theorem Store.stamped_setRemoteId (h : s.setRemoteId id remoteId = some s')
    (hid : s.hasNote id = true) : s'.Stamped id := by
  obtain ⟨n, hn, hnid⟩ := Store.hasNote_iff.mp hid
  unfold Store.Stamped
  rw [Store.setRemoteId_eq_some h]
  refine ⟨_, List.mem_map_of_mem hn, ?_⟩
  by_cases hc : n.remoteId = none
  · simp [hnid, hc]
  · simp [hc, hnid, Option.isSome_iff_ne_none]

/-! ## Applying a pulled entry -/

variable {inserted : Bool} {uuid : NoteId}

theorem Store.noteIdForRemoteId_eq_some {s : Store} (h : s.noteIdForRemoteId remoteId = some id) :
    ∃ n ∈ s.rows, n.id = id ∧ n.remoteId = some remoteId := by
  obtain ⟨n, hn, rfl⟩ := Option.map_eq_some_iff.mp h
  exact ⟨n, List.mem_of_find?_eq_some hn, rfl, by simpa using List.find?_some hn⟩

/-- The three ways an apply goes through: the remote id is known, a row is
    inserted, or the row with the content is stamped. -/
theorem Store.applyRemoteNote_cases (h : s.applyRemoteNote env uuid e = some (inserted, s')) :
    (∃ id, s.noteIdForRemoteId e.id = some id ∧ inserted = false
        ∧ s' = if e.archived then (s.archive id).2 else s)
    ∨ (inserted = true ∧ s.insertOrRecover env (pulledRow env uuid e) [] []
        = some (uuid, true, s'))
    ∨ ∃ id s₁ s₂, inserted = false
        ∧ s.insertOrRecover env (pulledRow env uuid e) [] [] = some (id, false, s₁)
        ∧ s₁.setRemoteId id e.id = some s₂
        ∧ s' = if e.archived then (s₂.archive id).2 else s₂ := by
  unfold Store.applyRemoteNote at h
  split at h
  -- the remote id is known; else the content decides whether a row goes in
  case h_1 existing hknown =>
    simp only [Option.some.injEq, Prod.mk.injEq] at h
    exact .inl ⟨existing, hknown, h.1.symm, h.2.symm⟩
  case h_2 =>
    obtain ⟨⟨id, created, s₁⟩, hins, hrest⟩ := Option.bind_eq_some_iff.mp h
    cases created with
    | true =>
      simp only [if_true, Option.some.injEq, Prod.mk.injEq] at hrest
      obtain ⟨rfl, rfl⟩ := hrest
      have hid : id = uuid := by
        rcases Store.insertOrRecover_cases hins with ⟨-, hid, -⟩ | ⟨hfalse, -⟩
        · exact hid
        · exact absurd hfalse (by simp)
      exact .inr (.inl ⟨rfl, hid ▸ hins⟩)
    | false =>
      obtain ⟨s₂, hset, heq⟩ := Option.map_eq_some_iff.mp hrest
      simp only [Prod.mk.injEq] at heq
      exact .inr (.inr ⟨id, s₁, s₂, heq.1.symm, hins, hset, heq.2.symm⟩)

theorem Store.keeps_archive_if (s : Store) (id : NoteId) (b : Bool) :
    s.Keeps (if b then (s.archive id).2 else s) := by
  split
  · exact s.keeps_archive id
  · exact .refl s

theorem Store.keeps_applyRemoteNote
    (h : s.applyRemoteNote env uuid e = some (inserted, s')) : s.Keeps s' := by
  rcases Store.applyRemoteNote_cases h with ⟨id, -, -, rfl⟩ | ⟨-, hins⟩
    | ⟨id, s₁, s₂, -, hins, hset, rfl⟩
  · exact s.keeps_archive_if id _
  · exact Store.keeps_insertOrRecover hins
  · exact ((Store.keeps_insertOrRecover hins).trans (Store.keeps_setRemoteId hset)).trans
      (s₂.keeps_archive_if id _)

theorem Store.holds_applyRemoteNote
    (h : s.applyRemoteNote env uuid e = some (inserted, s')) : s'.Holds env.sha e := by
  have hent {id : NoteId} {created : Bool} {s₁ : Store}
      (hins : s.insertOrRecover env (pulledRow env uuid e) [] [] = some (id, created, s₁)) :
      s₁.Holds env.sha e := by
    obtain ⟨n, hn, -, hne⟩ :=
      Store.entityOf_eq_some_iff.mp (Store.entityOf_insertOrRecover_self hins)
    exact ⟨n, hn, .inr hne⟩
  rcases Store.applyRemoteNote_cases h with ⟨id, hknown, -, rfl⟩ | ⟨-, hins⟩
    | ⟨id, s₁, s₂, -, hins, hset, rfl⟩
  · obtain ⟨n, hn, -, hrem⟩ := Store.noteIdForRemoteId_eq_some hknown
    have hheld : s.Holds env.sha e := ⟨n, hn, .inl hrem⟩
    exact (s.keeps_archive_if id _).holds hheld
  · exact hent hins
  · exact ((Store.keeps_setRemoteId hset).trans (s₂.keeps_archive_if id _)).holds (hent hins)

/-! ## Writes as one operation -/

/-- What writes a local store: the memory commands, and the processes that sync it,
    which stamp what was pushed and apply what was pulled. -/
inductive LocalWrite where
  | add (uuid : NoteId) (now : Int) (input : RowInput)
  | addSuperseding (uuid : NoteId) (now sqlNow : Int) (input : RowInput) (oldId : NoteId)
  | archive (id : NoteId)
  | supersede (now : Int) (oldId newId : NoteId)
  | stamp (id : NoteId) (remoteId : String)
  | pull (uuid : NoteId) (e : RemoteEntry)

/-- A write that fails leaves the store as it was. -/
def applyWrite (env : StoreEnv) (s : Store) : LocalWrite → Store
  | .add uuid now input => ((s.addNote env uuid now input).map fun r => r.2.2).getD s
  | .addSuperseding uuid now sqlNow input oldId =>
    ((s.addNoteSuperseding env uuid now sqlNow input oldId).map fun r => r.2.2).getD s
  | .archive id => (s.archive id).2
  | .supersede now oldId newId => (s.supersede now oldId newId).2
  | .stamp id remoteId => (s.setRemoteId id remoteId).getD s
  | .pull uuid e => ((s.applyRemoteNote env uuid e).map Prod.snd).getD s

theorem keeps_applyWrite (env : StoreEnv) (s : Store) (op : LocalWrite) :
    s.Keeps (applyWrite env s op) := by
  cases op with
  | add uuid now input =>
    show s.Keeps (((s.addNote env uuid now input).map _).getD s)
    cases h : s.addNote env uuid now input with
    | none => exact .refl s
    | some r => exact Store.keeps_insertOrRecover h
  | addSuperseding uuid now sqlNow input oldId =>
    show s.Keeps (((s.addNoteSuperseding env uuid now sqlNow input oldId).map _).getD s)
    cases h : s.addNoteSuperseding env uuid now sqlNow input oldId with
    | none => exact .refl s
    | some r => exact Store.keeps_addNoteSuperseding h
  | archive id => exact s.keeps_archive id
  | supersede now oldId newId => exact s.keeps_supersede now oldId newId
  | stamp id remoteId =>
    show s.Keeps ((s.setRemoteId id remoteId).getD s)
    cases h : s.setRemoteId id remoteId with
    | none => exact .refl s
    | some s' => exact Store.keeps_setRemoteId h
  | pull uuid e =>
    show s.Keeps (((s.applyRemoteNote env uuid e).map Prod.snd).getD s)
    cases h : s.applyRemoteNote env uuid e with
    | none => exact .refl s
    | some r => exact Store.keeps_applyRemoteNote h

/-- A machine whose hash keeps the text it is given, and whose tags and paths are
    stored as they are spelt. -/
def plainEnv : StoreEnv := ⟨fun text => text, some, some⟩

end Memory
end Inkentry
