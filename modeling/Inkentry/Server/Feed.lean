/-
  Inkentry.Server.Feed

  One project's entries on the team server, as its sync clients see them: the
  delta pull (`GET memory/since`), which returns the active entries after a
  cursor, and the batch push (`POST memory/batch`), which stores entries once
  per external id.

  `sync_id` is the identity the pull cursor runs over.  The server mints it on
  arrival; a restoring push supplies one of its own, which may sort anywhere.
-/

import Mathlib.Data.String.Basic
import Inkentry.Lib.Cursor
import Inkentry.Lib.OrderLimit
import Inkentry.Memory.Sync

namespace Inkentry
namespace Server

open OrderLimit Memory Cursor

/-! ## Entries -/

/-- The all-zero UUID, which sorts before every UUIDv7. -/
def nilUuid : String := "00000000-0000-0000-0000-000000000000"

/-- A UUIDv7. -/
structure SyncId where
  token : String
  afterNil : nilUuid < token
  deriving DecidableEq

/-- A row of the project's entries. -/
structure ServerEntry where
  syncId : SyncId
  kind : String
  title : String
  body : String
  sourceCommit : Option String
  createdAt : Int
  /-- The pushing client's own id for the entry, the key pushes are idempotent on. -/
  externalId : Option String
  active : Bool
  deriving DecidableEq

/-- The token a cursor compares. -/
def ServerEntry.id (e : ServerEntry) : String := e.syncId.token

/-- The entry as a delta pull returns it. -/
def ServerEntry.toRemote (e : ServerEntry) : RemoteEntry where
  id := e.id
  kind := e.kind
  title := e.title
  body := if e.body.isEmpty then none else some e.body
  sourceCommit := e.sourceCommit
  createdAt := e.createdAt
  archived := false

/-- The project's rows in arrival order. -/
structure Feed where
  entries : List ServerEntry
  idUnique : (entries.map ServerEntry.id).Nodup
  externalUnique : (entries.filterMap ServerEntry.externalId).Nodup

def Feed.empty : Feed := ⟨[], List.nodup_nil, List.nodup_nil⟩

/-! ## The delta pull -/

/-- What the pull asks for a page. -/
def memorySincePullLimit : Int := 100

/-- The active entries after a cursor, by id. -/
def Feed.notesSinceId (f : Feed) (cursor : String) (limit : Int) : List ServerEntry :=
  orderLimit ServerEntry.id (max 1 (min limit 500)).toNat
    (f.entries.filter fun e => e.active && cursor < e.id)

/-- The number of active entries, sent along with every page. -/
def Feed.activeNoteCount (f : Feed) : Nat := f.entries.countP ServerEntry.active

/-- One page of the pull; no cursor starts at the beginning. -/
def Feed.pullSince (f : Feed) (cursor : Option String) : List RemoteEntry :=
  (f.notesSinceId (cursor.getD nilUuid) memorySincePullLimit).map ServerEntry.toRemote

/-! ## Writes -/

/-- A new row; `none` when a unique index refuses it. -/
def Feed.insert (f : Feed) (e : ServerEntry) : Option Feed :=
  if h : e.id ∉ f.entries.map ServerEntry.id
      ∧ ∀ x ∈ e.externalId, x ∉ f.entries.filterMap ServerEntry.externalId then
    some
      { entries := f.entries ++ [e]
        idUnique := by
          rw [List.map_append, List.map_singleton]
          exact f.idUnique.append (List.nodup_singleton _) (by simpa using h.1)
        externalUnique := by
          rw [List.filterMap_append]
          cases hx : e.externalId with
          | none => simpa [hx] using f.externalUnique
          | some x =>
            have hnotin := h.2 x hx
            rw [List.filterMap_cons_some hx, List.filterMap_nil]
            exact f.externalUnique.append (List.nodup_singleton _) (by simpa using hnotin) }
  else none

/-- Archives the entry with an id. -/
def Feed.archive (f : Feed) (id : String) : Feed where
  entries := f.entries.map fun e => if e.id = id then { e with active := false } else e
  idUnique := by
    have hmap : (f.entries.map fun e => if e.id = id then { e with active := false } else e).map
        ServerEntry.id = f.entries.map ServerEntry.id := by
      rw [List.map_map]
      refine List.map_congr_left fun e _ => ?_
      show (if e.id = id then { e with active := false } else e).id = e.id
      split <;> rfl
    rw [hmap]
    exact f.idUnique
  externalUnique := by
    have hmap : (f.entries.map fun e => if e.id = id then { e with active := false } else e).filterMap
        ServerEntry.externalId = f.entries.filterMap ServerEntry.externalId := by
      rw [List.filterMap_map]
      refine List.filterMap_congr fun e _ => ?_
      show (if e.id = id then { e with active := false } else e).externalId = e.externalId
      split <;> rfl
    rw [hmap]
    exact f.externalUnique

/-- One entry of a batch push. -/
structure BatchPushItem where
  /-- A restoring push's own id for the entry. -/
  id : Option SyncId
  kind : String
  title : String
  body : Option String
  externalId : String
  sourceCommit : Option String
  deriving DecidableEq

/-- One outcome of a batch push. -/
structure BatchItemResult where
  status : String
  externalId : String
  id : Option String
  deriving DecidableEq, Repr

/-- The row a pushed entry is stored as. -/
def BatchPushItem.toEntry (item : BatchPushItem) (minted : SyncId) (now : Int) : ServerEntry where
  syncId := item.id.getD minted
  kind := item.kind
  title := item.title
  body := item.body.getD ""
  sourceCommit := item.sourceCommit
  createdAt := now
  externalId := some item.externalId
  active := true

/-- The active entry pushed under an external id. -/
def Feed.findByRemoteId (f : Feed) (externalId : String) : Option ServerEntry :=
  f.entries.find? fun e => e.active && e.externalId = some externalId

/-- Stores one entry of a batch, or finds it stored; `none` when the insert fails. -/
def Feed.pushItem (f : Feed) (now : Int) (minted : SyncId) (item : BatchPushItem) :
    Option (BatchItemResult × Feed) :=
  match f.findByRemoteId item.externalId with
  | some existing => some (⟨"skipped", item.externalId, some existing.id⟩, f)
  | none => (f.insert (item.toEntry minted now)).map fun f' =>
      (⟨"created", item.externalId, some (item.toEntry minted now).id⟩, f')

/-- A batch push.  A failed insert ends it with an error, and what was stored
    before it stays. -/
def Feed.pushMemoryBatch (f : Feed) (now : Int) :
    List (SyncId × BatchPushItem) → Option (List BatchItemResult) × Feed
  | [] => (some [], f)
  | (minted, item) :: items =>
    match f.pushItem now minted item with
    | none => (none, f)
    | some (result, f') =>
      let (results, f'') := f'.pushMemoryBatch now items
      (results.map (result :: ·), f'')

/-! ## Pages -/

variable {e : ServerEntry}

theorem mem_notesSinceId {f : Feed} {cursor : String} {limit : Int}
    (h : e ∈ f.notesSinceId cursor limit) : e ∈ f.entries ∧ e.active = true ∧ cursor < e.id := by
  have hmem := List.mem_filter.mp (mem_of_mem_orderLimit _ h)
  simpa using hmem

theorem mem_notesSinceId_of_le {f : Feed} {cursor : String} {limit : Int} {e p : ServerEntry}
    (hp : p ∈ f.notesSinceId cursor limit) (he : e ∈ f.entries) (hact : e.active = true)
    (hcur : cursor < e.id) (hle : e.id ≤ p.id) : e ∈ f.notesSinceId cursor limit := by
  rcases hle.lt_or_eq with hlt | heq
  · exact mem_orderLimit_of_lt _ hp (List.mem_filter.mpr ⟨he, by simp [hact, hcur]⟩) hlt
  · have hpe : p = e := List.inj_on_of_nodup_map f.idUnique (mem_notesSinceId hp).1 he heq.symm
    exact hpe ▸ hp

theorem notesSinceId_pairwise (f : Feed) (cursor : String) (limit : Int) :
    (f.notesSinceId cursor limit).Pairwise fun a b => a.id < b.id := by
  have hnodup : ((f.notesSinceId cursor limit).map ServerEntry.id).Nodup := by
    refine List.Nodup.sublist (List.Sublist.map _ (List.take_sublist _ _)) ?_
    refine ((sortBy_perm ServerEntry.id _).map ServerEntry.id).nodup_iff.mpr ?_
    exact f.idUnique.sublist (List.Sublist.map _ List.filter_sublist)
  have hle := orderLimit_pairwise ServerEntry.id (max 1 (min limit 500)).toNat
    (f.entries.filter fun e => e.active && cursor < e.id)
  exact (hle.and (List.pairwise_map.mp hnodup)).imp fun h => lt_of_le_of_ne h.1 h.2

/-! ## Entries stay as they were pushed -/

variable {cursor : Option String} {f f' : Feed} {sha : String → String}
variable {r : RemoteEntry}

/-- A pulled entry is what the server sends for one of its rows. -/
def Feed.Sends (f : Feed) (r : RemoteEntry) : Prop := ∃ e ∈ f.entries, e.toRemote = r

/-- Every row survives, with what a pull sends for it. -/
def Feed.Extends (f f' : Feed) : Prop :=
  ∀ e ∈ f.entries, ∃ e' ∈ f'.entries, e'.toRemote = e.toRemote

theorem Feed.Extends.sends (h : f.Extends f') (hr : f.Sends r) : f'.Sends r := by
  obtain ⟨e, he, rfl⟩ := hr
  exact h e he

@[simp] theorem ServerEntry.toRemote_id (e : ServerEntry) : e.toRemote.id = e.id := rfl

@[simp] theorem ServerEntry.toRemote_archived (e : ServerEntry) : e.toRemote.archived = false := rfl

theorem mem_pullSince {f : Feed} (h : r ∈ f.pullSince cursor) : f.Sends r := by
  obtain ⟨e, he, rfl⟩ := List.mem_map.mp h
  exact ⟨e, (mem_notesSinceId he).1, rfl⟩

/-- The ids of the active entries. -/
def Feed.Live (f : Feed) (id : String) : Prop := ∃ e ∈ f.entries, e.active = true ∧ e.id = id

/-- A local store has the entry with an id. -/
def Feed.HeldBy (f : Feed) (sha : String → String) (s : Store) (id : String) : Prop :=
  ∃ e ∈ f.entries, e.id = id ∧ s.Holds sha e.toRemote

instance (f : Feed) (sha : String → String) (s : Store) (id : String) :
    Decidable (f.HeldBy sha s id) :=
  inferInstanceAs (Decidable (∃ e ∈ f.entries, e.id = id ∧ s.Holds sha e.toRemote))

theorem Feed.HeldBy.mono {s s' : Store} {id : String} (h : f.HeldBy sha s id) (hext : f.Extends f')
    (hkeep : s.Keeps s') : f'.HeldBy sha s' id := by
  obtain ⟨e, he, rfl, hholds⟩ := h
  obtain ⟨e', he', heq⟩ := hext e he
  refine ⟨e', he', congrArg RemoteEntry.id heq, ?_⟩
  rw [heq]
  exact hkeep.holds hholds

theorem Feed.HeldBy.holds {f : Feed} {s : Store} (h : f.HeldBy sha s e.id)
    (he : e ∈ f.entries) : s.Holds sha e.toRemote := by
  obtain ⟨e', he', hid, hholds⟩ := h
  rwa [List.inj_on_of_nodup_map f.idUnique he' he hid] at hholds

/-- A store that has applied what the server sends for an entry has the entry. -/
theorem Feed.Sends.heldBy {f : Feed} (hr : f.Sends r) {s : Store}
    (h : s.Holds sha r) : f.HeldBy sha s r.id := by
  obtain ⟨e, he, rfl⟩ := hr
  exact ⟨e, he, rfl, h⟩

/-- An insert that succeeds adds its row at the end, under an id not used before. -/
theorem Feed.insert_eq_some (h : f.insert e = some f') :
    f'.entries = f.entries ++ [e] ∧ e.id ∉ f.entries.map ServerEntry.id := by
  unfold Feed.insert at h
  split at h
  case isTrue hfresh =>
    rw [← Option.some.inj h]
    exact ⟨rfl, hfresh.1⟩
  case isFalse => exact absurd h (by simp)

theorem Feed.extends_insert (h : f.insert e = some f') : f.Extends f' := by
  intro e' he'
  refine ⟨e', ?_, rfl⟩
  rw [(Feed.insert_eq_some h).1]
  exact List.mem_append_left _ he'

theorem Feed.extends_archive (f : Feed) (id : String) : f.Extends (f.archive id) := by
  intro e he
  refine ⟨_, List.mem_map_of_mem he, ?_⟩
  by_cases hid : e.id = id
  · simp only [hid, if_true]
    rfl
  · simp [hid]

theorem Feed.pushItem_eq_some {now : Int} {minted : SyncId} {item : BatchPushItem}
    {result : BatchItemResult} (h : f.pushItem now minted item = some (result, f')) :
    f' = f ∨ f.insert (item.toEntry minted now) = some f' := by
  unfold Feed.pushItem at h
  split at h
  · exact .inl (Prod.mk.inj (Option.some.inj h)).2.symm
  · obtain ⟨f₁, hins, heq⟩ := Option.map_eq_some_iff.mp h
    exact .inr (by rw [hins, (Prod.mk.inj heq).2])

theorem Feed.Extends.refl (f : Feed) : f.Extends f := fun e he => ⟨e, he, rfl⟩

theorem Feed.Extends.trans {f f' f'' : Feed} (h : f.Extends f') (h' : f'.Extends f'') :
    f.Extends f'' := by
  intro e he
  obtain ⟨e', he', heq⟩ := h e he
  obtain ⟨e'', he'', heq'⟩ := h' e' he'
  exact ⟨e'', he'', heq'.trans heq⟩

/-! ## Pages against a cursor -/

theorem cursor_lt_of_not_passed (h : ¬ Passed cursor e.id) : cursor.getD nilUuid < e.id := by
  cases cursor with
  | none => exact e.syncId.afterNil
  | some c => exact not_le.mp fun hle => h ⟨c, rfl, hle⟩

theorem Feed.gapFree_pullSince (f : Feed) {live has : String → Prop}
    (hlive : ∀ id, live id → f.Live id) (h : Covers live has cursor) :
    GapFree live has ((f.pullSince cursor).map RemoteEntry.id) := by
  refine gapFree_of_covers h ?_
  intro id hid hahead y hy hle
  obtain ⟨e, he, hact, rfl⟩ := hlive id hid
  obtain ⟨r, hr, rfl⟩ := List.mem_map.mp hy
  obtain ⟨p, hp, rfl⟩ := List.mem_map.mp hr
  have hcur : cursor.getD nilUuid < e.id := by
    refine cursor_lt_of_not_passed ?_
    rintro ⟨c, hc, hle'⟩
    exact absurd hle' (not_le.mpr (hahead c hc))
  exact List.mem_map_of_mem (List.mem_map_of_mem (mem_notesSinceId_of_le hp he hact hcur hle))

theorem Feed.mem_pullSince_of_short (f : Feed)
    (hshort : ((f.pullSince cursor).length : Int) < memorySincePullLimit) {id : String}
    (hlive : f.Live id) (hnew : ¬ Passed cursor id) :
    id ∈ (f.pullSince cursor).map RemoteEntry.id := by
  obtain ⟨e, he, hact, rfl⟩ := hlive
  have hmem : e ∈ f.notesSinceId (cursor.getD nilUuid) memorySincePullLimit := by
    refine mem_orderLimit_of_length_lt _ ?_
      (List.mem_filter.mpr ⟨he, by simp [hact, cursor_lt_of_not_passed hnew]⟩)
    rw [Feed.pullSince, List.length_map, memorySincePullLimit] at hshort
    rw [memorySincePullLimit]
    show (f.notesSinceId (cursor.getD nilUuid) 100).length < 100
    omega
  exact List.mem_map_of_mem (List.mem_map_of_mem hmem)

theorem Feed.pullSince_pairwise (f : Feed) (cursor : Option String) :
    (f.pullSince cursor).Pairwise fun a b => a.id < b.id :=
  List.pairwise_map.mpr (notesSinceId_pairwise f _ _)

/-! ## Entries do not come back -/

/-- What writes may do to the feed: rows survive, and those that are there are not
    re-activated. -/
structure Feed.Follows (f f' : Feed) : Prop where
  ext : f.Extends f'
  live : ∀ id ∈ f.entries.map ServerEntry.id, f'.Live id → f.Live id

theorem Feed.Extends.mem_ids (h : f.Extends f') {id : String}
    (hid : id ∈ f.entries.map ServerEntry.id) : id ∈ f'.entries.map ServerEntry.id := by
  obtain ⟨e, he, rfl⟩ := List.mem_map.mp hid
  obtain ⟨e', he', heq⟩ := h e he
  exact List.mem_map.mpr ⟨e', he', congrArg RemoteEntry.id heq⟩

theorem Feed.Follows.refl (f : Feed) : f.Follows f := ⟨.refl f, fun _ _ h => h⟩

theorem Feed.Follows.trans {f f' f'' : Feed} (h : f.Follows f') (h' : f'.Follows f'') :
    f.Follows f'' :=
  ⟨h.ext.trans h'.ext, fun id hid hlive => h.live id hid (h'.live id (h.ext.mem_ids hid) hlive)⟩

theorem Feed.follows_insert (h : f.insert e = some f') : f.Follows f' := by
  obtain ⟨hentries, hfresh⟩ := Feed.insert_eq_some h
  refine ⟨Feed.extends_insert h, ?_⟩
  rintro id hid ⟨e', he', hact, rfl⟩
  rw [hentries] at he'
  rcases List.mem_append.mp he' with hold | hnew
  · exact ⟨e', hold, hact, rfl⟩
  · rw [List.mem_singleton.mp hnew] at hid
    exact absurd hid hfresh

theorem Feed.follows_pushMemoryBatch (f : Feed) (now : Int) (items : List (SyncId × BatchPushItem)) :
    f.Follows (f.pushMemoryBatch now items).2 := by
  induction items generalizing f with
  | nil => exact .refl f
  | cons item items ih =>
    obtain ⟨minted, item⟩ := item
    rw [Feed.pushMemoryBatch]
    cases hpush : f.pushItem now minted item with
    | none => exact .refl f
    | some pushed =>
      obtain ⟨result, f'⟩ := pushed
      have hstep : f.Follows f' := by
        rcases Feed.pushItem_eq_some hpush with rfl | hins
        · exact .refl _
        · exact Feed.follows_insert hins
      exact hstep.trans (ih f')

theorem Feed.mem_archive_of_active {f : Feed} {id : String} (he : e ∈ (f.archive id).entries)
    (hact : e.active = true) : e ∈ f.entries := by
  obtain ⟨e', he', rfl⟩ := List.mem_map.mp he
  by_cases hid : e'.id = id
  · simp [hid] at hact
  · simpa [hid] using he'

theorem Feed.follows_archive (f : Feed) (id : String) : f.Follows (f.archive id) := by
  refine ⟨f.extends_archive id, ?_⟩
  rintro x - ⟨e, he, hact, rfl⟩
  exact ⟨e, Feed.mem_archive_of_active he hact, hact, rfl⟩

end Server
end Inkentry
