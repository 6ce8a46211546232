/-
  Inkentry.Memory.PullOrder

  A list of pulled entries applied to a local store, in any order and with any
  repetitions.  What the store holds of a content afterwards depends on the set
  of the entries alone (`AfterPull`), with one exception: of several server ids
  that carry one content, the row keeps the one that came first.
-/

import Inkentry.Memory.Sync
import Mathlib.Data.Finset.Dedup

namespace Inkentry
namespace Memory

open SortedSet

variable {env : StoreEnv}

/-- Applies the entries in turn, each with the id it is inserted under. -/
def Store.applyRemoteNotes (env : StoreEnv) (s : Store) :
    List (NoteId × RemoteEntry) → Option Store
  | [] => some s
  | (uuid, e) :: rest =>
    (s.applyRemoteNote env uuid e).bind fun (_, s') => s'.applyRemoteNotes env rest

/-! ## Rows by content -/

variable {s : Store}
variable {n : Note} {remoteId : String}

theorem Store.mem_rows_iff : n ∈ s.rows ↔ s.rowForEntity? n.entityId = some n := by
  rw [Store.rowForEntity?_eq_some_iff]
  exact (and_iff_left rfl).symm

theorem Store.noteIdForRemoteId_eq_none_iff :
    s.noteIdForRemoteId remoteId = none ↔ ∀ n ∈ s.rows, n.remoteId ≠ some remoteId := by
  rw [Store.noteIdForRemoteId, Option.map_eq_none_iff, List.find?_eq_none]
  simp

/-! ## One entry -/

variable {e : RemoteEntry}
variable {uuid : NoteId} {id : NoteId}

/-- How a row is after an entry was applied to it. -/
structure Settled (e : RemoteEntry) (base n : Note) : Prop where
  id : n.id = base.id
  entityId : n.entityId = base.entityId
  status : n.status = if e.archived ∧ base.status = "active" then "archived" else base.status
  tags : n.tags.toFinset = base.tags.toFinset
  linkedFiles : n.linkedFiles.toFinset = base.linkedFiles.toFinset
  remoteId : n.remoteId = base.remoteId.or (some e.id)

theorem isActiveRow_iff : isActiveRow id n = true ↔ n.id = id ∧ n.status = "active" := by
  simp [isActiveRow]

/-- A row that has the remote id is settled by archiving it with the entry. -/
theorem Settled.of_archive_if {base m : Note} (hid : m.id = base.id)
    (hentity : m.entityId = base.entityId) (hstatus : m.status = base.status)
    (htags : m.tags.toFinset = base.tags.toFinset)
    (hfiles : m.linkedFiles.toFinset = base.linkedFiles.toFinset)
    (hremote : m.remoteId = base.remoteId.or (some e.id)) :
    Settled e base (if e.archived ∧ isActiveRow base.id m then { m with status := "archived" }
      else m) := by
  have hiff : (e.archived = true ∧ isActiveRow base.id m = true)
      ↔ e.archived = true ∧ base.status = "active" := by
    rw [isActiveRow_iff, hid, hstatus]
    simp
  by_cases h : e.archived = true ∧ base.status = "active"
  · rw [if_pos (hiff.mpr h)]
    exact ⟨hid, hentity, (if_pos h).symm, htags, hfiles, hremote⟩
  · rw [if_neg fun h' => h (hiff.mp h')]
    exact ⟨hid, hentity, hstatus.trans (if_neg h).symm, htags, hfiles, hremote⟩

/-- The row that an entry is inserted as, before it is settled. -/
def newRow (env : StoreEnv) (uuid : NoteId) (e : RemoteEntry) : Note :=
  { pulledRow env uuid e with status := "active", remoteId := none }

theorem toFinset_unionInto_nil (l : List String) : (unionInto l []).toFinset = l.toFinset := by
  ext x
  rw [unionInto, List.append_nil, List.mem_toFinset, List.mem_toFinset, mem_sortDedup]

theorem Store.rowForEntity?_archive_if (s : Store) (id : NoteId) (b : Bool) (k : String) :
    (if b then (s.archive id).2 else s).rowForEntity? k
      = (s.rowForEntity? k).map fun n =>
          if b ∧ isActiveRow id n then { n with status := "archived" } else n := by
  cases b with
  | false => simp
  | true =>
    show (s.edit archiveEdit (isActiveRow id)).rowForEntity? k = _
    rw [Store.rowForEntity?_edit]
    simp [archiveEdit]

theorem mem_filterMap_stampRows {rows : List Note} {remoteId r : String}
    (h : r ∈ (stampRows rows id remoteId).filterMap Note.remoteId) :
    r ∈ rows.filterMap Note.remoteId ∨ r = remoteId := by
  obtain ⟨n', hn', hr⟩ := List.mem_filterMap.mp h
  obtain ⟨n, hn, rfl⟩ := List.mem_map.mp hn'
  split at hr
  · exact .inr (Option.some.inj hr).symm
  · exact .inl (List.mem_filterMap.mpr ⟨n, hn, hr⟩)

theorem nodup_stampRows {rows : List Note} (hids : (rows.map Note.id).Nodup)
    (hremote : (rows.filterMap Note.remoteId).Nodup) (id : NoteId)
    (hfree : remoteId ∉ rows.filterMap Note.remoteId) :
    ((stampRows rows id remoteId).filterMap Note.remoteId).Nodup := by
  induction rows with
  | nil => exact List.nodup_nil
  | cons n rows ih =>
    rw [List.map_cons, List.nodup_cons] at hids
    have htail : (rows.filterMap Note.remoteId).Nodup ∧ remoteId ∉ rows.filterMap Note.remoteId := by
      cases hr : n.remoteId with
      | none =>
        rw [List.filterMap_cons_none hr] at hremote hfree
        exact ⟨hremote, hfree⟩
      | some r =>
        rw [List.filterMap_cons_some hr] at hremote hfree
        exact ⟨(List.nodup_cons.mp hremote).2, fun h => hfree (List.mem_cons_of_mem _ h)⟩
    have hrest := ih hids.2 htail.1 htail.2
    show ((if n.id = id ∧ n.remoteId = none then { n with remoteId := some remoteId } else n)
      :: stampRows rows id remoteId |>.filterMap Note.remoteId).Nodup
    split
    case isTrue hstamp =>
      -- the other rows have other ids
      have hsame : stampRows rows id remoteId = rows := by
        refine (List.map_congr_left fun m hm => if_neg fun h => ?_).trans (List.map_id _)
        exact hids.1 (hstamp.1.trans h.1.symm ▸ List.mem_map_of_mem hm)
      have hsome : Note.remoteId { n with remoteId := some remoteId } = some remoteId := rfl
      rw [hsame, List.filterMap_cons_some hsome, List.nodup_cons]
      exact ⟨htail.2, htail.1⟩
    case isFalse =>
      cases hr : n.remoteId with
      | none =>
        rw [List.filterMap_cons_none hr]
        exact hrest
      | some r =>
        rw [List.filterMap_cons_some hr] at hremote hfree ⊢
        refine List.nodup_cons.mpr ⟨fun hmem => ?_, hrest⟩
        rcases mem_filterMap_stampRows hmem with hold | hnew
        · exact (List.nodup_cons.mp hremote).1 hold
        · exact hfree (hnew ▸ List.mem_cons_self ..)

theorem Store.exists_setRemoteId (s : Store) (id : NoteId)
    (hfree : ∀ n ∈ s.rows, n.remoteId ≠ some remoteId) :
    ∃ s', s.setRemoteId id remoteId = some s' ∧ s'.rows = stampRows s.rows id remoteId := by
  have hnotin : remoteId ∉ s.rows.filterMap Note.remoteId := by
    intro hmem
    obtain ⟨n, hn, hr⟩ := List.mem_filterMap.mp hmem
    exact hfree n hn hr
  exact ⟨_, dif_pos (nodup_stampRows s.uuidUnique s.remoteUnique id hnotin), rfl⟩

theorem Store.rowForEntity?_of_stamp {s s' : Store} (h : s'.rows = stampRows s.rows id remoteId)
    (k : String) :
    s'.rowForEntity? k = (s.rowForEntity? k).map fun n =>
      if n.id = id ∧ n.remoteId = none then { n with remoteId := some remoteId } else n := by
  rw [Store.rowForEntity?, Store.rowForEntity?, h, stampRows, List.find?_map]
  congr 2
  funext n
  rw [Function.comp_apply]
  split <;> rfl

theorem Store.rowForEntity?_of_insert {s s' : Store} (h : s'.rows = s.rows ++ [n])
    (k : String) : s'.rowForEntity? k
      = (s.rowForEntity? k).or (if n.entityId = k then some n else none) := by
  rw [Store.rowForEntity?, Store.rowForEntity?, h, List.find?_append]
  congr 1
  by_cases hk : n.entityId = k <;> simp [hk]

theorem Store.rowForEntity?_attach_nil (s : Store) (id : NoteId) (k : String) :
    (s.attachTagsAndFiles env id [] []).rowForEntity? k = (s.rowForEntity? k).map fun n =>
      if n.id = id then { n with
        tags := unionInto n.tags []
        linkedFiles := unionInto n.linkedFiles [] } else n := by
  rw [Store.attachTagsAndFiles, Store.rowForEntity?_edit]
  simp [attachEdit]

theorem Store.eq_of_id_eq {m n : Note} (hm : m ∈ s.rows) (hn : n ∈ s.rows)
    (h : m.id = n.id) : m = n :=
  List.inj_on_of_nodup_map s.uuidUnique hm hn h

theorem Store.eq_of_remoteId_eq {m n : Note} (hm : m ∈ s.rows) (hn : n ∈ s.rows) {r : String}
    (h : m.remoteId = some r) (h' : n.remoteId = some r) : m = n := by
  have hpairs := List.pairwise_filterMap.mp s.remoteUnique
  have hsymm : Std.Symm fun a b : Note =>
      ∀ x, a.remoteId = some x → ∀ y, b.remoteId = some y → x ≠ y :=
    ⟨fun a b h x hx y hy => (h y hy x hx).symm⟩
  by_contra hne
  exact hpairs.forall hm hn hne r h r h' rfl

/-- A rewrite of the row of one id leaves the rows of the other contents. -/
theorem Store.map_rowForEntity?_of_ne (hn : n ∈ s.rows) {f : Note → Note}
    (hf : ∀ m, m.id ≠ n.id → f m = m) {k : String} (hk : k ≠ n.entityId) :
    (s.rowForEntity? k).map f = s.rowForEntity? k := by
  cases hrow : s.rowForEntity? k with
  | none => rfl
  | some m =>
    obtain ⟨hm, hmk⟩ := Store.rowForEntity?_eq_some_iff.mp hrow
    have hne : m.id ≠ n.id := fun h => hk (by rw [← hmk, Store.eq_of_id_eq hm hn h])
    rw [Option.map_some, hf m hne]

theorem Store.map_rowForEntity?_self (hn : n ∈ s.rows) (f : Note → Note) :
    (s.rowForEntity? n.entityId).map f = some (f n) := by
  rw [Store.mem_rows_iff.mp hn, Option.map_some]

theorem Store.applyRemoteNote_known (hn : n ∈ s.rows) (hremote : n.remoteId = some e.id)
    (uuid : NoteId) :
    ∃ s', s.applyRemoteNote env uuid e = some (false, s')
      ∧ (∀ k ≠ n.entityId, s'.rowForEntity? k = s.rowForEntity? k)
      ∧ ∃ n', s'.rowForEntity? n.entityId = some n' ∧ Settled e n n' := by
  have hid : s.noteIdForRemoteId e.id = some n.id := by
    cases hfound : s.noteIdForRemoteId e.id with
    | none => exact absurd hremote (Store.noteIdForRemoteId_eq_none_iff.mp hfound n hn)
    | some id =>
      obtain ⟨m, hm, rfl, hmremote⟩ := Store.noteIdForRemoteId_eq_some hfound
      rw [Store.eq_of_remoteId_eq hm hn hmremote hremote]
  refine ⟨if e.archived then (s.archive n.id).2 else s, ?_, ?_, ?_⟩
  · simp only [Store.applyRemoteNote, hid]
  · intro k hk
    rw [Store.rowForEntity?_archive_if]
    refine Store.map_rowForEntity?_of_ne hn (fun m hm => if_neg fun h => hm ?_) hk
    exact (isActiveRow_iff.mp h.2).1
  · rw [Store.rowForEntity?_archive_if, Store.map_rowForEntity?_self hn]
    exact ⟨_, rfl, .of_archive_if rfl rfl rfl rfl rfl (by rw [hremote]; rfl)⟩

/-- An entry whose remote id no row carries, and whose content a row holds. -/
theorem Store.applyRemoteNote_collision (hn : n ∈ s.rows)
    (hfree : ∀ m ∈ s.rows, m.remoteId ≠ some e.id) (hentity : n.entityId = e.entityId env.sha)
    (uuid : NoteId) :
    ∃ s', s.applyRemoteNote env uuid e = some (false, s')
      ∧ (∀ k ≠ n.entityId, s'.rowForEntity? k = s.rowForEntity? k)
      ∧ ∃ n', s'.rowForEntity? n.entityId = some n' ∧ Settled e n n' := by
  obtain ⟨s₁, hs₁⟩ : ∃ s₁, s₁ = s.attachTagsAndFiles env n.id [] [] := ⟨_, rfl⟩
  have hins : s.insertOrRecover env (pulledRow env uuid e) [] [] = some (n.id, false, s₁) := by
    rw [hs₁]
    exact Store.insertOrRecover_of_mem env (pulledRow env uuid e) [] [] hn hentity
  have hfree₁ : ∀ m ∈ s₁.rows, m.remoteId ≠ some e.id := by
    intro m hm
    rw [hs₁, Store.attachTagsAndFiles, Store.edit_rows] at hm
    obtain ⟨m₀, hm₀, rfl⟩ := List.mem_map.mp hm
    split
    · exact hfree m₀ hm₀
    · exact hfree m₀ hm₀
  obtain ⟨s₂, hset, hrows⟩ := s₁.exists_setRemoteId n.id hfree₁
  have hnone := Store.noteIdForRemoteId_eq_none_iff.mpr hfree
  -- recover the row, stamp it with the remote id, archive it
  have hrow : ∀ k, (if e.archived then (s₂.archive n.id).2 else s₂).rowForEntity? k
      = (((s.rowForEntity? k).map fun m => if m.id = n.id then { m with
          tags := unionInto m.tags []
          linkedFiles := unionInto m.linkedFiles [] } else m).map fun m =>
        if m.id = n.id ∧ m.remoteId = none then { m with remoteId := some e.id } else m).map fun m =>
          if e.archived ∧ isActiveRow n.id m then { m with status := "archived" } else m := by
    intro k
    rw [Store.rowForEntity?_archive_if, Store.rowForEntity?_of_stamp hrows, hs₁,
      Store.rowForEntity?_attach_nil]
  refine ⟨if e.archived then (s₂.archive n.id).2 else s₂, ?_, ?_, ?_⟩
  · simp only [Store.applyRemoteNote, hnone, hins, Option.bind_some, Bool.false_eq_true, if_false,
      hset, Option.map_some]
  · intro k hk
    rw [hrow, Option.map_map, Option.map_map]
    refine Store.map_rowForEntity?_of_ne hn (fun m hm => ?_) hk
    have hinactive : ¬(e.archived = true ∧ isActiveRow n.id m = true) :=
      fun h => hm (isActiveRow_iff.mp h.2).1
    simp only [Function.comp_apply, hm, false_and, if_false, if_neg hinactive]
  · rw [hrow, Option.map_map, Option.map_map, Store.map_rowForEntity?_self hn]
    refine ⟨_, rfl, ?_⟩
    refine Settled.of_archive_if ?_ ?_ ?_ ?_ ?_ ?_
    all_goals simp only [if_pos, true_and]
    all_goals by_cases hremote : n.remoteId = none
    all_goals simp only [hremote, if_pos, if_false, Option.none_or]
    · exact toFinset_unionInto_nil n.tags
    · exact toFinset_unionInto_nil n.tags
    · exact toFinset_unionInto_nil n.linkedFiles
    · exact toFinset_unionInto_nil n.linkedFiles
    · obtain ⟨r, hr⟩ := Option.ne_none_iff_exists'.mp hremote
      rw [hr]
      rfl

/-- An entry whose remote id no row carries, and whose content none holds. -/
theorem Store.applyRemoteNote_new (hfresh : ∀ n ∈ s.rows, n.id ≠ uuid)
    (hfree : ∀ m ∈ s.rows, m.remoteId ≠ some e.id)
    (hentity : s.rowForEntity? (e.entityId env.sha) = none) :
    ∃ s', s.applyRemoteNote env uuid e = some (true, s')
      ∧ (∀ k ≠ e.entityId env.sha, s'.rowForEntity? k = s.rowForEntity? k)
      ∧ ∃ n', s'.rowForEntity? (e.entityId env.sha) = some n' ∧ Settled e (newRow env uuid e) n' := by
  have habsent : e.entityId env.sha ∉ s.rows.map Note.entityId := by
    intro hmem
    obtain ⟨n, hn, hk⟩ := List.mem_map.mp hmem
    rw [← hk, Store.mem_rows_iff.mp hn] at hentity
    exact absurd hentity (by simp)
  -- nothing the table has is in the way of the new row
  have hguard : (pulledRow env uuid e).id ∉ s.rows.map Note.id
      ∧ (pulledRow env uuid e).entityId ∉ s.rows.map Note.entityId
      ∧ ∀ r ∈ (pulledRow env uuid e).remoteId, r ∉ s.rows.filterMap Note.remoteId := by
    refine ⟨?_, habsent, ?_⟩
    · rintro hmem
      obtain ⟨n, hn, hid⟩ := List.mem_map.mp hmem
      exact hfresh n hn hid
    · rintro r hr hmem
      obtain ⟨n, hn, hnr⟩ := List.mem_filterMap.mp hmem
      exact hfree n hn (hnr.trans hr.symm)
  obtain ⟨s₁, hins, hrows⟩ : ∃ s₁, s.insertRow (pulledRow env uuid e) = some s₁
      ∧ s₁.rows = s.rows ++ [pulledRow env uuid e] := ⟨_, dif_pos hguard, rfl⟩
  have hnone := Store.noteIdForRemoteId_eq_none_iff.mpr hfree
  refine ⟨s₁.attachTagsAndFiles env uuid [] [], ?_, ?_, ?_⟩
  · simp only [Store.applyRemoteNote, hnone, Store.insertOrRecover_of_insert env hins,
      Option.bind_some, if_true]
    rfl
  · intro k hk
    rw [Store.rowForEntity?_attach_nil, Store.rowForEntity?_of_insert hrows,
      if_neg (show ¬(pulledRow env uuid e).entityId = k from hk.symm), Option.or_none]
    cases hrow : s.rowForEntity? k with
    | none => rfl
    | some m => rw [Option.map_some, if_neg (hfresh m (Store.rowForEntity?_eq_some_iff.mp hrow).1)]
  · rw [Store.rowForEntity?_attach_nil, Store.rowForEntity?_of_insert hrows, hentity, Option.none_or,
      if_pos (show (pulledRow env uuid e).entityId = e.entityId env.sha from rfl), Option.map_some,
      if_pos (show (pulledRow env uuid e).id = uuid from rfl)]
    refine ⟨_, rfl, ?_⟩
    refine ⟨rfl, rfl, ?_, toFinset_unionInto_nil [], toFinset_unionInto_nil [], rfl⟩
    show (if e.archived then "archived" else "active")
      = if e.archived ∧ "active" = "active" then "archived" else "active"
    simp

/-- What applying an entry does to the rows of all contents: it settles the row of one content, a
    new one if there is none, and leaves the others. -/
theorem Store.exists_applyRemoteNote (hfresh : ∀ n ∈ s.rows, n.id ≠ uuid) {k : String}
    (hknown : ∀ n ∈ s.rows, n.remoteId = some e.id → n.entityId = k)
    (hnew : (∀ n ∈ s.rows, n.remoteId ≠ some e.id) → e.entityId env.sha = k) :
    ∃ created s', s.applyRemoteNote env uuid e = some (created, s')
      ∧ (∀ k' ≠ k, s'.rowForEntity? k' = s.rowForEntity? k')
      ∧ ∃ n, s'.rowForEntity? k = some n
        ∧ Settled e ((s.rowForEntity? k).getD (newRow env uuid e)) n := by
  by_cases hheld : ∃ n ∈ s.rows, n.remoteId = some e.id
  · obtain ⟨n, hn, hremote⟩ := hheld
    obtain rfl := hknown n hn hremote
    rw [Store.mem_rows_iff.mp hn]
    exact ⟨false, Store.applyRemoteNote_known hn hremote uuid⟩
  · have hfree : ∀ n ∈ s.rows, n.remoteId ≠ some e.id := fun n hn h => hheld ⟨n, hn, h⟩
    obtain rfl := hnew hfree
    cases hrow : s.rowForEntity? (e.entityId env.sha) with
    | none => exact ⟨true, Store.applyRemoteNote_new hfresh hfree hrow⟩
    | some n =>
      obtain ⟨hn, hentity⟩ := Store.rowForEntity?_eq_some_iff.mp hrow
      rw [← hentity]
      exact ⟨false, Store.applyRemoteNote_collision hn hfree hentity uuid⟩

/-! ## A list of entries -/

variable {entries : List RemoteEntry}

/-- The content whose row an entry is for: the one that carries its remote id already, or its own. -/
def Store.target (sha : String → String) (s : Store) (e : RemoteEntry) : String :=
  ((s.rows.find? fun n => n.remoteId = some e.id).map Note.entityId).getD (e.entityId sha)

/-- Equal remote ids are ids of equal content. -/
def OneContent (sha : String → String) (entries : List RemoteEntry) : Prop :=
  ∀ e ∈ entries, ∀ e' ∈ entries, e.id = e'.id → e.entityId sha = e'.entityId sha

/-- The row of a content after entries were applied to it, given the row before. -/
structure PulledRow (entries : List RemoteEntry) (before : Option Note) (n : Note) : Prop where
  id : ∀ n₀ ∈ before, n.id = n₀.id
  status : n.status = if (∃ e ∈ entries, e.archived = true) ∧ before.elim "active" Note.status = "active"
    then "archived" else before.elim "active" Note.status
  tags : n.tags.toFinset = (before.elim [] Note.tags).toFinset
  linkedFiles : n.linkedFiles.toFinset = (before.elim [] Note.linkedFiles).toFinset
  /-- A remote id that the row had stays. -/
  kept : ∀ r, before.bind Note.remoteId = some r → n.remoteId = some r
  /-- Another one is one of the entries'. -/
  taken : before.bind Note.remoteId = none → ∀ r, n.remoteId = some r → ∃ e ∈ entries, e.id = r
  stamped : entries ≠ [] → n.remoteId ≠ none

/-- The entries for one content. -/
def Store.entriesFor (sha : String → String) (s : Store) (entries : List RemoteEntry) (k : String) :
    List RemoteEntry :=
  entries.filter fun e => s.target sha e = k

/-- The store after entries were applied: a row for each content that had one or that they are
    for. -/
structure AfterPull (sha : String → String) (s : Store) (entries : List RemoteEntry) (s' : Store) :
    Prop where
  absent : ∀ k, s'.rowForEntity? k = none
    ↔ s.rowForEntity? k = none ∧ s.entriesFor sha entries k = []
  row : ∀ k n, s'.rowForEntity? k = some n →
    PulledRow (s.entriesFor sha entries k) (s.rowForEntity? k) n

theorem PulledRow.of_row (n : Note) : PulledRow [] (some n) n where
  id := by simp
  status := by simp
  tags := rfl
  linkedFiles := rfl
  kept _ h := h
  taken h r hr := absurd (h.symm.trans hr) (by simp)
  stamped h := absurd rfl h

theorem PulledRow.of_newRow (uuid : NoteId) (e : RemoteEntry) :
    PulledRow [] none (newRow env uuid e) where
  id := by simp
  status := by simp [newRow]
  tags := rfl
  linkedFiles := rfl
  kept _ h := absurd h (by simp)
  taken _ r hr := absurd hr (by simp [newRow])
  stamped h := absurd rfl h

theorem PulledRow.settle {before : Option Note} {base n : Note} (h : PulledRow entries before base)
    (hn : Settled e base n) :
    PulledRow (entries ++ [e]) before n where
  id n₀ hn₀ := hn.id.trans (h.id n₀ hn₀)
  status := by
    have hany : (∃ e' ∈ entries ++ [e], e'.archived = true)
        ↔ (∃ e' ∈ entries, e'.archived = true) ∨ e.archived = true := by
      simp [or_and_right, exists_or]
    simp only [hn.status, h.status, hany]
    by_cases hactive : before.elim "active" Note.status = "active"
    · by_cases hold : ∃ e' ∈ entries, e'.archived = true
      · simp [hactive, hold]
      · simp [hactive, hold]
    · simp [hactive]
  tags := hn.tags.trans h.tags
  linkedFiles := hn.linkedFiles.trans h.linkedFiles
  kept r hr := by rw [hn.remoteId, h.kept r hr, Option.some_or]
  taken hnone r hr := by
    rw [hn.remoteId] at hr
    -- the first entry that finds the row unstamped gives it its id
    cases hbase : base.remoteId with
    | none =>
      rw [hbase, Option.none_or] at hr
      exact ⟨e, List.mem_append_right _ (List.mem_singleton_self e), Option.some.inj hr⟩
    | some r' =>
      rw [hbase, Option.some_or] at hr
      obtain ⟨e', he', hid⟩ := h.taken hnone r (hbase.trans hr)
      exact ⟨e', List.mem_append_left _ he', hid⟩
  stamped _ := by
    rw [hn.remoteId]
    cases base.remoteId <;> simp

variable {sha : String → String}

theorem Store.target_of_mem (hn : n ∈ s.rows)
    (h : n.remoteId = some e.id) : s.target sha e = n.entityId := by
  have hfind : s.rows.find? (fun m => m.remoteId = some e.id) = some n := by
    cases hfound : s.rows.find? (fun m => m.remoteId = some e.id) with
    | none =>
      rw [List.find?_eq_none] at hfound
      exact absurd h (by simpa using hfound n hn)
    | some m =>
      have hm : m.remoteId = some e.id := by simpa using List.find?_some hfound
      rw [Store.eq_of_remoteId_eq (List.mem_of_find?_eq_some hfound) hn hm h]
  rw [Store.target, hfind]
  rfl

theorem Store.target_of_free
    (h : ∀ n ∈ s.rows, n.remoteId ≠ some e.id) : s.target sha e = e.entityId sha := by
  have hfind : s.rows.find? (fun m => m.remoteId = some e.id) = none := by
    rw [List.find?_eq_none]
    simpa using h
  rw [Store.target, hfind]
  rfl

theorem Store.target_congr {e e' : RemoteEntry} (hid : e.id = e'.id)
    (hentity : e.entityId sha = e'.entityId sha) : s.target sha e = s.target sha e' := by
  rw [Store.target, Store.target, hid, hentity]

theorem AfterPull.refl (s : Store) : AfterPull sha s [] s where
  absent k := by simp [Store.entriesFor]
  row k n h := by
    rw [h]
    exact .of_row n

/-- A row that carries an entry's remote id is the row that the entry is for. -/
theorem AfterPull.entityId_eq {s s' : Store} (h : AfterPull sha s entries s')
    (hone : ∀ e' ∈ entries, e'.id = e.id → e'.entityId sha = e.entityId sha) (hn : n ∈ s'.rows)
    (hremote : n.remoteId = some e.id) : n.entityId = s.target sha e := by
  have hrow := h.row _ n (Store.mem_rows_iff.mp hn)
  cases hbefore : (s.rowForEntity? n.entityId).bind Note.remoteId with
  | some r =>
    obtain ⟨n₀, hn₀, hr⟩ := Option.bind_eq_some_iff.mp hbefore
    obtain ⟨hmem, hentity⟩ := Store.rowForEntity?_eq_some_iff.mp hn₀
    have hsame := hrow.kept r hbefore
    rw [hremote] at hsame
    rw [Store.target_of_mem hmem (hr.trans hsame.symm), hentity]
  | none =>
    obtain ⟨e', he', hid⟩ := hrow.taken hbefore e.id hremote
    obtain ⟨he', htarget⟩ := List.mem_filter.mp he'
    rw [← Store.target_congr hid (hone e' he' hid)]
    exact (of_decide_eq_true htarget).symm

/-- A remote id that a row had is still there. -/
theorem AfterPull.free {s s' : Store} (h : AfterPull sha s entries s') {r : String}
    (hfree : ∀ n ∈ s'.rows, n.remoteId ≠ some r) : ∀ n ∈ s.rows, n.remoteId ≠ some r := by
  intro n hn hremote
  have hbefore := Store.mem_rows_iff.mp hn
  cases hrow : s'.rowForEntity? n.entityId with
  | none =>
    have hnone := ((h.absent n.entityId).mp hrow).1
    exact absurd (hbefore.symm.trans hnone) (by simp)
  | some n' =>
    refine hfree n' (Store.rowForEntity?_eq_some_iff.mp hrow).1 ((h.row _ n' hrow).kept r ?_)
    rw [hbefore]
    exact hremote

/-- One more entry. -/
theorem AfterPull.step {s s' : Store} (h : AfterPull env.sha s entries s')
    (hfresh : ∀ n ∈ s'.rows, n.id ≠ uuid)
    (hone : ∀ e' ∈ entries, e'.id = e.id → e'.entityId env.sha = e.entityId env.sha) :
    ∃ created s'', s'.applyRemoteNote env uuid e = some (created, s'')
      ∧ AfterPull env.sha s (entries ++ [e]) s''
      ∧ ∀ n ∈ s''.rows, n.id = uuid ∨ ∃ m ∈ s'.rows, m.id = n.id := by
  -- an entry settles one row, its target; only what is said of that row changes
  obtain ⟨created, s'', happly, hothers, n, hn, hsettled⟩ :=
    Store.exists_applyRemoteNote hfresh (fun m hm hremote => h.entityId_eq hone hm hremote)
      (fun hfree => (Store.target_of_free (h.free hfree)).symm)
  have hself : s.entriesFor env.sha (entries ++ [e]) (s.target env.sha e)
      = s.entriesFor env.sha entries (s.target env.sha e) ++ [e] := by
    simp [Store.entriesFor, List.filter_append]
  have hother : ∀ k ≠ s.target env.sha e,
      s.entriesFor env.sha (entries ++ [e]) k = s.entriesFor env.sha entries k := by
    intro k hk
    simp [Store.entriesFor, List.filter_append, Ne.symm hk]
  refine ⟨created, s'', happly, ⟨fun k => ?_, fun k m hm => ?_⟩, fun m hm => ?_⟩
  · by_cases hk : k = s.target env.sha e
    · subst hk
      rw [hn, hself]
      simp
    · rw [hothers k hk, hother k hk]
      exact h.absent k
  · by_cases hk : k = s.target env.sha e
    · subst hk
      obtain rfl := Option.some.inj (hn.symm.trans hm)
      rw [hself]
      cases hbase : s'.rowForEntity? (s.target env.sha e) with
      | none =>
        obtain ⟨hbefore, hnil⟩ := (h.absent _).mp hbase
        rw [hbase] at hsettled
        rw [hbefore, hnil]
        exact (PulledRow.of_newRow uuid e).settle hsettled
      | some base =>
        rw [hbase] at hsettled
        exact (h.row _ base hbase).settle hsettled
    · rw [hothers k hk] at hm
      rw [hother k hk]
      exact h.row k m hm
  · by_cases hk : m.entityId = s.target env.sha e
    · have hrow := Store.mem_rows_iff.mp hm
      rw [hk, hn] at hrow
      obtain rfl := Option.some.inj hrow
      rw [hsettled.id]
      cases hbase : s'.rowForEntity? (s.target env.sha e) with
      | none => exact .inl rfl
      | some base => exact .inr ⟨base, (Store.rowForEntity?_eq_some_iff.mp hbase).1, rfl⟩
    · have hrow := Store.mem_rows_iff.mp hm
      rw [hothers _ hk] at hrow
      exact .inr ⟨m, Store.mem_rows_iff.mpr hrow, rfl⟩

/-- Ids for new rows: none is used yet, and none twice. -/
structure FreshIds (s : Store) (uuids : List NoteId) : Prop where
  unused : ∀ n ∈ s.rows, n.id ∉ uuids
  nodup : uuids.Nodup

/-- A list of entries, after others. -/
theorem AfterPull.run {s s' : Store} {done : List RemoteEntry} (h : AfterPull env.sha s done s')
    {pulls : List (NoteId × RemoteEntry)} (hfresh : FreshIds s' (pulls.map Prod.fst))
    (hone : OneContent env.sha (done ++ pulls.map Prod.snd)) :
    ∃ s₂, s'.applyRemoteNotes env pulls = some s₂
      ∧ AfterPull env.sha s (done ++ pulls.map Prod.snd) s₂ := by
  induction pulls generalizing s' done with
  | nil =>
    refine ⟨s', rfl, ?_⟩
    rw [List.map_nil, List.append_nil]
    exact h
  | cons pull pulls ih =>
    obtain ⟨uuid, e⟩ := pull
    obtain ⟨hunused, hnodup⟩ := hfresh
    rw [List.map_cons, List.nodup_cons] at hnodup
    have huuid : ∀ n ∈ s'.rows, n.id ≠ uuid :=
      fun n hn hid => hunused n hn (hid ▸ List.mem_cons_self ..)
    have honeStep : ∀ e' ∈ done, e'.id = e.id → e'.entityId env.sha = e.entityId env.sha :=
      fun e' he' => hone e' (List.mem_append_left _ he') e
        (List.mem_append_right _ (List.mem_cons_self ..))
    obtain ⟨created, s₁, happly, hafter, hids⟩ := h.step huuid honeStep
    -- a step adds at most the id it was given, so the later ones stay fresh
    have hfresh' : FreshIds s₁ (pulls.map Prod.fst) := by
      refine ⟨fun n hn hmem => ?_, hnodup.2⟩
      rcases hids n hn with hnew | ⟨m, hm, hold⟩
      · exact hnodup.1 (hnew ▸ hmem)
      · exact hunused m hm (hold ▸ List.mem_cons_of_mem _ hmem)
    have hcons : done ++ ((uuid, e) :: pulls).map Prod.snd = (done ++ [e]) ++ pulls.map Prod.snd := by
      rw [List.append_assoc]
      rfl
    rw [hcons] at hone ⊢
    obtain ⟨s₂, hrest, hfinal⟩ := ih hafter hfresh' hone
    refine ⟨s₂, ?_, hfinal⟩
    rw [Store.applyRemoteNotes, happly]
    exact hrest

/-! ## Two lists with the same entries -/

/-- A row that had no remote id, and entries for it under more than one. -/
def Contested (sha : String → String) (s : Store) (entries : List RemoteEntry) (k : String) : Prop :=
  (s.rowForEntity? k).bind Note.remoteId = none
    ∧ ∃ e ∈ s.entriesFor sha entries k, ∃ e' ∈ s.entriesFor sha entries k, e.id ≠ e'.id

/-- The rows of one store are rows of the other up to the local ids, and up to the remote id of a
    contested row. -/
def RowsAlike (sha : String → String) (s : Store) (entries : List RemoteEntry) (s₁ s₂ : Store) :
    Prop :=
  ∀ n ∈ s₁.rows, ∃ n' ∈ s₂.rows, n'.entityId = n.entityId ∧ n'.status = n.status
    ∧ n'.tags.toFinset = n.tags.toFinset ∧ n'.linkedFiles.toFinset = n.linkedFiles.toFinset
    ∧ (¬Contested sha s entries n.entityId → n'.remoteId = n.remoteId)

theorem mem_entriesFor_congr {entries entries' : List RemoteEntry}
    (hmem : ∀ e, e ∈ entries ↔ e ∈ entries') (k : String) (e : RemoteEntry) :
    e ∈ s.entriesFor sha entries k ↔ e ∈ s.entriesFor sha entries' k := by
  rw [Store.entriesFor, Store.entriesFor, List.mem_filter, List.mem_filter, hmem]

theorem AfterPull.rowsAlike {s s₁ s₂ : Store} {entries entries' : List RemoteEntry}
    (h : AfterPull sha s entries s₁) (h' : AfterPull sha s entries' s₂)
    (hmem : ∀ e, e ∈ entries ↔ e ∈ entries') : RowsAlike sha s entries s₁ s₂ := by
  intro n hn
  have hrow := h.row _ n (Store.mem_rows_iff.mp hn)
  have hsame : ∀ e, e ∈ s.entriesFor sha entries n.entityId
      ↔ e ∈ s.entriesFor sha entries' n.entityId := mem_entriesFor_congr hmem n.entityId
  have hnil : s.entriesFor sha entries n.entityId = [] ↔ s.entriesFor sha entries' n.entityId = [] := by
    rw [List.eq_nil_iff_forall_not_mem, List.eq_nil_iff_forall_not_mem]
    exact forall_congr' fun e => not_congr (hsame e)
  obtain ⟨n', hn'⟩ : ∃ n', s₂.rowForEntity? n.entityId = some n' := by
    rw [← Option.ne_none_iff_exists']
    intro hnone
    obtain ⟨hbefore, hempty⟩ := (h'.absent n.entityId).mp hnone
    have hgone := (h.absent n.entityId).mpr ⟨hbefore, hnil.mpr hempty⟩
    exact absurd ((Store.mem_rows_iff.mp hn).symm.trans hgone) (by simp)
  have hrow' := h'.row _ n' hn'
  obtain ⟨hmem', hentity⟩ := Store.rowForEntity?_eq_some_iff.mp hn'
  refine ⟨n', hmem', hentity, ?_, hrow'.tags.trans hrow.tags.symm,
    hrow'.linkedFiles.trans hrow.linkedFiles.symm, fun hcontested => ?_⟩
  · have harchived : (∃ e ∈ s.entriesFor sha entries' n.entityId, e.archived = true)
        ↔ ∃ e ∈ s.entriesFor sha entries n.entityId, e.archived = true :=
      exists_congr fun e => and_congr_left fun _ => (hsame e).symm
    simp only [hrow.status, hrow'.status, harchived]
  -- an unstamped row takes the id of an entry for it; uncontested, there is one such id
  · cases hbefore : (s.rowForEntity? n.entityId).bind Note.remoteId with
    | some r => rw [hrow.kept r hbefore, hrow'.kept r hbefore]
    | none =>
      by_cases hempty : s.entriesFor sha entries n.entityId = []
      · have hnone : ∀ {entries : List RemoteEntry} {m : Note},
            PulledRow entries (s.rowForEntity? n.entityId) m → entries = [] → m.remoteId = none := by
          intro entries m hm hnil
          refine Option.eq_none_iff_forall_ne_some.mpr fun r hr => ?_
          obtain ⟨e, he, -⟩ := hm.taken hbefore r hr
          exact List.ne_nil_of_mem he hnil
        rw [hnone hrow hempty, hnone hrow' (hnil.mp hempty)]
      · obtain ⟨r, hr⟩ := Option.ne_none_iff_exists'.mp (hrow.stamped hempty)
        obtain ⟨r', hr'⟩ := Option.ne_none_iff_exists'.mp
          (hrow'.stamped fun hnil' => hempty (hnil.mpr hnil'))
        obtain ⟨e, he, rfl⟩ := hrow.taken hbefore r hr
        obtain ⟨e', he', rfl⟩ := hrow'.taken hbefore r' hr'
        have hid : e.id = e'.id := by
          by_contra hne
          exact hcontested ⟨hbefore, e, he, e', (hsame e').mpr he', hne⟩
        rw [hr, hr', hid]

theorem AfterPull.archived {s s' : Store} (h : AfterPull sha s entries s') (hn : n ∈ s.rows)
    (hstatus : n.status = "archived") : ∃ n' ∈ s'.rows, n'.id = n.id ∧ n'.status = "archived" := by
  have hbefore := Store.mem_rows_iff.mp hn
  cases hrow : s'.rowForEntity? n.entityId with
  | none =>
    have hnone := ((h.absent n.entityId).mp hrow).1
    exact absurd (hbefore.symm.trans hnone) (by simp)
  | some n' =>
    have hpulled := h.row _ n' hrow
    rw [hbefore] at hpulled
    refine ⟨n', (Store.rowForEntity?_eq_some_iff.mp hrow).1, hpulled.id n rfl, ?_⟩
    rw [hpulled.status]
    simp [hstatus]

/-- Two lists with the same entries, in any order and with any repetitions, applied to one store:
    both go through, the rows are alike, no archived row is active again, and no two rows share a
    remote id or a content. -/
theorem appliedAlike {s : Store} {pulls pulls' : List (NoteId × RemoteEntry)}
    (hfresh : FreshIds s (pulls.map Prod.fst)) (hfresh' : FreshIds s (pulls'.map Prod.fst))
    (hone : OneContent env.sha (pulls.map Prod.snd))
    (hmem : ∀ e, e ∈ pulls.map Prod.snd ↔ e ∈ pulls'.map Prod.snd) :
    ∃ s₁ s₂, s.applyRemoteNotes env pulls = some s₁ ∧ s.applyRemoteNotes env pulls' = some s₂
      ∧ RowsAlike env.sha s (pulls.map Prod.snd) s₁ s₂
      ∧ RowsAlike env.sha s (pulls.map Prod.snd) s₂ s₁
      ∧ (∀ n ∈ s.rows, n.status = "archived" → ∃ n' ∈ s₁.rows, n'.id = n.id ∧ n'.status = "archived")
      ∧ (s₁.rows.filterMap Note.remoteId).Nodup ∧ (s₁.rows.map Note.entityId).Nodup := by
  have hone' : OneContent env.sha (pulls'.map Prod.snd) :=
    fun e he e' he' => hone e ((hmem e).mpr he) e' ((hmem e').mpr he')
  have hrefl : AfterPull env.sha s [] s := .refl s
  obtain ⟨s₁, happly, hafter⟩ := hrefl.run hfresh hone
  obtain ⟨s₂, happly', hafter'⟩ := hrefl.run hfresh' hone'
  rw [List.nil_append] at hafter hafter'
  have hback : RowsAlike env.sha s (pulls.map Prod.snd) s₂ s₁ := by
    intro n hn
    obtain ⟨n', hn', hentity, hstatus, htags, hfiles, hremote⟩ :=
      hafter'.rowsAlike hafter (fun e => (hmem e).symm) n hn
    refine ⟨n', hn', hentity, hstatus, htags, hfiles, fun hnot => hremote fun hcontested => hnot ?_⟩
    obtain ⟨hnone, e, he, e', he', hne⟩ := hcontested
    exact ⟨hnone, e, (mem_entriesFor_congr hmem _ e).mpr he, e',
      (mem_entriesFor_congr hmem _ e').mpr he', hne⟩
  exact ⟨s₁, s₂, happly, happly', hafter.rowsAlike hafter' hmem, hback,
    fun n hn hstatus => hafter.archived hn hstatus, s₁.remoteUnique, s₁.entityUnique⟩

/-- An entry of a team's server. -/
def cacheEntry (id : String) (archived : Bool) : RemoteEntry :=
  ⟨id, "decision", "Cache", some "keep it small", none, 1700000000, archived⟩

/-- One entry twice, and its tombstone, in two orders. -/
theorem appliedAlike_tombstone :
    ∃ s₁ s₂, Store.empty.applyRemoteNotes plainEnv
          [(⟨"a"⟩, cacheEntry "01" false), (⟨"b"⟩, cacheEntry "01" true)] = some s₁
      ∧ Store.empty.applyRemoteNotes plainEnv
          [(⟨"a"⟩, cacheEntry "01" true), (⟨"b"⟩, cacheEntry "01" false),
            (⟨"c"⟩, cacheEntry "01" true)] = some s₂
      ∧ RowsAlike plainEnv.sha Store.empty [cacheEntry "01" false, cacheEntry "01" true] s₁ s₂
      ∧ RowsAlike plainEnv.sha Store.empty [cacheEntry "01" false, cacheEntry "01" true] s₂ s₁
      ∧ (∀ n ∈ Store.empty.rows, n.status = "archived" →
          ∃ n' ∈ s₁.rows, n'.id = n.id ∧ n'.status = "archived")
      ∧ (s₁.rows.filterMap Note.remoteId).Nodup ∧ (s₁.rows.map Note.entityId).Nodup := by
  refine appliedAlike ⟨by simp [Store.empty], by decide⟩ ⟨by simp [Store.empty], by decide⟩ ?_ ?_
  · intro e he e' he' _
    simp only [List.map_cons, List.map_nil, List.mem_cons, List.not_mem_nil, or_false] at he he'
    rcases he with rfl | rfl <;> rcases he' with rfl | rfl <;> rfl
  · intro e
    simp only [List.map_cons, List.map_nil, List.mem_cons, List.not_mem_nil, or_false]
    tauto

/-- Two server ids of one content: the row keeps the id that came first. -/
theorem not_same_of_two_ids :
    ∃ s₁ s₂, Store.empty.applyRemoteNotes plainEnv
          [(⟨"a"⟩, cacheEntry "01" false), (⟨"b"⟩, cacheEntry "02" false)] = some s₁
      ∧ Store.empty.applyRemoteNotes plainEnv
          [(⟨"a"⟩, cacheEntry "02" false), (⟨"b"⟩, cacheEntry "01" false)] = some s₂
      ∧ ¬∀ n ∈ s₁.rows, ∃ n' ∈ s₂.rows, n'.entityId = n.entityId ∧ n'.remoteId = n.remoteId := by
  refine ⟨_, _, rfl, rfl, ?_⟩
  decide

end Memory
end Inkentry
