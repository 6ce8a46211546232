/-
  Inkentry.Memory.Succession

  One entry replacing another is recorded three times: in the status of the row
  that was replaced, in its `superseded_by` column, and as a `supersedes` edge
  from its successor.  `Store.Succession` says that the three agree.

  `Store.Linked` is what every write keeps: the foreign keys of the edge table
  make the successor a row, and an edge that goes with every column makes
  `Store.Succession` a consequence of it.  Statements that rewrite rows, insert
  rows and insert edges each have a lemma here, and so have the writes of
  `LocalWrite`, applying a batch of carried edges, and a deduplication that meets
  `SuccessorsRecorded`.
-/

import Inkentry.Carrier.Import
import Inkentry.Memory.Dedupe
import Inkentry.Memory.Sync

namespace Inkentry
namespace Memory

open OrderLimit

/-! ## The property -/

variable {s : Store}

/-- Every row with a successor is archived or otherwise not active, and its successor is
    another row with an edge to it; a row that an edge says is superseded is not active. -/
structure Store.Succession (s : Store) : Prop where
  successor : ∀ n ∈ s.rows, ∀ t, n.supersededBy = some t →
    (∃ m ∈ s.rows, m.id = t) ∧ t ≠ n.id ∧ n.status ≠ "active"
      ∧ (⟨t, n.id, "supersedes"⟩ : MemoryEdge) ∈ s.edges
  target : ∀ e ∈ s.edges, e.kind = "supersedes" → ∀ n ∈ s.rows, n.id = e.toId →
    n.status ≠ "active"

/-- What every write keeps. -/
structure Store.Linked (s : Store) : Prop where
  /-- The foreign keys of the edge table. -/
  ends : ∀ e ∈ s.edges, (∃ n ∈ s.rows, n.id = e.fromId) ∧ ∃ n ∈ s.rows, n.id = e.toId
  apart : ∀ e ∈ s.edges, e.kind = "supersedes" → e.fromId ≠ e.toId
  target : ∀ e ∈ s.edges, e.kind = "supersedes" → ∀ n ∈ s.rows, n.id = e.toId →
    n.status ≠ "active"
  column : ∀ n ∈ s.rows, ∀ t, n.supersededBy = some t →
    (⟨t, n.id, "supersedes"⟩ : MemoryEdge) ∈ s.edges

theorem Store.Linked.succession (h : s.Linked) : s.Succession := by
  refine ⟨fun n hn t ht => ?_, h.target⟩
  have hedge := h.column n hn t ht
  exact ⟨(h.ends _ hedge).1, h.apart _ hedge rfl, h.target _ hedge rfl n hn rfl, hedge⟩

theorem Store.linked_empty : Store.empty.Linked := by
  constructor <;> simp [Store.empty]

/-! ## Statements -/

/-- Rewriting rows in place, when none is made active again and a successor is only
    written where the edge is there. -/
theorem Store.Linked.of_rows {s s' : Store} (h : s.Linked) (hedges : s'.edges = s.edges)
    (hids : ∀ n ∈ s.rows, ∃ n' ∈ s'.rows, n'.id = n.id)
    (hrows : ∀ n' ∈ s'.rows, ∃ n ∈ s.rows, n'.id = n.id
      ∧ (n.status ≠ "active" → n'.status ≠ "active")
      ∧ ∀ t, n'.supersededBy = some t → n.supersededBy = some t
        ∨ (⟨t, n.id, "supersedes"⟩ : MemoryEdge) ∈ s.edges) : s'.Linked := by
  have hexists {id : NoteId} (hid : ∃ n ∈ s.rows, n.id = id) : ∃ n' ∈ s'.rows, n'.id = id := by
    obtain ⟨n, hn, rfl⟩ := hid
    exact hids n hn
  refine ⟨fun e he => ?_, fun e he => ?_, fun e he hk n' hn' hto => ?_, fun n' hn' t ht => ?_⟩
  · rw [hedges] at he
    exact ⟨hexists (h.ends e he).1, hexists (h.ends e he).2⟩
  · rw [hedges] at he
    exact h.apart e he
  · rw [hedges] at he
    obtain ⟨n, hn, hid, hstatus, -⟩ := hrows n' hn'
    exact hstatus (h.target e he hk n hn (hid ▸ hto))
  · obtain ⟨n, hn, hid, -, hcolumn⟩ := hrows n' hn'
    rw [hedges, hid]
    rcases hcolumn t ht with hold | hedge
    · exact h.column n hn t hold
    · exact hedge

theorem Store.Linked.edit (h : s.Linked) (e : RowEdit) (p : Note → Bool)
    (hstatus : ∀ n, n.status ≠ "active" → (e.apply n).status ≠ "active")
    (hcolumn : ∀ n ∈ s.rows, p n = true → ∀ t, (e.apply n).supersededBy = some t → n.supersededBy = some t ∨ (⟨t, n.id, "supersedes"⟩ : MemoryEdge) ∈ s.edges)
    : (s.edit e p).Linked := by
  refine h.of_rows rfl (fun n hn => ⟨_, List.mem_map_of_mem hn, ?_⟩) fun n' hn' => ?_
  · by_cases hp : p n <;> simp [hp]
  · obtain ⟨n, hn, rfl⟩ := List.mem_map.mp hn'
    refine ⟨n, hn, ?_⟩
    by_cases hp : p n = true
    · rw [if_pos hp]
      exact ⟨e.id_apply n, hstatus n, hcolumn n hn hp⟩
    · rw [if_neg hp]
      exact ⟨rfl, id, fun t ht => .inl ht⟩

theorem Store.Linked.edit_of_column (h : s.Linked) (e : RowEdit) (p : Note → Bool)
    (hstatus : ∀ n, n.status ≠ "active" → (e.apply n).status ≠ "active")
    (hcolumn : ∀ n, (e.apply n).supersededBy = n.supersededBy) : (s.edit e p).Linked :=
  h.edit e p hstatus fun n _ _ _ ht => .inl (hcolumn n ▸ ht)

/-- A new row has no successor, and no edge can have been recorded for it. -/
theorem Store.Linked.insertRow {s s' : Store} (h : s.Linked) {n : Note}
    (hins : s.insertRow n = some s') (hcolumn : n.supersededBy = none) : s'.Linked := by
  obtain ⟨hrows, hedges, hfresh, -⟩ := Store.insertRow_eq_some hins
  have hkept {id : NoteId} (hid : ∃ m ∈ s.rows, m.id = id) : ∃ m ∈ s'.rows, m.id = id := by
    obtain ⟨m, hm, hmid⟩ := hid
    exact ⟨m, hrows ▸ List.mem_append_left _ hm, hmid⟩
  refine ⟨fun e he => ?_, fun e he => ?_, fun e he hk m hm hto => ?_, fun m hm t ht => ?_⟩
  · rw [hedges] at he
    exact ⟨hkept (h.ends e he).1, hkept (h.ends e he).2⟩
  · rw [hedges] at he
    exact h.apart e he
  · rw [hedges] at he
    rw [hrows] at hm
    rcases List.mem_append.mp hm with hm | hm
    · exact h.target e he hk m hm hto
    · obtain rfl := List.mem_singleton.mp hm
      obtain ⟨r, hr, hrid⟩ := (h.ends e he).2
      exact absurd (List.mem_map_of_mem hr) (hrid.trans hto.symm ▸ hfresh)
  · rw [hedges]
    rw [hrows] at hm
    rcases List.mem_append.mp hm with hm | hm
    · exact h.column m hm t ht
    · obtain rfl := List.mem_singleton.mp hm
      exact absurd (hcolumn.symm.trans ht) (by simp)

theorem Store.insertEdge_edges (s : Store) (e : MemoryEdge) :
    (s.insertEdge e).edges = if e ∈ s.edges then s.edges else s.edges ++ [e] := by
  unfold Store.insertEdge
  split <;> rfl

theorem Store.mem_insertEdge {e x : MemoryEdge} :
    x ∈ (s.insertEdge e).edges ↔ x ∈ s.edges ∨ x = e := by
  rw [Store.insertEdge_edges]
  split
  case isTrue he =>
    refine ⟨.inl, ?_⟩
    rintro (hx | rfl)
    · exact hx
    · exact he
  case isFalse => simp

/-- An edge between rows; a `supersedes` edge to another row that is not active. -/
theorem Store.Linked.insertEdge (h : s.Linked) {e : MemoryEdge}
    (hfrom : ∃ n ∈ s.rows, n.id = e.fromId) (hto : ∃ n ∈ s.rows, n.id = e.toId)
    (hsupersedes : e.kind = "supersedes" → e.fromId ≠ e.toId ∧ ∀ n ∈ s.rows, n.id = e.toId → n.status ≠ "active")
    : (s.insertEdge e).Linked := by
  refine ⟨fun x hx => ?_, fun x hx hk => ?_, fun x hx hk => ?_, fun n hn t ht => ?_⟩
  · rw [Store.insertEdge_rows]
    rcases Store.mem_insertEdge.mp hx with hx | rfl
    · exact h.ends x hx
    · exact ⟨hfrom, hto⟩
  · rcases Store.mem_insertEdge.mp hx with hx | rfl
    · exact h.apart x hx hk
    · exact (hsupersedes hk).1
  · rw [Store.insertEdge_rows]
    rcases Store.mem_insertEdge.mp hx with hx | rfl
    · exact h.target x hx hk
    · exact (hsupersedes hk).2
  · rw [Store.insertEdge_rows] at hn
    exact Store.mem_insertEdge.mpr (.inl (h.column n hn t ht))

/-! ## Writes -/

theorem Store.Linked.attach (h : s.Linked) (env : StoreEnv) (id : NoteId)
    (tags linkedFiles : List String) : (s.attachTagsAndFiles env id tags linkedFiles).Linked :=
  h.edit_of_column _ _ (fun _ hn => hn) fun _ => rfl

theorem Store.Linked.archive (h : s.Linked) (id : NoteId) : (s.archive id).2.Linked :=
  h.edit_of_column archiveEdit _ (fun n _ => by simp [archiveEdit]) fun _ => rfl

theorem Store.Linked.insertOrRecover {env : StoreEnv} {s s' : Store} (h : s.Linked) {n : Note}
    {tags linkedFiles : List String} {id : NoteId} {created : Bool}
    (hins : s.insertOrRecover env n tags linkedFiles = some (id, created, s'))
    (hcolumn : n.supersededBy = none) : s'.Linked := by
  rcases Store.insertOrRecover_cases hins with ⟨-, -, s₁, hrow, rfl⟩ | ⟨-, row, -, -, -, rfl⟩
  · exact (h.insertRow hrow hcolumn).attach env _ _ _
  · exact h.attach env _ _ _

theorem Store.exists_of_insertOrRecover {env : StoreEnv} {s s' : Store} {n : Note}
    {tags linkedFiles : List String} {id : NoteId} {created : Bool}
    (hins : s.insertOrRecover env n tags linkedFiles = some (id, created, s')) :
    ∃ m ∈ s'.rows, m.id = id := by
  obtain ⟨m, hm, hid, -⟩ := Store.entityOf_eq_some_iff.mp (Store.entityOf_insertOrRecover_self hins)
  exact ⟨m, hm, hid⟩

/-- Archiving an entry for its successor, with the column and the edge. -/
theorem Store.Linked.supersede (h : s.Linked) (now : Int) {oldId newId : NoteId}
    (hactive : s.hasActive oldId = true) (hnew : ∃ n ∈ s.rows, n.id = newId) (hne : newId ≠ oldId) :
    ((s.edit (supersedeEdit newId now) (isActiveRow oldId)).insertEdge
      ⟨newId, oldId, "supersedes"⟩).Linked := by
  -- the edge goes in while the row is archived and has its old column
  have harchived : (s.archive oldId).2.Linked := h.archive oldId
  have hrow {id : NoteId} (hid : ∃ n ∈ s.rows, n.id = id) :
      ∃ n ∈ (s.archive oldId).2.rows, n.id = id := by
    obtain ⟨n, hn, rfl⟩ := hid
    refine ⟨_, List.mem_map_of_mem hn, ?_⟩
    by_cases hp : isActiveRow oldId n <;> simp [hp]
  have hinactive : ∀ n ∈ (s.archive oldId).2.rows, n.id = oldId → n.status ≠ "active" := by
    intro n hn hid
    obtain ⟨m, -, rfl⟩ := List.mem_map.mp hn
    by_cases hp : isActiveRow oldId m = true
    · rw [if_pos hp]
      simp [archiveEdit]
    · rw [if_neg hp] at hid ⊢
      simpa [isActiveRow, hid] using hp
  obtain ⟨old, hold, holdId, -⟩ := Store.hasActive_iff.mp hactive
  have hedge := harchived.insertEdge (e := ⟨newId, oldId, "supersedes"⟩) (hrow hnew)
    (hrow ⟨old, hold, holdId⟩) fun _ => ⟨hne, hinactive⟩
  have hmem : (⟨newId, oldId, "supersedes"⟩ : MemoryEdge)
      ∈ ((s.archive oldId).2.insertEdge ⟨newId, oldId, "supersedes"⟩).edges :=
    Store.mem_insertEdge.mpr (.inr rfl)
  refine hedge.of_rows ?_ (fun n hn => ?_) fun n' hn' => ?_
  · rw [Store.insertEdge_edges, Store.insertEdge_edges]
    rfl
  · rw [Store.insertEdge_rows] at hn
    obtain ⟨m, hm, rfl⟩ := List.mem_map.mp hn
    refine ⟨_, by rw [Store.insertEdge_rows]; exact List.mem_map_of_mem hm, ?_⟩
    by_cases hp : isActiveRow oldId m <;> simp [hp]
  · rw [Store.insertEdge_rows] at hn'
    obtain ⟨m, hm, rfl⟩ := List.mem_map.mp hn'
    refine ⟨_, by rw [Store.insertEdge_rows]; exact List.mem_map_of_mem hm, ?_⟩
    by_cases hp : isActiveRow oldId m = true
    · have hid : m.id = oldId := by simpa [isActiveRow] using (Bool.and_eq_true_iff.mp hp).1
      rw [if_pos hp, if_pos hp]
      refine ⟨by simp, fun _ => by simp [supersedeEdit], fun t ht => .inr ?_⟩
      obtain rfl : newId = t := by simpa [supersedeEdit] using ht
      simpa [hid] using hmem
    · rw [if_neg hp, if_neg hp]
      exact ⟨rfl, id, fun t ht => .inl ht⟩

theorem Store.Linked.setRemoteId {s s' : Store} (h : s.Linked) {id : NoteId} {remoteId : String}
    (hset : s.setRemoteId id remoteId = some s') : s'.Linked := by
  have hrows := Store.setRemoteId_eq_some hset
  have hedges : s'.edges = s.edges := by
    unfold Store.setRemoteId at hset
    split at hset
    · rw [← Option.some.inj hset]
    · exact absurd hset (by simp)
  refine h.of_rows hedges (fun n hn => ?_) fun n' hn' => ?_
  · obtain ⟨n', hn', hid, -⟩ := Store.keeps_setRemoteId hset n hn
    exact ⟨n', hn', hid⟩
  · rw [hrows] at hn'
    obtain ⟨n, hn, rfl⟩ := List.mem_map.mp hn'
    refine ⟨n, hn, ?_⟩
    split
    · exact ⟨rfl, fun hn => hn, fun t ht => .inl ht⟩
    · exact ⟨rfl, fun hn => hn, fun t ht => .inl ht⟩

theorem Store.Linked.applyRemoteNote {env : StoreEnv} {s s' : Store} (h : s.Linked)
    {uuid : NoteId} {e : RemoteEntry} {inserted : Bool}
    (happly : s.applyRemoteNote env uuid e = some (inserted, s')) : s'.Linked := by
  have harchive {s₁ : Store} (h₁ : s₁.Linked) (id : NoteId) (b : Bool) :
      (if b then (s₁.archive id).2 else s₁).Linked := by
    split
    · exact h₁.archive id
    · exact h₁
  rcases Store.applyRemoteNote_cases happly with ⟨id, -, -, rfl⟩ | ⟨-, hins⟩
    | ⟨id, s₁, s₂, -, hins, hset, rfl⟩
  · exact harchive h id _
  · exact h.insertOrRecover hins rfl
  · exact harchive ((h.insertOrRecover hins rfl).setRemoteId hset) id _

/-- The supersede command resolves both its arguments to entries and refuses one entry
    for both. -/
def LocalWrite.resolves (s : Store) : LocalWrite → Bool
  | .supersede _ oldId newId => s.hasNote newId && s.hasNote oldId && newId ≠ oldId
  | _ => true

theorem Store.Linked.applyWrite (h : s.Linked) (env : StoreEnv) {w : LocalWrite}
    (hresolves : w.resolves s = true) : (applyWrite env s w).Linked := by
  -- links are only made from an active row to a row that is there
  cases w with
  | add uuid now input =>
    show (((s.addNote env uuid now input).map _).getD s).Linked
    cases hadd : s.addNote env uuid now input with
    | none => exact h
    | some r => exact h.insertOrRecover hadd rfl
  | addSuperseding uuid now sqlNow input oldId =>
    show (((s.addNoteSuperseding env uuid now sqlNow input oldId).map _).getD s).Linked
    cases hadd : s.addNoteSuperseding env uuid now sqlNow input oldId with
    | none => exact h
    | some r =>
      obtain ⟨id, created, s'⟩ := r
      obtain ⟨s₁, hins, ⟨-, rfl⟩ | ⟨hne, hactive, rfl⟩⟩ := Store.addNoteSuperseding_cases hadd
      · exact h.insertOrRecover hins rfl
      · exact (h.insertOrRecover hins rfl).supersede sqlNow hactive
          (Store.exists_of_insertOrRecover hins) hne
  | archive id => exact h.archive id
  | supersede now oldId newId =>
    show (s.supersede now oldId newId).2.Linked
    obtain ⟨⟨hnew, -⟩, hne⟩ : (s.hasNote newId = true ∧ s.hasNote oldId = true) ∧ newId ≠ oldId := by
      simpa [LocalWrite.resolves] using hresolves
    unfold Store.supersede
    split
    case isTrue hactive => exact h.supersede now hactive (Store.hasNote_iff.mp hnew) hne
    case isFalse => exact h
  | stamp id remoteId =>
    show ((s.setRemoteId id remoteId).getD s).Linked
    cases hset : s.setRemoteId id remoteId with
    | none => exact h
    | some s' => exact h.setRemoteId hset
  | pull uuid e =>
    show (((s.applyRemoteNote env uuid e).map Prod.snd).getD s).Linked
    cases happly : s.applyRemoteNote env uuid e with
    | none => exact h
    | some r => exact h.applyRemoteNote happly

/-! ## Deduplication -/

/-- Every row that is kept has an edge from the successor it is kept with. -/
def SuccessorsRecorded (groups : List DuplicateGroup) (s : Store) : Prop :=
  ∀ n ∈ s.rows, ¬ IsLoser groups n.id → ∀ t, keptSuccessor groups n = some t →
    (⟨t, n.id, "supersedes"⟩ : MemoryEdge) ∈ s.edges

instance (groups : List DuplicateGroup) (s : Store) : Decidable (SuccessorsRecorded groups s) :=
  inferInstanceAs (Decidable (∀ n ∈ s.rows, ¬ IsLoser groups n.id →
    ∀ t ∈ keptSuccessor groups n, (⟨t, n.id, "supersedes"⟩ : MemoryEdge) ∈ s.edges))

theorem Store.Linked.dedupe {groups : List DuplicateGroup} {s s' : Store} (h : s.Linked)
    (hd : Dedupes groups s s') (hrecorded : SuccessorsRecorded groups s)
    (hkept : ∀ n t, keptSuccessor groups n = some t → ¬ IsLoser groups t) : s'.Linked := by
  refine ⟨fun e he => ?_, fun e he => ?_, fun e he hk n' hn' hto => ?_, fun n' hn' t ht => ?_⟩
  · obtain ⟨he, hfrom, hto⟩ := (hd.edges_iff e).mp he
    exact ⟨(hd.ids_iff _).mpr ⟨(h.ends e he).1, hfrom⟩, (hd.ids_iff _).mpr ⟨(h.ends e he).2, hto⟩⟩
  · exact h.apart e ((hd.edges_iff e).mp he).1
  · obtain ⟨n, hn, hid, hstatus, -⟩ := hd.rows n' hn'
    exact hstatus (h.target e ((hd.edges_iff e).mp he).1 hk n hn (hid ▸ hto))
  · obtain ⟨n, hn, hid, -, hcolumn⟩ := hd.rows n' hn'
    have hnot : ¬ IsLoser groups n.id := hid ▸ ((hd.ids_iff n'.id).mp ⟨n', hn', rfl⟩).2
    have hsuccessor : keptSuccessor groups n = some t := hcolumn.symm.trans ht
    rw [hid]
    exact (hd.edges_iff _).mpr ⟨hrecorded n hn hnot t hsuccessor, hkept n t hsuccessor, hnot⟩

end Memory
end Inkentry
