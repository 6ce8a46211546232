/-
  Inkentry.Memory.Alignment

  The invariant of the write-through path, effect by effect and command by
  command, and what it says about runs.

  Adding a row, editing one without touching its lifecycle and appending an
  active record all keep store and carrier aligned, and so does archiving a row
  together with an archiving record that names the row's new successor.  A
  plain archive keeps the alignment too; what it loses is the end of validity
  (`Bounded`), which the record carries and the row does not.
-/

import Inkentry.Memory.WriteThrough

namespace Inkentry
namespace Memory

open GitNotes

/-! ## What each effect does to the invariant -/

section Effects

variable {sha : String → String}
variable {r : NoteRecord}
variable {g : List NoteRecord} {carrier : List NoteRecord} {u : NoteRecord} {s : Store} {old : Note}

/-- Alignment is about content, lifecycle and the successors that exist. -/
theorem RowAligned.of_same {s s' : Store} {row row' : Note} (h : RowAligned sha s g row)
    (hcontent : noteEntityId sha row' = noteEntityId sha row) (hent : row'.entityId = row.entityId)
    (hstatus : row'.status = row.status) (hsup : row'.supersededBy = row.supersededBy)
    (hinv : row'.invalidAt = row.invalidAt)
    (hgrow : ∀ id e, s.entityOf id = some e → s'.entityOf id = some e) :
    RowAligned sha s' g row' where
  keyed := by rw [hcontent, hent, h.keyed]
  carried := h.carried
  known := h.known
  status := by rw [hstatus, h.status]
  named r hr e he := by
    obtain ⟨id, hid, heid⟩ := Option.bind_eq_some_iff.mp (h.named r hr e he)
    rw [hsup, hid]
    exact hgrow id e heid
  names id hid := by
    obtain ⟨hsome, hr⟩ := h.names id (hsup ▸ hid)
    obtain ⟨e, he⟩ := Option.isSome_iff_exists.mp hsome
    exact ⟨by rw [hgrow id e he]; rfl, hr⟩
  open_of_active hactive := by
    rw [hsup, hinv]
    exact h.open_of_active (hstatus ▸ hactive)

theorem RowAligned.append_active {row : Note} (h : RowAligned sha s g row)
    (hr : r.status = "active")
    (hsucc : r.supersededByEntityId = none) : RowAligned sha s (g ++ [r]) row where
  keyed := h.keyed
  carried := by simp
  known x hx := by
    rcases List.mem_append.mp hx with hx | hx
    · exact h.known x hx
    · rw [List.mem_singleton.mp hx]
      exact .inl hr
  status := by
    rw [h.status]
    have hiff : (∃ x ∈ g ++ [r], x.status = "archived") ↔ ∃ x ∈ g, x.status = "archived" := by
      simp [or_and_right, exists_or, hr]
    simp only [hiff]
  named x hx e he := by
    rcases List.mem_append.mp hx with hx | hx
    · exact h.named x hx e he
    · rw [List.mem_singleton.mp hx, hsucc] at he
      exact absurd he (by simp)
  names id hid := by
    obtain ⟨hsome, x, hx, hxs⟩ := h.names id hid
    exact ⟨hsome, x, List.mem_append_left _ hx, hxs⟩
  open_of_active := h.open_of_active

theorem groupOf_append_of_ne {key : String} (h : r.resolveEntityId sha ≠ key) :
    groupOf sha (carrier ++ [r]) key = groupOf sha carrier key := by
  rw [groupOf_concat, if_neg h, List.append_nil]

theorem groupOf_append_of_eq {key : String} (h : r.resolveEntityId sha = key) :
    groupOf sha (carrier ++ [r]) key = groupOf sha carrier key ++ [r] := by
  rw [groupOf_concat, if_pos h]

/-- An edit that leaves every row's lifecycle alone keeps the alignment. -/
theorem Aligned.edit {w : WriteThrough} (h : Aligned sha w) (e : RowEdit) (p : Note → Bool)
    (hstatus : ∀ n, (e.apply n).status = n.status)
    (hsup : ∀ n, (e.apply n).supersededBy = n.supersededBy)
    (hinv : ∀ n, (e.apply n).invalidAt = n.invalidAt) :
    Aligned sha ⟨w.store.edit e p, w.carrier⟩ where
  rows row' hrow' := by
    obtain ⟨row, hrow, rfl⟩ := List.mem_map.mp hrow'
    have hal := h.rows row hrow
    by_cases hp : p row
    · simp only [hp, if_true, RowEdit.entityId_apply]
      obtain ⟨hkind, htitle, hbody⟩ := e.content_apply row
      refine hal.of_same ?_ (e.entityId_apply row) (hstatus row) (hsup row) (hinv row) (by simp)
      simp only [noteEntityId, hkind, htitle, hbody]
    · simp only [hp]
      exact hal.of_same rfl rfl rfl rfl rfl (by simp)
  stored r hr := by
    obtain ⟨row, hrow, hent⟩ := h.stored r hr
    refine ⟨_, List.mem_map_of_mem hrow, ?_⟩
    by_cases hp : p row <;> simp [hp, hent]

theorem Bounded.edit {w : WriteThrough} (h : Bounded sha w) (e : RowEdit) (p : Note → Bool)
    (hinv : ∀ n, (e.apply n).invalidAt = n.invalidAt) :
    Bounded sha ⟨w.store.edit e p, w.carrier⟩ := by
  intro row' hrow'
  obtain ⟨row, hrow, rfl⟩ := List.mem_map.mp hrow'
  by_cases hp : p row
  · simpa [hp, hinv] using h row hrow
  · simpa [hp] using h row hrow

theorem Aligned.insertEdge {w : WriteThrough} (h : Aligned sha w) (e : MemoryEdge) :
    Aligned sha ⟨w.store.insertEdge e, w.carrier⟩ where
  rows row hrow := by
    rw [Store.insertEdge_rows] at hrow
    exact (h.rows row hrow).of_same rfl rfl rfl rfl rfl (by simp)
  stored := by simpa using h.stored

theorem Bounded.insertEdge {w : WriteThrough} (h : Bounded sha w) (e : MemoryEdge) :
    Bounded sha ⟨w.store.insertEdge e, w.carrier⟩ := by
  intro row hrow
  rw [Store.insertEdge_rows] at hrow
  exact h row hrow

theorem Aligned.append_active {w : WriteThrough} (h : Aligned sha w) (hr : r.status = "active")
    (hsucc : r.supersededByEntityId = none)
    (hstored : ∃ row ∈ w.store.rows, row.entityId = r.resolveEntityId sha) :
    Aligned sha ⟨w.store, w.carrier ++ [r]⟩ where
  rows row hrow := by
    by_cases hkey : r.resolveEntityId sha = row.entityId
    · rw [groupOf_append_of_eq hkey]
      exact (h.rows row hrow).append_active hr hsucc
    · rw [groupOf_append_of_ne hkey]
      exact h.rows row hrow
  stored x hx := by
    rcases List.mem_append.mp hx with hx | hx
    · exact h.stored x hx
    · rw [List.mem_singleton.mp hx]
      exact hstored

theorem Bounded.append_open {w : WriteThrough} (h : Bounded sha w)
    (hr : r.invalidAt = none) : Bounded sha ⟨w.store, w.carrier ++ [r]⟩ := by
  intro row hrow
  rw [h row hrow]
  by_cases hkey : r.resolveEntityId sha = row.entityId
  · rw [groupOf_append_of_eq hkey]
    simp [or_and_right, exists_or, hr]
  · rw [groupOf_append_of_ne hkey]

/-- A fresh active row and its record. -/
theorem Aligned.insertRow {w : WriteThrough} (h : Aligned sha w) {n : Note}
    (hins : w.store.insertRow n = some s) (hkeyed : noteEntityId sha n = n.entityId)
    (hstatus : n.status = "active") (hsup : n.supersededBy = none) (hinv : n.invalidAt = none)
    (hr : r.status = "active") (hsucc : r.supersededByEntityId = none)
    (hkey : r.resolveEntityId sha = n.entityId) : Aligned sha ⟨s, w.carrier ++ [r]⟩ := by
  obtain ⟨hrows, -, -, hfresh⟩ := Store.insertRow_eq_some hins
  -- no record carries the new entity yet
  have hnil : groupOf sha w.carrier n.entityId = [] := by
    refine List.filter_eq_nil_iff.mpr fun x hx hxkey => hfresh ?_
    obtain ⟨row, hrow, hent⟩ := h.stored x hx
    have hxkey' : x.resolveEntityId sha = n.entityId := by simpa using hxkey
    rw [← hxkey', ← hent]
    exact List.mem_map_of_mem hrow
  constructor
  · intro row hrow
    rw [hrows] at hrow
    rcases List.mem_append.mp hrow with hrow | hrow
    · have hne : r.resolveEntityId sha ≠ row.entityId := by
        rw [hkey]
        intro heq
        exact hfresh (heq ▸ List.mem_map_of_mem hrow)
      rw [groupOf_append_of_ne hne]
      exact (h.rows row hrow).of_same rfl rfl rfl rfl rfl
        fun id e => Store.entityOf_insertRow hins
    · obtain rfl := List.mem_singleton.mp hrow
      rw [groupOf_append_of_eq hkey, hnil, List.nil_append]
      refine ⟨hkeyed, by simp, by simp [hr], by simp [hr, hstatus], ?_, ?_, fun _ => ⟨hsup, hinv⟩⟩
      · intro x hx e he
        rw [List.mem_singleton.mp hx, hsucc] at he
        exact absurd he (by simp)
      · intro id hid
        rw [hsup] at hid
        exact absurd hid (by simp)
  · intro x hx
    rw [hrows]
    rcases List.mem_append.mp hx with hx | hx
    · obtain ⟨row, hrow, hent⟩ := h.stored x hx
      exact ⟨row, List.mem_append_left _ hrow, hent⟩
    · rw [List.mem_singleton.mp hx]
      exact ⟨n, by simp, hkey.symm⟩

theorem Bounded.insertRow {w : WriteThrough} (h : Aligned sha w) (hb : Bounded sha w) {n : Note}
    (hins : w.store.insertRow n = some s) (hinv : n.invalidAt = none) (hr : r.invalidAt = none)
    (hkey : r.resolveEntityId sha = n.entityId) : Bounded sha ⟨s, w.carrier ++ [r]⟩ := by
  obtain ⟨hrows, -, -, hfresh⟩ := Store.insertRow_eq_some hins
  intro row hrow
  rw [hrows] at hrow
  rcases List.mem_append.mp hrow with hrow | hrow
  · exact hb.append_open hr row hrow
  · obtain rfl := List.mem_singleton.mp hrow
    have hopen : ∀ x ∈ groupOf sha (w.carrier ++ [r]) row.entityId, x.invalidAt = none := by
      intro x hx
      obtain ⟨hx, hxkey⟩ := mem_groupOf.mp hx
      rcases List.mem_append.mp hx with hx | hx
      · obtain ⟨old, hold, hent⟩ := h.stored x hx
        exact absurd (hxkey ▸ hent ▸ List.mem_map_of_mem hold) hfresh
      · rw [List.mem_singleton.mp hx, hr]
    rw [hinv]
    refine iff_of_false (by simp) ?_
    rintro ⟨x, hx, hsome⟩
    rw [hopen x hx] at hsome
    exact absurd hsome (by simp)

/-- What archiving the active row `old` does to its own alignment. -/
theorem RowAligned.archived (h : RowAligned sha s g old) (old' : Note)
    (hactive : old.status = "active") (hcontent : noteEntityId sha old' = noteEntityId sha old)
    (hent : old'.entityId = old.entityId) (hstatus : old'.status = "archived")
    (hu : u.status = "archived")
    (hsucc : old'.supersededBy.bind s.entityOf = u.supersededByEntityId)
    (hlinked : ∀ id, old'.supersededBy = some id → (s.entityOf id).isSome) :
    RowAligned sha s (g ++ [u]) old' where
  keyed := by rw [hcontent, hent, h.keyed]
  carried := by simp
  known x hx := by
    rcases List.mem_append.mp hx with hx | hx
    · exact h.known x hx
    · rw [List.mem_singleton.mp hx]
      exact .inr hu
  status := by rw [hstatus, if_pos ⟨u, by simp, hu⟩]
  named x hx e he := by
    rcases List.mem_append.mp hx with hx | hx
    · -- an active row has no successor, so no earlier copy names one
      have hnone := h.named x hx e he
      rw [(h.open_of_active hactive).1] at hnone
      exact absurd hnone (by simp)
    · rw [hsucc, ← List.mem_singleton.mp hx, he]
  names id hid := by
    have hsome := hlinked id hid
    refine ⟨hsome, u, by simp, ?_⟩
    rw [← hsucc, hid]
    exact hsome
  open_of_active hcontra := by
    rw [hstatus] at hcontra
    exact absurd hcontra (by decide)

/-- Archiving a row and appending an archiving record that names its successor. -/
theorem Aligned.archiveRow {w : WriteThrough} (h : Aligned sha w) (hold : old ∈ w.store.rows)
    (hactive : old.status = "active") {e : RowEdit} (hstatus : (e.apply old).status = "archived")
    (hu : u.status = "archived") (hkey : u.resolveEntityId sha = old.entityId)
    (hsucc : (e.apply old).supersededBy.bind w.store.entityOf = u.supersededByEntityId)
    (hlinked : ∀ id, (e.apply old).supersededBy = some id → (w.store.entityOf id).isSome) :
    Aligned sha ⟨w.store.edit e (isActiveRow old.id), w.carrier ++ [u]⟩ where
  rows row' hrow' := by
    obtain ⟨row, hrow, rfl⟩ := List.mem_map.mp hrow'
    -- the row changes with its record; the others have other keys
    by_cases hid : row.id = old.id
    · obtain rfl : row = old := List.inj_on_of_nodup_map w.store.uuidUnique hrow hold hid
      have hp : isActiveRow row.id row = true := by simp [isActiveRow, hactive]
      simp only [hp, if_true, RowEdit.entityId_apply]
      rw [groupOf_append_of_eq hkey]
      obtain ⟨hkind, htitle, hbody⟩ := e.content_apply row
      have hal := (h.rows row hrow).archived (e.apply row) hactive
        (by simp only [noteEntityId, hkind, htitle, hbody]) (e.entityId_apply row) hstatus hu
        hsucc hlinked
      exact hal.of_same rfl rfl rfl rfl rfl (by simp)
    · have hp : isActiveRow old.id row = false := by simp [isActiveRow, hid]
      have hne : u.resolveEntityId sha ≠ row.entityId := by
        rw [hkey]
        intro heq
        exact hid (congrArg Note.id
          (List.inj_on_of_nodup_map w.store.entityUnique hold hrow heq)).symm
      simp only [hp]
      rw [if_neg (by simp), groupOf_append_of_ne hne]
      exact (h.rows row hrow).of_same rfl rfl rfl rfl rfl (by simp)
  stored x hx := by
    have hmem : ∃ row ∈ w.store.rows, row.entityId = x.resolveEntityId sha := by
      rcases List.mem_append.mp hx with hx | hx
      · exact h.stored x hx
      · rw [List.mem_singleton.mp hx]
        exact ⟨old, hold, hkey.symm⟩
    obtain ⟨row, hrow, hent⟩ := hmem
    refine ⟨_, List.mem_map_of_mem hrow, ?_⟩
    by_cases hp : isActiveRow old.id row <;> simp [hp, hent]

theorem Bounded.archiveRow {w : WriteThrough} (hb : Bounded sha w) (hold : old ∈ w.store.rows)
    (hactive : old.status = "active") {e : RowEdit} (hinv : (e.apply old).invalidAt.isSome)
    (hu : u.invalidAt.isSome) (hkey : u.resolveEntityId sha = old.entityId) :
    Bounded sha ⟨w.store.edit e (isActiveRow old.id), w.carrier ++ [u]⟩ := by
  intro row' hrow'
  obtain ⟨row, hrow, rfl⟩ := List.mem_map.mp hrow'
  by_cases hid : row.id = old.id
  · obtain rfl : row = old := List.inj_on_of_nodup_map w.store.uuidUnique hrow hold hid
    have hp : isActiveRow row.id row = true := by simp [isActiveRow, hactive]
    simp only [hp, if_true, RowEdit.entityId_apply]
    rw [groupOf_append_of_eq hkey]
    exact iff_of_true hinv ⟨u, by simp, hu⟩
  · have hp : isActiveRow old.id row = false := by simp [isActiveRow, hid]
    have hne : u.resolveEntityId sha ≠ row.entityId := by
      rw [hkey]
      intro heq
      exact hid (congrArg Note.id
        (List.inj_on_of_nodup_map w.store.entityUnique hold hrow heq)).symm
    simp only [hp]
    rw [if_neg (by simp), groupOf_append_of_ne hne]
    exact hb row hrow

end Effects

/-! ## Commands -/

/-- `w'` is aligned, and bounded if `w` was. -/
structure Carries (sha : String → String) (w w' : WriteThrough) : Prop where
  aligned : Aligned sha w'
  bounded : Bounded sha w → Bounded sha w'

section Commands

variable {env : StoreEnv} {w : WriteThrough}
variable {clocks : Clocks} {args : AddArgs} {w' : WriteThrough}
variable {oldId newId : NoteId} {w₁ : WriteThrough} {id : NoteId}

/-- Inserting or recovering a row and appending an active, open record for it. -/
theorem Aligned.insertOrRecover (h : Aligned env.sha w) {uuid id : NoteId} {now : Int}
    {input : RowInput} {tags linkedFiles : List String} {created : Bool} {s : Store}
    {r : NoteRecord}
    (hins : w.store.insertOrRecover env (freshRow env uuid now input) tags linkedFiles
      = some (id, created, s))
    (hr : r.status = "active") (hsucc : r.supersededByEntityId = none) (hinv : r.invalidAt = none)
    (hkey : r.resolveEntityId env.sha = entityId env.sha input.kind input.title input.body) :
    Carries env.sha w ⟨s, w.carrier ++ [r]⟩ := by
  rcases Store.insertOrRecover_cases hins with
    ⟨-, -, s₁, hrow, rfl⟩ | ⟨-, row, hrow, hent, -, rfl⟩
  · constructor
    · exact (h.insertRow hrow rfl rfl rfl rfl hr hsucc hkey).edit _ _ (fun _ => rfl) (fun _ => rfl)
        fun _ => rfl
    · intro hb
      exact (Bounded.insertRow h hb hrow rfl hinv hkey).edit _ _ fun _ => rfl
  · constructor
    · exact (h.append_active hr hsucc ⟨row, hrow, hent.trans hkey.symm⟩).edit _ _ (fun _ => rfl)
        (fun _ => rfl) fun _ => rfl
    · exact fun hb => (hb.append_open hinv).edit _ _ fun _ => rfl

/-- Superseding an active row and carrying the archive with its successor. -/
theorem Carries.supersede (h : Carries env.sha w w₁) {now : Int} {u : NoteRecord}
    {successor : String} (hactive : w₁.store.hasActive oldId = true)
    (hnew : w₁.store.entityOf newId = some successor)
    (hold : w₁.store.entityOf oldId = some (u.resolveEntityId env.sha)) (hu : u.status = "archived")
    (hsucc : u.supersededByEntityId = some successor) (hinv : u.invalidAt.isSome) :
    Carries env.sha w ⟨(w₁.store.edit (supersedeEdit newId now) (isActiveRow oldId)).insertEdge
      ⟨newId, oldId, "supersedes"⟩, w₁.carrier ++ [u]⟩ := by
  obtain ⟨old, holdmem, rfl, hact⟩ := Store.hasActive_iff.mp hactive
  have hkey : u.resolveEntityId env.sha = old.entityId := by
    obtain ⟨row, hrow, hid, hent⟩ := Store.entityOf_eq_some_iff.mp hold
    obtain rfl : row = old := List.inj_on_of_nodup_map w₁.store.uuidUnique hrow holdmem hid
    exact hent.symm
  constructor
  · refine (h.aligned.archiveRow holdmem hact rfl hu hkey ?_ ?_).insertEdge _
    · rw [hsucc]
      exact hnew
    · intro id hid
      obtain rfl : newId = id := Option.some.inj hid
      rw [hnew]
      rfl
  · intro hb
    refine ((h.bounded hb).archiveRow holdmem hact ?_ hinv hkey).insertEdge _
    simp [supersedeEdit]

theorem Carries.addEdges (h : Carries env.sha w w₁) (id : NoteId)
    (args : AddArgs) : Carries env.sha w ⟨addEdges w₁.store id args, w₁.carrier⟩ := by
  unfold Memory.addEdges
  cases args.relatesTo <;> cases args.contradicts
  · exact h
  · exact ⟨h.aligned.insertEdge _, fun hb => (h.bounded hb).insertEdge _⟩
  · exact ⟨h.aligned.insertEdge _, fun hb => (h.bounded hb).insertEdge _⟩
  · exact ⟨(h.aligned.insertEdge _).insertEdge _, fun hb => ((h.bounded hb).insertEdge _).insertEdge _⟩

/-- The store's part of an `add`, up to the origin it stamps. -/
theorem Store.add_cases {s s' : Store} {uuid id : NoteId} {created : Bool}
    (h : s.add env uuid clocks args = some (id, created, s')) :
    ∃ s₀, (match args.supersedes with
        | some oldId =>
          s.addNoteSuperseding env uuid clocks.createdAt clocks.unixepoch args.rowInput oldId
        | none => s.addNote env uuid clocks.createdAt args.rowInput) = some (id, created, s₀)
      ∧ (s' = s₀ ∨ ∃ origin, s' = s₀.setOrigin id origin) := by
  obtain ⟨⟨id₀, created₀, s₀⟩, hadd, heq⟩ := Option.map_eq_some_iff.mp h
  refine ⟨s₀, ?_⟩
  cases created₀ <;> cases ho : args.origin
    <;> simp only [ho, Prod.mk.injEq] at heq <;> obtain ⟨rfl, rfl, rfl⟩ := heq
  · exact ⟨hadd, .inl rfl⟩
  · exact ⟨hadd, .inl rfl⟩
  · exact ⟨hadd, .inl rfl⟩
  · exact ⟨hadd, .inr ⟨_, rfl⟩⟩

theorem Carries.origin (h : Carries env.sha w w₁) {s' : Store}
    (hs : s' = w₁.store ∨ ∃ origin, s' = w₁.store.setOrigin id origin) :
    Carries env.sha w ⟨s', w₁.carrier⟩ := by
  rcases hs with rfl | ⟨origin, rfl⟩
  · exact h
  · exact ⟨h.aligned.edit _ _ (fun _ => rfl) (fun _ => rfl) fun _ => rfl,
      fun hb => (h.bounded hb).edit _ _ fun _ => rfl⟩

theorem resolveLinkTargets_superseded {s : Store} {targets : LinkTargets}
    (h : resolveLinkTargets env s args = some targets) :
    (args.supersedes = none ∧ targets.superseded = none)
    ∨ ∃ old ∈ s.rows, args.supersedes = some old.id ∧ old.status = "active"
        ∧ targets.superseded = some (rowToNote old) := by
  unfold resolveLinkTargets at h
  obtain ⟨sup, hsup, hrest⟩ := Option.bind_eq_some_iff.mp h
  obtain ⟨rel, -, hrest⟩ := Option.bind_eq_some_iff.mp hrest
  obtain ⟨con, -, rfl⟩ := Option.map_eq_some_iff.mp hrest
  cases hargs : args.supersedes with
  | none =>
    rw [hargs] at hsup
    exact .inl ⟨rfl, (Option.some.inj hsup).symm⟩
  | some oldId =>
    rw [hargs] at hsup
    simp only at hsup
    cases hget : s.get oldId with
    | none => simp [hget] at hsup
    | some note =>
      obtain ⟨old, hold, rfl, rfl⟩ := Store.get_eq_some_iff.mp hget
      rw [hget] at hsup
      by_cases hact : (rowToNote old).status = "active"
      · simp only [hact, if_true, Option.some.injEq] at hsup
        exact .inr ⟨old, hold, rfl, hact, hsup.symm⟩
      · simp [hact] at hsup

/-- An add that names no entry of its own content keeps the alignment. -/
theorem Aligned.memoryAdd (h : Aligned env.sha w) {uuid : NoteId}
    (hadd : memoryAdd env w uuid clocks args = some w')
    (hown : NotOwnSuccessor env w (.add uuid clocks args)) : Carries env.sha w w' := by
  obtain ⟨targets, htargets, hrest⟩ := Option.bind_eq_some_iff.mp hadd
  obtain ⟨⟨id, created, s'⟩, hstore, rfl⟩ := Option.map_eq_some_iff.mp hrest
  obtain ⟨s₀, hadded, horigin⟩ := Store.add_cases hstore
  rcases resolveLinkTargets_superseded htargets with ⟨hnone, hsup⟩ | ⟨old, hold, hsome, hact, hsup⟩
  · rw [hnone] at hadded
    have hins := h.insertOrRecover (r := carriedRecord env.sha clocks.record id args targets)
      hadded rfl rfl rfl rfl
    simp only [hsup, Option.toList_none, List.map_nil, List.append_nil]
    exact (hins.origin horigin).addEdges id args
  · rw [hsome] at hadded
    obtain ⟨s₁, hrow, hcase⟩ := Store.addNoteSuperseding_cases hadded
    have hne := hown targets htargets (rowToNote old) hsup
    have hins := h.insertOrRecover (r := carriedRecord env.sha clocks.record id args targets)
      hrow rfl rfl rfl rfl
    have holdent : w.store.entityOf old.id = some old.entityId :=
      Store.entityOf_eq_some_iff.mpr ⟨old, hold, rfl, rfl⟩
    rcases hcase with ⟨hid, -⟩ | ⟨-, hactive, rfl⟩
    · -- the row reused would be the one superseded, and the contents are different
      have hself := Store.entityOf_insertOrRecover_self hrow
      rw [hid, Store.entityOf_insertOrRecover hrow holdent, Option.some_inj] at hself
      exact absurd hself hne
    · simp only [hsup, Option.toList_some, List.map_cons, List.map_nil]
      refine (Carries.origin (Carries.supersede hins hactive
        (Store.entityOf_insertOrRecover_self hrow) ?_ rfl rfl ?_) horigin).addEdges id args
      · rw [Store.entityOf_insertOrRecover hrow holdent]
        have hkeyed := (h.rows old hold).keyed
        exact congrArg some hkeyed.symm
      · simp [stateUpdateRecord, entityUpdateRecord]

/-- What a supersede that ran found and did: its target was active, and the entry it read
    back is the archived row. -/
theorem memorySupersede_cases (hcmd : memorySupersede env w clocks oldId newId = some w') :
    ∃ old ∈ w.store.rows, ∃ new ∈ w.store.rows, old.id = oldId ∧ new.id = newId ∧
      w.store.hasActive old.id = true ∧ old.status = "active" ∧ w' =
        { store := (w.store.edit (supersedeEdit new.id clocks.unixepoch)
            (isActiveRow old.id)).insertEdge ⟨new.id, old.id, "supersedes"⟩
          carrier := w.carrier ++ [stateUpdateRecord env.sha clocks.update
            (rowToNote ((supersedeEdit new.id clocks.unixepoch).apply old)) "archived"
            ((old.invalidAt.or (some clocks.unixepoch)).or (some clocks.invalidAt))
            (some (noteEntityId env.sha (rowToNote new)))] } := by
  obtain ⟨newNote, hnewNote, hrest⟩ := Option.bind_eq_some_iff.mp hcmd
  obtain ⟨oldNote, holdNote, hrest⟩ := Option.bind_eq_some_iff.mp hrest
  obtain ⟨new, hnew, rfl, rfl⟩ := Store.get_eq_some_iff.mp hnewNote
  obtain ⟨old, hold, rfl, rfl⟩ := Store.get_eq_some_iff.mp holdNote
  by_cases hid : (rowToNote old).id = (rowToNote new).id
  · simp [hid] at hrest
  simp only [hid, if_false, Store.supersede] at hrest
  by_cases hactive : w.store.hasActive old.id = true
  · obtain ⟨row, hrow, hrid, hact⟩ := Store.hasActive_iff.mp hactive
    obtain rfl : row = old := List.inj_on_of_nodup_map w.store.uuidUnique hrow hold hrid
    simp only [rowToNote, hactive, if_true, Option.some.injEq] at hrest
    subst hrest
    have hback : ((w.store.edit (supersedeEdit new.id clocks.unixepoch)
        (isActiveRow row.id)).insertEdge ⟨new.id, row.id, "supersedes"⟩).get row.id
          = some (rowToNote ((supersedeEdit new.id clocks.unixepoch).apply row)) := by
      rw [Store.get, Store.row?_insertEdge, Store.row?_edit,
        Store.row?_eq_some_iff.mpr ⟨hrow, rfl⟩]
      simp [isActiveRow, hact]
    rw [hback]
    exact ⟨row, hrow, new, hnew, rfl, rfl, hactive, hact, rfl⟩
  · simp [rowToNote, hactive] at hrest

theorem Aligned.memorySupersede (h : Aligned env.sha w)
    (hcmd : memorySupersede env w clocks oldId newId = some w') : Carries env.sha w w' := by
  obtain ⟨old, hold, new, hnew, -, -, hactive, -, rfl⟩ := memorySupersede_cases hcmd
  refine Carries.supersede ⟨h, id⟩ hactive
    (Store.entityOf_eq_some_iff.mpr ⟨new, hnew, rfl, rfl⟩)
    (Store.entityOf_eq_some_iff.mpr ⟨old, hold, rfl, ?_⟩) rfl ?_ ?_
  · exact (h.rows old hold).keyed.symm
  · exact congrArg some (h.rows new hnew).keyed
  · simp [stateUpdateRecord, entityUpdateRecord]

/-- A plain archive keeps the alignment, and leaves the row's end of validity out. -/
theorem Aligned.memoryArchive (h : Aligned env.sha w)
    (hcmd : memoryArchive env w clocks id = some w') :
    Aligned env.sha w' ∧ w.store.hasActive id = true ∧ ¬ Agree env.sha w' := by
  obtain ⟨target, htarget, hrest⟩ := Option.bind_eq_some_iff.mp hcmd
  obtain ⟨row, hrow, rfl, rfl⟩ := Store.get_eq_some_iff.mp htarget
  by_cases hactive : w.store.hasActive row.id = true
  · have hact : row.status = "active" := by
      obtain ⟨old, hold, hoid, hoact⟩ := Store.hasActive_iff.mp hactive
      rwa [List.inj_on_of_nodup_map w.store.uuidUnique hold hrow hoid] at hoact
    simp only [Store.archive, rowToNote, hactive, if_true, Option.some.injEq] at hrest
    subst hrest
    have hback : (w.store.edit archiveEdit (isActiveRow row.id)).get row.id
        = some (rowToNote (archiveEdit.apply row)) := by
      rw [Store.get, Store.row?_edit, Store.row?_eq_some_iff.mpr ⟨hrow, rfl⟩]
      simp [isActiveRow, hact]
    rw [hback, Option.toList_some, List.map_cons, List.map_nil]
    have hal := h.rows row hrow
    obtain ⟨hsup, hinv⟩ := hal.open_of_active hact
    refine ⟨h.archiveRow hrow hact rfl rfl hal.keyed ?_ ?_, hactive, ?_⟩
    · simp [archiveEdit, hsup, stateUpdateRecord, entityUpdateRecord]
    · intro id hid
      simp [archiveEdit, hsup] at hid
    · rintro ⟨hagree, -⟩
      have hmem : archiveEdit.apply row ∈ (w.store.edit archiveEdit (isActiveRow row.id)).rows := by
        have hin := List.mem_map_of_mem
          (f := fun n => if isActiveRow row.id n then archiveEdit.apply n else n) hrow
        have hp : isActiveRow row.id row = true := by simp [isActiveRow, hact]
        rwa [hp, if_pos rfl] at hin
      obtain ⟨f, hf, hent, -, hiff⟩ := hagree _ hmem
      have hfold := mem_foldRecords.mp hf
      rw [hent] at hfold
      -- the record just appended bounds the entry, the row stays open
      have hbound : f.invalidAt.isSome := by
        refine (foldGroup_invalidAt_isSome hfold).mpr ⟨stateUpdateRecord env.sha clocks.update
          (rowToNote (archiveEdit.apply row)) "archived"
          ((rowToNote (archiveEdit.apply row)).invalidAt.or (some clocks.invalidAt)) none, ?_, ?_⟩
        · exact mem_groupOf.mpr ⟨by simp, hal.keyed⟩
        · simp [stateUpdateRecord, entityUpdateRecord]
      have hopen : (archiveEdit.apply row).invalidAt = none := hinv
      rw [hopen] at hiff
      exact absurd (hiff.mp hbound) (by simp)
  · simp [Store.archive, rowToNote, hactive] at hrest

theorem not_agreeOnState_of_archived {sha : String → String} (row : Note) {u : NoteRecord}
    (hrow : row ∈ w.store.rows) (hact : row.status = "active") (hu : u ∈ w.carrier)
    (hkey : u.resolveEntityId sha = row.entityId) (harch : u.status = "archived") :
    ¬ AgreeOnState sha w := by
  rintro ⟨hagree, -⟩
  obtain ⟨f, hf, hent, hsame, -⟩ := hagree row hrow
  have hfold := mem_foldRecords.mp hf
  rw [hent] at hfold
  obtain ⟨base, hbase⟩ := exists_base_of_foldGroup hfold
  have hstatus := (foldGroup_base hbase hfold).2.2
  rw [foldedStatus, if_pos ⟨u, mem_groupOf.mpr ⟨hu, hkey⟩, harch⟩, hsame, hact] at hstatus
  exact absurd hstatus (by decide)

/-- An add that supersedes the entry its own content is reuses that entry's row. -/
theorem Store.add_of_ownSuccessor {s : Store} (uuid : NoteId) (clocks : Clocks) {old : Note}
    (hold : old ∈ s.rows) (hsome : args.supersedes = some old.id)
    (hsame : old.entityId = args.entityId env.sha) :
    s.add env uuid clocks args
      = some (old.id, false, s.attachTagsAndFiles env old.id args.tags args.linkedFiles) := by
  have hbase : s.addNoteSuperseding env uuid clocks.createdAt clocks.unixepoch args.rowInput old.id
      = some (old.id, false, s.attachTagsAndFiles env old.id args.tags args.linkedFiles) :=
    Store.addNoteSuperseding_self env uuid clocks.createdAt clocks.unixepoch hold hsame
  simp only [Store.add, hsome, hbase, Option.map_some]

/-- It goes through, and appends an archiving record for a row it leaves active. -/
theorem Aligned.not_agreeOnState_of_ownSuccessor (h : Aligned env.sha w) {uuid : NoteId}
    (hown : ¬ NotOwnSuccessor env w (.add uuid clocks args)) :
    ¬ AgreeOnState env.sha (Memory.step env w (.add uuid clocks args)) := by
  simp only [NotOwnSuccessor, not_forall, not_not] at hown
  obtain ⟨targets, htargets, note, hnote, hsame⟩ := hown
  rcases resolveLinkTargets_superseded htargets with ⟨-, hnone⟩ | ⟨old, hold, hsome, hact, hsup⟩
  · rw [hnone] at hnote
    exact absurd hnote (by simp)
  obtain rfl : rowToNote old = note := Option.some.inj (hsup.symm.trans hnote)
  have hadd := Store.add_of_ownSuccessor uuid clocks hold hsome hsame
  have hkey : (stateUpdateRecord env.sha clocks.update (rowToNote old) "archived"
      ((rowToNote old).invalidAt.or (some clocks.invalidAt))
      (some (args.entityId env.sha))).resolveEntityId env.sha
        = ((attachEdit env args.tags args.linkedFiles).apply old).entityId :=
    (h.rows old hold).keyed
  simp only [Memory.step, Memory.memoryAdd, htargets, Option.bind_some, hadd, Option.map_some,
    hsup, Option.toList_some, List.map_cons, List.map_nil, Option.getD_some]
  refine not_agreeOnState_of_archived ((attachEdit env args.tags args.linkedFiles).apply old) ?_
    hact (by simp) hkey rfl
  have hin := List.mem_map_of_mem (f := fun n => if decide (n.id = old.id) = true then
    (attachEdit env args.tags args.linkedFiles).apply n else n) hold
  rw [decide_eq_true rfl, if_pos rfl] at hin
  unfold addEdges
  cases args.relatesTo <;> cases args.contradicts
    <;> simpa only [Store.insertEdge_rows, Store.attachTagsAndFiles, Store.edit_rows] using hin

/-! ## Runs -/

theorem Aligned.fresh (sha : String → String) : Aligned sha WriteThrough.fresh :=
  ⟨by simp [WriteThrough.fresh, Store.empty], by simp [WriteThrough.fresh]⟩

theorem Bounded.fresh (sha : String → String) : Bounded sha WriteThrough.fresh := by
  simp [Bounded, WriteThrough.fresh, Store.empty]

/-- A command that names no entry as its own successor keeps the alignment. -/
theorem Aligned.step (h : Aligned env.sha w) {c : Command} (hown : NotOwnSuccessor env w c) :
    Aligned env.sha (step env w c) := by
  cases c with
  | add uuid clocks args =>
    cases hadd : Memory.memoryAdd env w uuid clocks args with
    | none => simpa [Memory.step, hadd] using h
    | some w' => simpa [Memory.step, hadd] using (h.memoryAdd hadd hown).aligned
  | archive clocks id =>
    cases hcmd : Memory.memoryArchive env w clocks id with
    | none => simpa [Memory.step, hcmd] using h
    | some w' => simpa [Memory.step, hcmd] using (h.memoryArchive hcmd).1
  | supersede clocks oldId newId =>
    cases hcmd : Memory.memorySupersede env w clocks oldId newId with
    | none => simpa [Memory.step, hcmd] using h
    | some w' => simpa [Memory.step, hcmd] using (h.memorySupersede hcmd).aligned

/-- If it archives nothing plainly either, ends of validity stay together too. -/
theorem Bounded.step (h : Aligned env.sha w) (hb : Bounded env.sha w) {c : Command}
    (hkeeps : KeepsAgreement env w c) : Bounded env.sha (step env w c) := by
  cases c with
  | add uuid clocks args =>
    cases hadd : Memory.memoryAdd env w uuid clocks args with
    | none => simpa [Memory.step, hadd] using hb
    | some w' => simpa [Memory.step, hadd] using (h.memoryAdd hadd hkeeps.1).bounded hb
  | archive clocks id =>
    cases hcmd : Memory.memoryArchive env w clocks id with
    | none => simpa [Memory.step, hcmd] using hb
    | some w' =>
      have hactive := (h.memoryArchive hcmd).2.1
      rw [show w.store.hasActive id = false from hkeeps.2] at hactive
      exact absurd hactive (by simp)
  | supersede clocks oldId newId =>
    cases hcmd : Memory.memorySupersede env w clocks oldId newId with
    | none => simpa [Memory.step, hcmd] using hb
    | some w' => simpa [Memory.step, hcmd] using (h.memorySupersede hcmd).bounded hb

theorem Agree.agreeOnState {sha : String → String} {w : WriteThrough} (h : Agree sha w) :
    AgreeOnState sha w := by
  refine ⟨fun row hrow => ?_, h.2⟩
  obtain ⟨f, hf, hent, hsame, -⟩ := h.1 row hrow
  exact ⟨f, hf, hent, hsame⟩

theorem exists_memoryArchive (env : StoreEnv) (clocks : Clocks)
    (hactive : w.store.hasActive id = true) : ∃ w', memoryArchive env w clocks id = some w' := by
  obtain ⟨row, hrow, rfl, -⟩ := Store.hasActive_iff.mp hactive
  have hget : w.store.get row.id = some (rowToNote row) :=
    Store.get_eq_some_iff.mpr ⟨row, hrow, rfl, rfl⟩
  simp [memoryArchive, hget, rowToNote, Store.archive, hactive]

end Commands

/-- Store and carrier agree in every state of a run exactly when the run archives
    no entry without a successor and supersedes none by itself. -/
theorem agree_iff_keepsAgreement (env : StoreEnv) (commands : List Command) :
    Runs.EachState (step env) (Agree env.sha) WriteThrough.fresh commands
      ↔ Runs.EachStep (step env) (KeepsAgreement env) WriteThrough.fresh commands := by
  refine Runs.eachState_iff_eachStep (fun w => Aligned env.sha w ∧ Bounded env.sha w)
    ?_ ?_ ?_ ⟨Aligned.fresh env.sha, Bounded.fresh env.sha⟩
  · rintro w c ⟨hal, hb⟩ hkeeps
    exact ⟨hal.step hkeeps.1, hb.step hal hkeeps⟩
  · rintro w ⟨hal, hb⟩
    exact hal.agree hb
  · rintro w c ⟨hal, -⟩ hbad hagree
    rw [KeepsAgreement, not_and_or] at hbad
    rcases hbad with hown | harchive
    · cases c with
      | add uuid clocks args => exact hal.not_agreeOnState_of_ownSuccessor hown hagree.agreeOnState
      | archive clocks id => exact hown trivial
      | supersede clocks oldId newId => exact hown trivial
    · cases c with
      | add uuid clocks args => exact harchive trivial
      | archive clocks id =>
        have hactive : w.store.hasActive id = true := by simpa [NoPlainArchive] using harchive
        obtain ⟨w', hw'⟩ := exists_memoryArchive env clocks hactive
        simp only [step, hw', Option.getD_some] at hagree
        exact (hal.memoryArchive hw').2.2 hagree
      | supersede clocks oldId newId => exact harchive trivial

/-! ### An entry added and archived -/

/-- A store that keeps tags and paths as they are. -/
def axumEnv : StoreEnv where
  sha _ := "cc308a1ca5d849191e1710cc9def561377a9ef37e4fcb895e5aa3b1896e43603"
  normalizeTag := some
  linkPath := some

def axumArgs : AddArgs where
  kind := "decision"
  title := "HTTP layer"
  body := "use axum"
  tags := []
  linkedFiles := []
  validAt := none
  origin := none
  supersedes := none
  relatesTo := none
  contradicts := none

/-- Every reading of a clock within one second. -/
def clocksAt (secs : Int) : Clocks where
  createdAt := secs
  unixepoch := secs
  record := ⟨secs, secs * 1000⟩
  invalidAt := secs
  update := ⟨secs, secs * 1000 + 500⟩

/-- The row's end of validity stays unset, the fold's is the time of the archive. -/
theorem not_agree_of_archive :
    ¬ Runs.EachState (step axumEnv) (Agree axumEnv.sha) WriteThrough.fresh
      [.add ⟨"0190a1b2"⟩ (clocksAt 1700000000) axumArgs,
       .archive (clocksAt 1700000060) ⟨"0190a1b2"⟩] := by
  intro h
  obtain ⟨hrows, -⟩ := Runs.EachState.last _ h
  have hopen : ∃ row ∈ (Runs.run (step axumEnv) WriteThrough.fresh
      [.add ⟨"0190a1b2"⟩ (clocksAt 1700000000) axumArgs,
       .archive (clocksAt 1700000060) ⟨"0190a1b2"⟩]).store.rows, row.invalidAt = none := by decide
  have hbounded : ∀ f ∈ foldRecords axumEnv.sha (Runs.run (step axumEnv) WriteThrough.fresh
      [.add ⟨"0190a1b2"⟩ (clocksAt 1700000000) axumArgs,
       .archive (clocksAt 1700000060) ⟨"0190a1b2"⟩]).carrier, f.invalidAt.isSome = true := by decide
  obtain ⟨row, hrow, hnone⟩ := hopen
  obtain ⟨f, hf, -, -, hiff⟩ := hrows row hrow
  rw [hnone, hbounded f hf] at hiff
  simp at hiff

end Memory
end Inkentry
