/-
  Inkentry.Memory.Superseding

  Replacing one entry by another, statement by statement: `supersede` links two
  entries that are there, `add_note_superseding` stores the successor first, and
  both run between BEGIN and COMMIT on the store's connection.  Every statement
  may fail; the inserts that attach tags and files share one outcome, since a
  failing one among them fails the call.

  Without failures the statements do what `Store.addNoteSuperseding` and
  `Store.supersede` do (`addNoteSuperseding_of_effect`, `supersede_of_effect`).
-/

import Inkentry.Lib.Transaction
import Inkentry.Memory.Succession

namespace Inkentry
namespace Memory

open Transaction

/-! ## Statements -/

/-- `INSERT INTO notes`: whether the row went in or a unique index refused it. -/
def insertIntoNotes (n : Note) : Write Store Bool := fun s =>
  match s.insertRow n with
  | some s' => some (s', true)
  | none => some (s, false)

/-- `SELECT uuid FROM notes WHERE entity_id = ?`, which has to find a row. -/
def findEntity (entity : String) : Write Store NoteId := fun s =>
  (s.rowForEntity? entity).map fun n => (s, n.id)

def attachTagsAndFiles (env : StoreEnv) (id : NoteId) (tags linkedFiles : List String) :
    Write Store Unit := fun s => some (s.attachTagsAndFiles env id tags linkedFiles, ())

/-- The UPDATE that archives an active entry for its successor: whether a row changed.
    The column is a foreign key, so the successor has to be there. -/
def updateSuperseded (sqlNow : Int) (oldId newId : NoteId) : Write Store Bool := fun s =>
  if s.hasActive oldId then
    if s.hasNote newId then some (s.edit (supersedeEdit newId sqlNow) (isActiveRow oldId), true)
    else none
  else some (s, false)

/-- `INSERT OR IGNORE INTO memory_edges`, whose ends have to be there. -/
def insertSupersedes (newId oldId : NoteId) : Write Store Unit := fun s =>
  if s.hasNote newId && s.hasNote oldId then
    some (s.insertEdge ⟨newId, oldId, "supersedes"⟩, ())
  else none

/-- `anyhow::bail!` -/
def bail {α : Type} : Sql Store α := Sql.statement .done fun _ => none

/-! ## The functions -/

/-- How the statements of a call end. -/
structure SupersedingFaults where
  beginning : Outcome
  inserting : Outcome
  looking : Outcome
  attaching : Outcome
  updating : Outcome
  linking : Outcome
  ending : Outcome

/-- One call.  The new row's id is minted during the call, after its target was named. -/
structure SupersedingCall where
  uuid : NoteId
  createdAt : Int
  sqlNow : Int
  input : RowInput
  supersedesId : NoteId
  minted : uuid ≠ supersedesId

/-- The row the call would insert. -/
def SupersedingCall.row (env : StoreEnv) (call : SupersedingCall) : Note :=
  freshRow env call.uuid call.createdAt { call.input with sourceRef := none }

def recoverFromEntityIdCollision (env : StoreEnv) (faults : SupersedingFaults) (n : Note)
    (tags linkedFiles : List String) (inserted : Bool) : Sql Store (NoteId × Bool) :=
  if inserted then do
    -- the id is read back by rowid
    let id ← Sql.statement faults.looking (Write.read fun _ => n.id)
    Sql.statement faults.attaching (attachTagsAndFiles env id tags linkedFiles)
    pure (id, true)
  else do
    let id ← Sql.statement faults.looking (findEntity n.entityId)
    Sql.statement faults.attaching (attachTagsAndFiles env id tags linkedFiles)
    pure (id, false)

/-- Archives the old entry for the one that was stored, unless they are one. -/
def linkStored (faults : SupersedingFaults) (call : SupersedingCall) (stored : NoteId × Bool) :
    Sql Store (NoteId × Bool) :=
  if stored.1 = call.supersedesId then pure stored
  else do
    let changed ← Sql.statement faults.updating
      (updateSuperseded call.sqlNow call.supersedesId stored.1)
    if changed then do
      Sql.statement faults.linking (insertSupersedes stored.1 call.supersedesId)
      pure stored
    else bail

/-- What runs between BEGIN and COMMIT. -/
def addAndSupersede (env : StoreEnv) (faults : SupersedingFaults) (call : SupersedingCall) :
    Sql Store (NoteId × Bool) := do
  let inserted ← Sql.statement faults.inserting (insertIntoNotes (call.row env))
  let stored ← recoverFromEntityIdCollision env faults (call.row env) call.input.tags
    call.input.linkedFiles inserted
  linkStored faults call stored

def addNoteSuperseding (env : StoreEnv) (faults : SupersedingFaults) (call : SupersedingCall) :
    Sql Store (NoteId × Bool) :=
  Sql.transaction faults.beginning (addAndSupersede env faults call) faults.ending

/-- What `supersede` runs between BEGIN and COMMIT. -/
def archiveAndLink (faults : SupersedingFaults) (sqlNow : Int) (oldId newId : NoteId) :
    Sql Store Bool := do
  let changed ← Sql.statement faults.updating (updateSuperseded sqlNow oldId newId)
  Sql.onlyIf (changed = true) (Sql.statement faults.linking (insertSupersedes newId oldId))
  pure changed

def supersede (faults : SupersedingFaults) (sqlNow : Int) (oldId newId : NoteId) :
    Sql Store Bool :=
  Sql.transaction faults.beginning (archiveAndLink faults sqlNow oldId newId) faults.ending

/-! ## What they perform -/

section Regular

variable (env : StoreEnv) (faults : SupersedingFaults)

theorem regular_recover (n : Note) (tags linkedFiles : List String) (inserted : Bool) :
    Regular (recoverFromEntityIdCollision env faults n tags linkedFiles inserted) := by
  unfold recoverFromEntityIdCollision
  split
  · exact (regular_statement _ _).bind fun _ => (regular_statement _ _).bind fun _ =>
      regular_pure _
  · exact (regular_statement _ _).bind fun _ => (regular_statement _ _).bind fun _ =>
      regular_pure _

theorem regular_linkChanged (call : SupersedingCall) (stored : NoteId × Bool) (changed : Bool) :
    Regular (if changed then do
      Sql.statement faults.linking (insertSupersedes stored.1 call.supersedesId)
      pure stored
    else bail) := by
  split
  · exact (regular_statement _ _).bind fun _ => regular_pure _
  · exact regular_statement _ _

theorem regular_linkStored (call : SupersedingCall) (stored : NoteId × Bool) :
    Regular (linkStored faults call stored) := by
  unfold linkStored
  split
  · exact regular_pure _
  · exact (regular_statement _ _).bind fun changed => regular_linkChanged faults call stored changed

theorem regular_addAndSupersede (call : SupersedingCall) :
    Regular (addAndSupersede env faults call) :=
  (regular_statement _ _).bind fun _ => (regular_recover _ _ _ _ _ _).bind fun _ =>
    regular_linkStored _ _ _

theorem regular_archiveAndLink (sqlNow : Int) (oldId newId : NoteId) :
    Regular (archiveAndLink faults sqlNow oldId newId) :=
  (regular_statement _ _).bind fun _ =>
    ((regular_statement _ _).onlyIf _).bind fun _ => regular_pure _

end Regular

section Effect

variable {env : StoreEnv} {faults : SupersedingFaults} {s s' : Store}
variable {tags linkedFiles : List String} {stored : NoteId × Bool} {s₁ : Store}

theorem attached_of_effect {id : NoteId} {stored stored' : NoteId × Bool}
    (h : (Sql.statement faults.attaching (attachTagsAndFiles env id tags linkedFiles) >>= fun _ => pure stored').effect s₁ = some (s', stored))
    : s' = s₁.attachTagsAndFiles env id tags linkedFiles ∧ stored = stored' := by
  obtain ⟨s₂, _, hattach, hpure⟩ :=
    (effect_bind_eq_some_iff (regular_statement _ _) fun _ => regular_pure _).mp h
  obtain ⟨-, hattach⟩ := effect_statement_eq_some_iff.mp hattach
  obtain ⟨rfl, -⟩ := Prod.mk.inj (Option.some.inj hattach)
  rw [effect_pure] at hpure
  obtain ⟨rfl, rfl⟩ := Prod.mk.inj (Option.some.inj hpure)
  exact ⟨rfl, rfl⟩

theorem insertOrRecover_of_effect {n : Note} {inserted : Bool}
    (hins : (Sql.statement faults.inserting (insertIntoNotes n)).effect s = some (s₁, inserted))
    (hrec : (recoverFromEntityIdCollision env faults n tags linkedFiles inserted).effect s₁ = some (s', stored))
    : s.insertOrRecover env n tags linkedFiles = some (stored.1, stored.2, s') := by
  obtain ⟨-, hins⟩ := effect_statement_eq_some_iff.mp hins
  unfold insertIntoNotes at hins
  unfold recoverFromEntityIdCollision at hrec
  unfold Store.insertOrRecover
  -- the statement that looks the id up finds the new row, or the one with its entity id
  cases hrow : s.insertRow n with
  | some s₂ =>
    rw [hrow] at hins
    obtain ⟨rfl, rfl⟩ := Prod.mk.inj (Option.some.inj hins)
    rw [if_pos rfl, effect_bind_eq_some_iff (regular_statement _ _)
      fun _ => (regular_statement _ _).bind fun _ => regular_pure _] at hrec
    obtain ⟨s₃, id, hlook, hrec⟩ := hrec
    obtain ⟨-, hlook⟩ := effect_statement_eq_some_iff.mp hlook
    obtain ⟨rfl, rfl⟩ := Prod.mk.inj (Option.some.inj hlook)
    obtain ⟨rfl, rfl⟩ := attached_of_effect hrec
    rfl
  | none =>
    rw [hrow] at hins
    obtain ⟨rfl, rfl⟩ := Prod.mk.inj (Option.some.inj hins)
    rw [if_neg (by simp), effect_bind_eq_some_iff (regular_statement _ _)
      fun _ => (regular_statement _ _).bind fun _ => regular_pure _] at hrec
    obtain ⟨s₃, id, hlook, hrec⟩ := hrec
    obtain ⟨-, hlook⟩ := effect_statement_eq_some_iff.mp hlook
    obtain ⟨row, hfind, heq⟩ := Option.map_eq_some_iff.mp hlook
    obtain ⟨rfl, rfl⟩ := Prod.mk.inj heq
    obtain ⟨rfl, rfl⟩ := attached_of_effect hrec
    simp [hfind]

/-- The UPDATE and the edge are what `Store.supersede` does, and the successor is there. -/
theorem supersede_of_statements {sqlNow : Int} {oldId newId : NoteId}
    (hupdate : (Sql.statement faults.updating (updateSuperseded sqlNow oldId newId)).effect s = some (s₁, true))
    (hlink : (Sql.statement faults.linking (insertSupersedes newId oldId)).effect s₁ = some (s', ()))
    :
    s.supersede sqlNow oldId newId = (true, s') ∧ s.hasActive oldId = true
      ∧ s.hasNote newId = true := by
  obtain ⟨-, hupdate⟩ := effect_statement_eq_some_iff.mp hupdate
  obtain ⟨-, hlink⟩ := effect_statement_eq_some_iff.mp hlink
  unfold updateSuperseded at hupdate
  split at hupdate
  case isTrue hactive =>
    split at hupdate
    case isTrue hnew =>
      obtain ⟨rfl, -⟩ := Prod.mk.inj (Option.some.inj hupdate)
      unfold insertSupersedes at hlink
      split at hlink
      case isTrue =>
        obtain ⟨rfl, -⟩ := Prod.mk.inj (Option.some.inj hlink)
        exact ⟨by rw [Store.supersede, if_pos hactive], hactive, hnew⟩
      case isFalse => exact absurd hlink (by simp)
    case isFalse => exact absurd hupdate (by simp)
  case isFalse => exact absurd hupdate (by simp)

theorem updateSuperseded_false {sqlNow : Int} {oldId newId : NoteId}
    (hupdate : (Sql.statement faults.updating (updateSuperseded sqlNow oldId newId)).effect s
      = some (s', false)) : s' = s ∧ s.hasActive oldId = false := by
  obtain ⟨-, hupdate⟩ := effect_statement_eq_some_iff.mp hupdate
  unfold updateSuperseded at hupdate
  split at hupdate
  case isTrue hactive =>
    split at hupdate
    case isTrue => exact absurd (Prod.mk.inj (Option.some.inj hupdate)).2 (by simp)
    case isFalse => exact absurd hupdate (by simp)
  case isFalse hactive =>
    exact ⟨(Prod.mk.inj (Option.some.inj hupdate)).1.symm, by simpa using hactive⟩

theorem effect_bail {α : Type} : (bail : Sql Store α).effect s = none := rfl

/-- What the statements of a call do when they work is what the store's operation does. -/
theorem addNoteSuperseding_of_effect {call : SupersedingCall}
    (h : (addAndSupersede env faults call).effect s = some (s', stored)) :
    s.addNoteSuperseding env call.uuid call.createdAt call.sqlNow call.input call.supersedesId
      = some (stored.1, stored.2, s') := by
  obtain ⟨s₁, inserted, hins, h⟩ := (effect_bind_eq_some_iff (regular_statement _ _) fun _ =>
    (regular_recover _ _ _ _ _ _).bind fun _ => regular_linkStored _ _ _).mp h
  obtain ⟨s₂, stored', hrec, h⟩ := (effect_bind_eq_some_iff (regular_recover _ _ _ _ _ _)
    fun _ => regular_linkStored _ _ _).mp h
  have hstored := insertOrRecover_of_effect hins hrec
  rw [SupersedingCall.row] at hstored
  rw [Store.addNoteSuperseding, hstored, Option.bind_some]
  unfold linkStored at h
  split at h
  case isTrue hsame =>
    rw [effect_pure] at h
    obtain ⟨rfl, rfl⟩ := Prod.mk.inj (Option.some.inj h)
    exact if_pos hsame
  case isFalse hother =>
    obtain ⟨s₃, changed, hupdate, h⟩ := (effect_bind_eq_some_iff (regular_statement _ _)
      fun changed => regular_linkChanged faults call stored' changed).mp h
    cases changed with
    -- no row was archived: the transaction fails
    | false => rw [if_neg (by simp), effect_bail] at h; cases h
    | true =>
      rw [if_pos rfl] at h
      obtain ⟨s₄, _, hlink, hpure⟩ :=
        (effect_bind_eq_some_iff (regular_statement _ _) fun _ => regular_pure _).mp h
      rw [effect_pure] at hpure
      obtain ⟨rfl, rfl⟩ := Prod.mk.inj (Option.some.inj hpure)
      obtain ⟨hsupersede, -, -⟩ := supersede_of_statements hupdate hlink
      simp only [if_neg hother, hsupersede, if_true]

theorem supersede_of_effect {sqlNow : Int} {oldId newId : NoteId} {changed : Bool}
    (h : (archiveAndLink faults sqlNow oldId newId).effect s = some (s', changed)) :
    s.supersede sqlNow oldId newId = (changed, s') ∧ s.hasActive oldId = changed
      ∧ (changed = true → s.hasNote newId = true) := by
  obtain ⟨s₁, changed', hupdate, h⟩ := (effect_bind_eq_some_iff (regular_statement _ _) fun _ =>
    ((regular_statement _ _).onlyIf _).bind fun _ => regular_pure _).mp h
  obtain ⟨s₂, _, hlink, hpure⟩ := (effect_bind_eq_some_iff ((regular_statement _ _).onlyIf _)
    fun _ => regular_pure _).mp h
  rw [effect_pure] at hpure
  obtain ⟨rfl, rfl⟩ := Prod.mk.inj (Option.some.inj hpure)
  rw [effect_onlyIf_eq_some_iff] at hlink
  cases changed' with
  | false =>
    rw [if_neg (by simp)] at hlink
    obtain ⟨rfl, hactive⟩ := updateSuperseded_false hupdate
    subst hlink
    exact ⟨by rw [Store.supersede, if_neg (by simp [hactive])], hactive, fun h => by cases h⟩
  | true =>
    rw [if_pos rfl] at hlink
    obtain ⟨hsupersede, hactive, hnew⟩ := supersede_of_statements hupdate hlink
    exact ⟨hsupersede, hactive, fun _ => hnew⟩

end Effect

/-! ## What a call leaves -/

/-- A row is its own successor. -/
def SelfSuperseded (s : Store) (id : NoteId) : Prop :=
  ∃ n ∈ s.rows, n.id = id ∧ n.supersededBy = some id

/-- The old row once it is archived for its successor. -/
def archivedFor (newId : NoteId) (sqlNow : Int) (n : Note) : Note :=
  { n with
    status := "archived"
    supersededBy := some newId
    invalidAt := n.invalidAt.or (some sqlNow) }

/-- `s'` is `s` with an active row archived for another row, and the edge between them. -/
structure Replaces (s s' : Store) (sqlNow : Int) (oldId newId : NoteId) : Prop where
  apart : newId ≠ oldId
  active : ∃ n ∈ s.rows, n.id = oldId ∧ n.status = "active"
  successor : ∃ n ∈ s'.rows, n.id = newId
  rows : s'.rows = s.rows.map fun n => if n.id = oldId then archivedFor newId sqlNow n else n
  edges : s'.edges = if (⟨newId, oldId, "supersedes"⟩ : MemoryEdge) ∈ s.edges then s.edges
    else s.edges ++ [⟨newId, oldId, "supersedes"⟩]

/-- A row with the call's tags and files joined to its own. -/
def SupersedingCall.attached (env : StoreEnv) (call : SupersedingCall) (n : Note) : Note :=
  (attachEdit env call.input.tags call.input.linkedFiles).apply n

/-- `s'` is `s` with the call's entry: a new row, or the row with its content, with the tags
    and files attached. -/
structure StoresEntry (env : StoreEnv) (call : SupersedingCall) (s s' : Store) (id : NoteId)
    (created : Bool) : Prop where
  edges : s'.edges = s.edges
  rows : created = true ∧ id = call.uuid
      ∧ s'.rows = s.rows ++ [call.attached env (call.row env)]
    ∨ created = false ∧ (∃ n ∈ s.rows, n.id = id ∧ n.entityId = (call.row env).entityId)
      ∧ s'.rows = s.rows.map fun n => if n.id = id then call.attached env n else n

section Leaves

variable {env : StoreEnv} {s s' : Store} {sqlNow : Int} {oldId newId : NoteId}
variable {call : SupersedingCall} {id : NoteId}

/-- The id is unique, so the UPDATE matches the row with the id. -/
theorem isActiveRow_eq_of_hasActive (hactive : s.hasActive oldId = true) {n : Note}
    (hn : n ∈ s.rows) : isActiveRow oldId n = decide (n.id = oldId) := by
  obtain ⟨m, hm, hid, hstatus⟩ := Store.hasActive_iff.mp hactive
  by_cases hnid : n.id = oldId
  · have hnm : n = m := List.inj_on_of_nodup_map s.uuidUnique hn hm (hnid.trans hid.symm)
    simp [isActiveRow, hnm, hid, hstatus]
  · simp [isActiveRow, hnid]

theorem replaces_of_supersede (hne : newId ≠ oldId) (hactive : s.hasActive oldId = true)
    (hnew : ∃ n ∈ s.rows, n.id = newId) (h : (s.supersede sqlNow oldId newId).2 = s') :
    Replaces s s' sqlNow oldId newId := by
  rw [Store.supersede, if_pos hactive] at h
  subst h
  have hrows : ((s.edit (supersedeEdit newId sqlNow) (isActiveRow oldId)).insertEdge
      ⟨newId, oldId, "supersedes"⟩).rows
        = s.rows.map fun n => if n.id = oldId then archivedFor newId sqlNow n else n := by
    rw [Store.insertEdge_rows]
    refine List.map_congr_left fun n hn => ?_
    rw [isActiveRow_eq_of_hasActive hactive hn]
    by_cases hid : n.id = oldId
    · simp only [hid, decide_true, if_true]
      rfl
    · simp [hid]
  refine ⟨hne, Store.hasActive_iff.mp hactive, ?_, hrows, ?_⟩
  · obtain ⟨n, hn, rfl⟩ := hnew
    rw [hrows]
    refine ⟨_, List.mem_map_of_mem hn, ?_⟩
    rw [if_neg hne]
  · rw [Store.insertEdge_edges]
    rfl

theorem storesEntry_of_insertOrRecover {created : Bool}
    (h : s.insertOrRecover env (call.row env) call.input.tags call.input.linkedFiles = some (id, created, s'))
    : StoresEntry env call s s' id created := by
  rcases Store.insertOrRecover_cases h with ⟨rfl, rfl, s₁, hins, rfl⟩ | ⟨rfl, n, hn, hentity, rfl, rfl⟩
  · obtain ⟨hrows, hedges, hfresh, -⟩ := Store.insertRow_eq_some hins
    refine ⟨hedges, .inl ⟨rfl, rfl, ?_⟩⟩
    show s₁.rows.map _ = _
    rw [hrows, List.map_append, List.map_singleton]
    refine congrArg₂ _ ((List.map_congr_left fun n hn => ?_).trans (List.map_id _)) ?_
    · have hid : n.id ≠ (call.row env).id := fun hid => hfresh (hid ▸ List.mem_map_of_mem hn)
      simp [hid]
    · simp [SupersedingCall.attached]
  · refine ⟨rfl, .inr ⟨rfl, ⟨n, hn, rfl, hentity⟩, ?_⟩⟩
    refine List.map_congr_left fun m _ => ?_
    by_cases hid : m.id = n.id <;> simp [hid, SupersedingCall.attached]

/-! ## No row becomes its own successor -/

theorem Replaces.selfSuperseded (h : Replaces s s' sqlNow oldId newId)
    (hself : SelfSuperseded s' id) : SelfSuperseded s id := by
  obtain ⟨n', hn', hid, hself⟩ := hself
  rw [h.rows] at hn'
  obtain ⟨n, hn, rfl⟩ := List.mem_map.mp hn'
  split at hid
  case isTrue hold =>
    -- the old row's successor is another row
    rw [if_pos hold] at hself
    have hnew : newId = id := Option.some.inj hself
    exact absurd (hnew.trans (hid.symm.trans hold)) h.apart
  case isFalse hold =>
    rw [if_neg hold] at hself
    exact ⟨n, hn, hid, hself⟩

theorem StoresEntry.selfSuperseded {created : Bool} (h : StoresEntry env call s s' newId created)
    (hself : SelfSuperseded s' id) : SelfSuperseded s id := by
  obtain ⟨n', hn', hid, hself⟩ := hself
  rcases h.rows with ⟨-, -, hrows⟩ | ⟨-, -, hrows⟩
  · rw [hrows] at hn'
    rcases List.mem_append.mp hn' with hold | hnew
    · exact ⟨n', hold, hid, hself⟩
    · rw [List.mem_singleton.mp hnew] at hself
      exact absurd hself (by simp [SupersedingCall.attached, SupersedingCall.row, attachEdit, freshRow])
  · rw [hrows] at hn'
    obtain ⟨n, hn, rfl⟩ := List.mem_map.mp hn'
    split at hid
    case isTrue hsame =>
      rw [if_pos hsame] at hself
      exact ⟨n, hn, hid, hself⟩
    case isFalse hsame =>
      rw [if_neg hsame] at hself
      exact ⟨n, hn, hid, hself⟩

end Leaves

/-! ## The outcome of a call -/

variable {c : Connection Store}

/-- A call of `add_note_superseding` fails and leaves everything, or it stores its entry and
    either that is the old one, with nothing archived, or the old one is replaced by it. -/
def AddsOrLeaves (env : StoreEnv) (call : SupersedingCall) (c : Connection Store)
    (r : Connection Store × Option (NoteId × Bool)) : Prop :=
  r = (c, none) ∨ ∃ id created s₁ s', r = (.idle s', some (id, created))
    ∧ StoresEntry env call c.db s₁ id created
    ∧ (id = call.supersedesId ∧ created = false ∧ s' = s₁
      ∨ Replaces s₁ s' call.sqlNow call.supersedesId id)

/-- A call of `supersede` leaves everything, with an error or because the old entry is not
    active, or replaces the old entry. -/
def ReplacesOrLeaves (sqlNow : Int) (oldId newId : NoteId) (c : Connection Store)
    (r : Connection Store × Option Bool) : Prop :=
  r = (c, none) ∨ r = (c, some false) ∧ c.db.hasActive oldId = false
    ∨ ∃ s', r = (.idle s', some true) ∧ Replaces c.db s' sqlNow oldId newId

/-- A transaction whose COMMIT does not fail half-way changes nothing, or does what its
    statements do. -/
theorem transaction_cases {α : Type} {x : Sql Store α} (hx : Regular x) {beginning ending : Outcome}
    (hending : ending ≠ .failed) (c : Connection Store) :
    Sql.transaction beginning x ending c = (c, none)
      ∨ c.saved = none ∧ ∃ s' a, x.effect c.db = some (s', a)
        ∧ Sql.transaction beginning x ending c = (.idle s', some a) := by
  obtain ⟨s, saved⟩ := c
  cases saved with
  | some s₀ => exact .inl rfl
  | none =>
    have h := transaction_of_regular hx beginning ending s
    change Sql.transaction beginning x ending (.idle s) = (.idle s, none) ∨ _
    cases heffect : Write.guarded beginning x.effect s with
    | none =>
      rw [heffect] at h
      exact .inl h
    | some r =>
      obtain ⟨s', a⟩ := r
      rw [heffect] at h
      obtain ⟨-, heffect⟩ := Write.guarded_eq_some_iff.mp heffect
      cases ending with
      | done => exact .inr ⟨rfl, s', a, heffect, h⟩
      | failed => exact absurd rfl hending
      | rolledBack => exact .inl h

theorem addsOrLeaves {faults : SupersedingFaults} (hending : faults.ending ≠ .failed)
    (env : StoreEnv) (call : SupersedingCall) (c : Connection Store) :
    AddsOrLeaves env call c (addNoteSuperseding env faults call c) := by
  rcases transaction_cases (regular_addAndSupersede env faults call) hending c with
    h | ⟨-, s', ⟨id, created⟩, heffect, h⟩
  · exact .inl h
  · obtain ⟨s₁, hins, hlink⟩ :=
      Store.addNoteSuperseding_cases (addNoteSuperseding_of_effect heffect)
    have hstored := storesEntry_of_insertOrRecover hins
    refine .inr ⟨id, created, s₁, s', h, hstored, ?_⟩
    rcases hlink with ⟨hsame, rfl⟩ | ⟨hne, hactive, hs'⟩
    · refine .inl ⟨hsame, ?_, rfl⟩
      rcases hstored.rows with ⟨-, huuid, -⟩ | ⟨hcreated, -⟩
      · exact absurd (huuid.symm.trans hsame) call.minted
      · exact hcreated
    · refine .inr (replaces_of_supersede hne hactive (Store.exists_of_insertOrRecover hins) ?_)
      rw [Store.supersede, if_pos hactive, hs']

theorem replacesOrLeaves {faults : SupersedingFaults} (hending : faults.ending ≠ .failed)
    (sqlNow : Int) {oldId newId : NoteId} (hne : newId ≠ oldId) (c : Connection Store) :
    ReplacesOrLeaves sqlNow oldId newId c (supersede faults sqlNow oldId newId c) := by
  rcases transaction_cases (regular_archiveAndLink faults sqlNow oldId newId) hending c with
    h | ⟨hidle, s', changed, heffect, h⟩
  · exact .inl h
  · obtain ⟨hsupersede, hactive, hnew⟩ := supersede_of_effect heffect
    cases changed with
    | false =>
      refine .inr (.inl ⟨?_, hactive⟩)
      have hs' : s' = c.db := by
        rw [Store.supersede, if_neg (by simp [hactive])] at hsupersede
        exact (Prod.mk.inj hsupersede).2.symm
      refine h.trans ?_
      rw [hs']
      exact congrArg (·, some false) (Connection.ext rfl hidle.symm)
    | true =>
      exact .inr (.inr ⟨s', h, replaces_of_supersede hne hactive
        (Store.hasNote_iff.mp (hnew rfl)) (by rw [hsupersede])⟩)

theorem AddsOrLeaves.selfSuperseded {env : StoreEnv} {call : SupersedingCall}
    {r : Connection Store × Option (NoteId × Bool)} (h : AddsOrLeaves env call c r) {id : NoteId}
    (hself : SelfSuperseded r.1.db id) : SelfSuperseded c.db id := by
  rcases h with rfl | ⟨newId, created, s₁, s', rfl, hstored, ⟨-, -, rfl⟩ | hreplaces⟩
  · exact hself
  · exact hstored.selfSuperseded hself
  · exact hstored.selfSuperseded (hreplaces.selfSuperseded hself)

theorem ReplacesOrLeaves.selfSuperseded {sqlNow : Int} {oldId newId : NoteId}
    {r : Connection Store × Option Bool} (h : ReplacesOrLeaves sqlNow oldId newId c r) {id : NoteId}
    (hself : SelfSuperseded r.1.db id) : SelfSuperseded c.db id := by
  rcases h with rfl | ⟨rfl, -⟩ | ⟨s', rfl, hreplaces⟩
  · exact hself
  · exact hself
  · exact hreplaces.selfSuperseded hself

end Memory
end Inkentry
