/-
  Inkentry.Memory.WriteThrough

  The memory commands on a machine whose primary store is the local one and
  whose git-notes carrier follows along: each command writes the store and then
  appends records to the carrier, which nobody reads until somebody folds it.

  `Agree` compares the two: every row's status, successor and end of validity
  against its entry's fold.  `Aligned` is the invariant behind it, stated on the
  unfolded records of the row's group.  Two commands break it: `archive`, whose
  row keeps no end of validity while its record carries one, and
  `add --supersedes` of an entry's own content, which leaves the row active and
  appends an archiving record (`agree_iff_keepsAgreement`).
-/

import Inkentry.Lib.Runs
import Inkentry.GitNotes.FoldSpec
import Inkentry.GitNotes.Repo
import Inkentry.Memory.Store

namespace Inkentry
namespace Memory

open GitNotes

/-- The store and the carrier's records, oldest first. -/
structure WriteThrough where
  store : Store
  carrier : List NoteRecord

/-- A machine on which nothing is recorded. -/
def WriteThrough.fresh : WriteThrough := ⟨Store.empty, []⟩

/-! ## Commands -/

/-- The arguments of `memory add`. -/
structure AddArgs where
  kind : String
  title : String
  body : String
  tags : List String
  linkedFiles : List String
  validAt : Option Int
  origin : Option Origin
  supersedes : Option NoteId
  relatesTo : Option NoteId
  contradicts : Option NoteId

/-- What a command reads from the clock: the row's creation time, SQLite's own
    clock, the appended record's, the end of validity's and the update's. -/
structure Clocks where
  createdAt : Int
  unixepoch : Int
  record : Clock
  invalidAt : Int
  update : Clock

/-- The entries an `add` links to, looked up before anything is written. -/
structure LinkTargets where
  superseded : Option Note
  relatesTo : Option String
  contradicts : Option String

/-- The entry to supersede has to be active; the others only have to exist. -/
def resolveLinkTargets (env : StoreEnv) (s : Store) (args : AddArgs) : Option LinkTargets :=
  let superseded : Option (Option Note) := match args.supersedes with
    | none => some none
    | some oldId => match s.get oldId with
      | some note => if note.status = "active" then some (some note) else none
      | none => none
  let linked (target : Option NoteId) : Option (Option String) := match target with
    | none => some none
    | some id => (s.get id).map fun note => some (noteEntityId env.sha note)
  superseded.bind fun superseded =>
    (linked args.relatesTo).bind fun relatesTo =>
      (linked args.contradicts).map fun contradicts => ⟨superseded, relatesTo, contradicts⟩

def AddArgs.rowInput (args : AddArgs) : RowInput :=
  ⟨args.kind, args.title, args.body, args.tags, args.linkedFiles, none, args.validAt⟩

def AddArgs.entityId (sha : String → String) (args : AddArgs) : String :=
  Inkentry.entityId sha args.kind args.title args.body

/-- The store's part of an `add`: `(id, created)` and the store. -/
def Store.add (env : StoreEnv) (s : Store) (uuid : NoteId) (clocks : Clocks) (args : AddArgs) :
    Option (NoteId × Bool × Store) :=
  let added := match args.supersedes with
    | some oldId =>
      s.addNoteSuperseding env uuid clocks.createdAt clocks.unixepoch args.rowInput oldId
    | none => s.addNote env uuid clocks.createdAt args.rowInput
  added.map fun (id, created, s') =>
    match created, args.origin with
    | true, some origin => (id, created, s'.setOrigin id origin)
    | _, _ => (id, created, s')

/-- The edges an `add` was asked for. -/
def addEdges (s : Store) (id : NoteId) (args : AddArgs) : Store :=
  let s := match args.relatesTo with
    | some target => s.insertEdge ⟨id, target, "relates_to"⟩
    | none => s
  match args.contradicts with
  | some target => s.insertEdge ⟨id, target, "contradicts"⟩
  | none => s

/-- The record `memory add` carries for the entry. -/
def carriedRecord (sha : String → String) (clock : Clock) (id : NoteId) (args : AddArgs)
    (targets : LinkTargets) : NoteRecord where
  schemaVersion := 1
  id := (carrierId id).getD clock.nowMillis
  kind := args.kind
  title := args.title
  body := args.body
  tags := args.tags
  linkedFiles := args.linkedFiles
  createdAt := clock.nowSecs
  status := "active"
  sourceRef := none
  validAt := args.validAt
  invalidAt := none
  supersededBy := none
  remoteId := none
  entityId := some (args.entityId sha)
  supersededByEntityId := none
  edges := targets.relatesTo.toList.map (CarriedEdge.mk "relates_to")
    ++ targets.contradicts.toList.map (CarriedEdge.mk "contradicts")
  origin := args.origin
  op := none
  patchId := none

/-- `memory add`; `none` when it fails, which it does before it writes. -/
def memoryAdd (env : StoreEnv) (w : WriteThrough) (uuid : NoteId) (clocks : Clocks)
    (args : AddArgs) : Option WriteThrough :=
  (resolveLinkTargets env w.store args).bind fun targets =>
    (w.store.add env uuid clocks args).map fun (id, _, s) =>
      { store := addEdges s id args
        carrier := w.carrier ++ [carriedRecord env.sha clocks.record id args targets]
          ++ targets.superseded.toList.map fun old =>
            stateUpdateRecord env.sha clocks.update old "archived"
              (old.invalidAt.or (some clocks.invalidAt)) (some (args.entityId env.sha)) }

/-- `memory archive`: archives, reads the entry back and carries its state. -/
def memoryArchive (env : StoreEnv) (w : WriteThrough) (clocks : Clocks) (id : NoteId) :
    Option WriteThrough :=
  (w.store.get id).bind fun target =>
    let (changed, s) := w.store.archive target.id
    if changed then
      some
        { store := s
          carrier := w.carrier ++ (s.get target.id).toList.map fun note =>
            stateUpdateRecord env.sha clocks.update note "archived"
              (note.invalidAt.or (some clocks.invalidAt)) none }
    else none

/-- `memory supersede`: an entry is not superseded by itself. -/
def memorySupersede (env : StoreEnv) (w : WriteThrough) (clocks : Clocks) (oldId newId : NoteId) :
    Option WriteThrough :=
  (w.store.get newId).bind fun newNote =>
    (w.store.get oldId).bind fun oldTarget =>
      if oldTarget.id = newNote.id then none
      else
        let (changed, s) := w.store.supersede clocks.unixepoch oldTarget.id newNote.id
        if changed then
          some
            { store := s
              carrier := w.carrier ++ (s.get oldTarget.id).toList.map fun old =>
                stateUpdateRecord env.sha clocks.update old "archived"
                  (old.invalidAt.or (some clocks.invalidAt))
                  (some (noteEntityId env.sha newNote)) }
        else none

/-- The commands, with the id a new row is given and the clock readings. -/
inductive Command where
  | add (uuid : NoteId) (clocks : Clocks) (args : AddArgs)
  | archive (clocks : Clocks) (id : NoteId)
  | supersede (clocks : Clocks) (oldId newId : NoteId)

/-- One command; a command that fails changes nothing. -/
def step (env : StoreEnv) (w : WriteThrough) : Command → WriteThrough
  | .add uuid clocks args => (memoryAdd env w uuid clocks args).getD w
  | .archive clocks id => (memoryArchive env w clocks id).getD w
  | .supersede clocks oldId newId => (memorySupersede env w clocks oldId newId).getD w

/-! ## Agreement -/

/-- Row and fold show one status and one successor. -/
def SameState (s : Store) (row : Note) (f : NoteRecord) : Prop :=
  f.status = row.status ∧ f.supersededByEntityId = row.supersededBy.bind s.entityOf

/-- The carrier folds to exactly the store's entries, each in its row's state. -/
def AgreeOnState (sha : String → String) (w : WriteThrough) : Prop :=
  (∀ row ∈ w.store.rows, ∃ f ∈ foldRecords sha w.carrier,
    f.resolveEntityId sha = row.entityId ∧ SameState w.store row f)
  ∧ ∀ f ∈ foldRecords sha w.carrier, ∃ row ∈ w.store.rows,
    row.entityId = f.resolveEntityId sha

/-- The same, and an end of validity is present in one when it is in the other. -/
def Agree (sha : String → String) (w : WriteThrough) : Prop :=
  (∀ row ∈ w.store.rows, ∃ f ∈ foldRecords sha w.carrier,
    f.resolveEntityId sha = row.entityId ∧ SameState w.store row f
      ∧ (f.invalidAt.isSome ↔ row.invalidAt.isSome))
  ∧ ∀ f ∈ foldRecords sha w.carrier, ∃ row ∈ w.store.rows,
    row.entityId = f.resolveEntityId sha

/-- An `add --supersedes` that goes through names another entry than the one its
    own content is. -/
def NotOwnSuccessor (env : StoreEnv) (w : WriteThrough) : Command → Prop
  | .add _ _ args => ∀ targets, resolveLinkTargets env w.store args = some targets →
      ∀ old ∈ targets.superseded, old.entityId ≠ args.entityId env.sha
  | .archive .. => True
  | .supersede .. => True

/-- The command archives nothing without naming a successor. -/
def NoPlainArchive (w : WriteThrough) : Command → Prop
  | .archive _ id => w.store.hasActive id = false
  | .add .. => True
  | .supersede .. => True

/-- The commands that keep store and carrier together. -/
def KeepsAgreement (env : StoreEnv) (w : WriteThrough) (c : Command) : Prop :=
  NotOwnSuccessor env w c ∧ NoPlainArchive w c

/-! ## The invariant -/

/-- A row and the unfolded records of its entry. -/
structure RowAligned (sha : String → String) (s : Store) (g : List NoteRecord) (row : Note) :
    Prop where
  keyed : noteEntityId sha row = row.entityId
  carried : g ≠ []
  known : ∀ r ∈ g, r.status = "active" ∨ r.status = "archived"
  status : row.status = if ∃ r ∈ g, r.status = "archived" then "archived" else "active"
  /-- A copy that names a successor names the row's. -/
  named : ∀ r ∈ g, ∀ e, r.supersededByEntityId = some e → row.supersededBy.bind s.entityOf = some e
  /-- The row's successor exists and is named by a copy. -/
  names : ∀ id, row.supersededBy = some id →
    (s.entityOf id).isSome ∧ ∃ r ∈ g, r.supersededByEntityId.isSome
  /-- An active row is open-ended and has no successor. -/
  open_of_active : row.status = "active" → row.supersededBy = none ∧ row.invalidAt = none

/-- Every row is aligned with its records, and every record belongs to a row. -/
structure Aligned (sha : String → String) (w : WriteThrough) : Prop where
  rows : ∀ row ∈ w.store.rows, RowAligned sha w.store (groupOf sha w.carrier row.entityId) row
  stored : ∀ r ∈ w.carrier, ∃ row ∈ w.store.rows, row.entityId = r.resolveEntityId sha

/-- A row has an end of validity when a copy of it has. -/
def Bounded (sha : String → String) (w : WriteThrough) : Prop :=
  ∀ row ∈ w.store.rows,
    (row.invalidAt.isSome ↔ ∃ r ∈ groupOf sha w.carrier row.entityId, r.invalidAt.isSome)

section Fold

variable {sha : String → String}
variable {w : WriteThrough}

theorem RowAligned.fold {row : Note}
    (h : RowAligned sha w.store (groupOf sha w.carrier row.entityId) row) :
    ∃ f ∈ foldRecords sha w.carrier, f.resolveEntityId sha = row.entityId
      ∧ SameState w.store row f
      ∧ foldGroup (groupOf sha w.carrier row.entityId) = some f := by
  obtain ⟨f, hf⟩ := Option.isSome_iff_exists.mp (foldGroup_isSome h.carried)
  have hent := foldGroup_resolveEntityId (fun r hr => (mem_groupOf.mp hr).2) hf
  refine ⟨f, mem_foldRecords.mpr (hent ▸ hf), hent, ⟨?_, ?_⟩, hf⟩
  · rw [foldGroup_status hf h.known, h.status]
  · rw [foldGroup_supersededByEntityId hf]
    cases hres : resolveSupersededByEntityId (groupOf sha w.carrier row.entityId) with
    | some e =>
      obtain ⟨r, hr, hre⟩ := resolveSupersededByEntityId_eq_some hres
      exact (h.named r hr e hre).symm
    | none =>
      have hnone := resolveSupersededByEntityId_eq_none_iff.mp hres
      cases hsup : row.supersededBy with
      | none => rfl
      | some id =>
        obtain ⟨-, r, hr, hsome⟩ := h.names id hsup
        rw [hnone r hr] at hsome
        exact absurd hsome (by simp)

theorem Aligned.agreeOnState (h : Aligned sha w) : AgreeOnState sha w := by
  constructor
  · intro row hrow
    obtain ⟨f, hf, hent, hsame, -⟩ := (h.rows row hrow).fold
    exact ⟨f, hf, hent, hsame⟩
  · intro f hf
    have hgroup := mem_foldRecords.mp hf
    obtain ⟨base, hbase⟩ := exists_base_of_foldGroup hgroup
    obtain ⟨hmem, hkey⟩ := mem_groupOf.mp (List.argmin_mem hbase)
    obtain ⟨row, hrow, hent⟩ := h.stored base hmem
    exact ⟨row, hrow, hent.trans hkey⟩

theorem Aligned.agree (h : Aligned sha w) (hb : Bounded sha w) : Agree sha w := by
  refine ⟨?_, h.agreeOnState.2⟩
  intro row hrow
  obtain ⟨f, hf, hent, hsame, hfold⟩ := (h.rows row hrow).fold
  exact ⟨f, hf, hent, hsame, (foldGroup_invalidAt_isSome hfold).trans (hb row hrow).symm⟩

end Fold

end Memory
end Inkentry
