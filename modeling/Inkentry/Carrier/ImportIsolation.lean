/-
  Inkentry.Carrier.ImportIsolation

  The import of the notes ref as it runs on the store's connection: one
  transaction around the inserts, the edges and the recorded OID, which the
  first entry that cannot be written rolls back.

  A failed import therefore leaves the rows and the recorded OID as they were
  (`unchanged_of_failed`), and for the same reason one entry with a linked path
  that leaves the project keeps every other one out: `isolates_iff`.

  The statements of one call share an outcome, since an error in any of them
  ends in the same ROLLBACK.
-/

import Inkentry.Carrier.Completeness
import Inkentry.Lib.Transaction
import Inkentry.Memory.FileLinks

namespace Inkentry
namespace Carrier

open GitNotes Memory Transaction

/-! ## The import on a connection -/

/-- How the statements of an import end, and whether the store opens. -/
structure ImportFaults where
  opens : Bool
  marking : Outcome
  beginning : Outcome
  adding : Nat → Outcome
  edges : Outcome
  supersedes : Outcome
  stamping : Outcome
  ending : Outcome

section

variable {Oid : Type*}

/-- `add_note_with_created_at` on the store's tables. -/
def addImported (env : ImportEnv) (uuid : NoteId) (n : Note) : Write (MemoryDb Oid) Unit := fun db =>
  (addNoteWithCreatedAt env db.store uuid n).map fun s => ({ db with store := s }, ())

/-- The loop over the entries to import. -/
def addAll (env : ImportEnv) (mint : Nat → NoteId) (adding : Nat → Outcome) :
    Nat → List Note → Sql (MemoryDb Oid) Unit
  | _, [] => pure ()
  | i, n :: rest => do
    Sql.statement (adding i) (addImported env (mint i) n)
    addAll env mint adding (i + 1) rest

def applyCarried (edges : List (String × CarriedEdge)) : Write (MemoryDb Oid) CarriedEdgeImport :=
  fun db => some ({ db with store := (importCarriedEdges db.store edges).2 },
    (importCarriedEdges db.store edges).1)

def applySupersedes (pairs : List (String × String)) : Write (MemoryDb Oid) CarriedEdgeImport :=
  fun db => some ({ db with store := (importSupersedeEdges db.store pairs).2 },
    (importSupersedeEdges db.store pairs).1)

/-- `set_notes_imported_working_oid`. -/
def setImportedWorkingOid (oid : Option Oid) : Write (MemoryDb Oid) Unit := fun db =>
  some ({ db with lastImportedWorkingOid := oid }, ())

/-- What runs between BEGIN IMMEDIATE and COMMIT. -/
def importBody (env : ImportEnv) (mint : Nat → NoteId) (faults : ImportFaults)
    (workingOid : Option Oid) (toImport : List Note) (carried : List (String × CarriedEdge))
    (supersedes : List (String × String)) : Sql (MemoryDb Oid) GitNotesImport := do
  addAll env mint faults.adding 0 toImport
  let edges ← Sql.statement faults.edges (applyCarried carried)
  let superseded ← Sql.statement faults.supersedes (applySupersedes supersedes)
  Sql.statement faults.stamping (setImportedWorkingOid workingOid)
  pure ⟨toImport.length, edges.applied, edges.unresolved, superseded.applied,
    superseded.unresolved⟩

/-- The tables once the connection is closed, which undoes what is still open on it. -/
def closed (conn : Connection (MemoryDb Oid)) : MemoryDb Oid := conn.rollback.db

/-- `import_git_notes_into_memory`, from the listing on: the store afterwards and the answer.
    The mark without an import is best effort. -/
def runImport (env : ImportEnv) (mint : Nat → NoteId) (faults : ImportFaults) (notes : List Note)
    (workingOid : Option Oid) (existing : List String) (carried : List (String × CarriedEdge))
    (supersedes : List (String × String)) (db? : Option (MemoryDb Oid)) :
    Option (MemoryDb Oid) × Option GitNotesImport :=
  if notes = [] then
    (db?.map fun db =>
      if faults.opens ∧ faults.marking = .done then { db with lastImportedWorkingOid := workingOid }
      else db, some .nothing)
  else if faults.opens = false then (db?, none)
  else
    let db := db?.getD .fresh
    let toImport := newEntries env.sha existing notes
    if toImport = [] ∧ carried = [] ∧ supersedes = [] then
      (some (if faults.marking = .done then { db with lastImportedWorkingOid := workingOid } else db),
        some .nothing)
    else
      let done := Sql.transaction faults.beginning
        (importBody env mint faults workingOid toImport carried supersedes) faults.ending
        (Connection.idle db)
      (some (closed done.1), done.2)

/-- The import of a ref. -/
def importRef (env : ImportEnv) (mint : Nat → NoteId) (faults : ImportFaults) (repo : Repo)
    (workingOid : Option Oid) (db? : Option (MemoryDb Oid)) :
    Option (MemoryDb Oid) × Option GitNotesImport :=
  match listForImport env.sha repo, carriedEdges env.sha repo, carriedSupersedeEdges env.sha repo with
  | some notes, some carried, some supersedes =>
    runImport env mint faults notes workingOid (knownContents env.sha db?) carried supersedes db?
  | _, _, _ => (db?, none)

/-! ## What the transaction writes -/

variable {env : ImportEnv} {mint : Nat → NoteId} {faults : ImportFaults} {workingOid : Option Oid}
variable {notes : List Note} {adding : Nat → Outcome} {db db' : MemoryDb Oid}

theorem regular_addAll (env : ImportEnv) (mint : Nat → NoteId) (adding : Nat → Outcome) (i : Nat)
    (notes : List Note) : Regular (addAll env mint adding i notes : Sql (MemoryDb Oid) Unit) := by
  induction notes generalizing i with
  | nil => exact regular_pure _
  | cons n rest ih => exact (regular_statement _ _).bind fun _ => ih (i + 1)

theorem regular_importBody (env : ImportEnv) (mint : Nat → NoteId) (faults : ImportFaults)
    (workingOid : Option Oid) (toImport : List Note) (carried : List (String × CarriedEdge))
    (supersedes : List (String × String)) :
    Regular (importBody env mint faults workingOid toImport carried supersedes) :=
  (regular_addAll _ _ _ _ _).bind fun _ => (regular_statement _ _).bind fun _ =>
    (regular_statement _ _).bind fun _ => (regular_statement _ _).bind fun _ => regular_pure _

theorem effect_addAll {i : Nat} {u : Unit}
    (h : (addAll env mint adding i notes).effect db = some (db', u)) :
    ∃ s, importNotes env mint i db.store notes = some s ∧ db' = { db with store := s } := by
  induction notes generalizing i db with
  | nil =>
    obtain ⟨rfl, -⟩ := Prod.mk.inj (Option.some.inj h)
    exact ⟨db.store, rfl, rfl⟩
  | cons n rest ih =>
    obtain ⟨db₁, v, hadd, hrest⟩ := (effect_bind_eq_some_iff (regular_statement _ _)
      fun _ => regular_addAll _ _ _ _ _).mp h
    obtain ⟨-, hwrite⟩ := effect_statement_eq_some_iff.mp hadd
    obtain ⟨s₁, hs₁, hdb₁⟩ := Option.map_eq_some_iff.mp hwrite
    obtain ⟨rfl, -⟩ := Prod.mk.inj hdb₁
    obtain ⟨s, hs, rfl⟩ := ih hrest
    refine ⟨s, ?_, rfl⟩
    rw [importNotes, hs₁, Option.bind_some]
    exact hs

theorem effect_addAll_isSome {i : Nat} {db : MemoryDb Oid} {s : Store}
    (hworks : ∀ j, adding j = .done) (h : importNotes env mint i db.store notes = some s) :
    (addAll env mint adding i notes).effect db = some ({ db with store := s }, ()) := by
  induction notes generalizing i db with
  | nil =>
    obtain rfl := Option.some.inj h
    rfl
  | cons n rest ih =>
    obtain ⟨s₁, hs₁, hrest⟩ := Option.bind_eq_some_iff.mp h
    have hwrite : addImported env (mint i) n db = some ({ db with store := s₁ }, ()) := by
      rw [addImported, hs₁, Option.map_some]
    exact (effect_bind_eq_some_iff (regular_statement _ _) fun _ => regular_addAll _ _ _ _ _).mpr
      ⟨_, (), effect_statement_eq_some_iff.mpr ⟨hworks i, hwrite⟩, ih hrest⟩

/-- The entities of an import that commits. -/
theorem effect_importBody {toImport : List Note} {carried : List (String × CarriedEdge)}
    {supersedes : List (String × String)} {outcome : GitNotesImport}
    (h : (importBody env mint faults workingOid toImport carried supersedes).effect db = some (db', outcome))
    : ∃ s, importNotes env mint 0 db.store toImport = some s ∧ db'.store.rows = s.rows := by
  obtain ⟨db₁, u, hadd, h⟩ := (effect_bind_eq_some_iff (regular_addAll _ _ _ _ _) fun _ =>
    (regular_statement _ _).bind fun _ => (regular_statement _ _).bind fun _ =>
      (regular_statement _ _).bind fun _ => regular_pure _).mp h
  obtain ⟨db₂, edges, hedges, h⟩ := (effect_bind_eq_some_iff (regular_statement _ _) fun _ =>
    (regular_statement _ _).bind fun _ => (regular_statement _ _).bind fun _ => regular_pure _).mp h
  obtain ⟨db₃, superseded, hsupersedes, h⟩ := (effect_bind_eq_some_iff (regular_statement _ _)
    fun _ => (regular_statement _ _).bind fun _ => regular_pure _).mp h
  obtain ⟨db₄, v, hstamp, h⟩ := (effect_bind_eq_some_iff (regular_statement _ _)
    fun _ => regular_pure _).mp h
  obtain ⟨s, hs, rfl⟩ := effect_addAll hadd
  obtain ⟨rfl, -⟩ := Prod.mk.inj (Option.some.inj (effect_statement_eq_some_iff.mp hedges).2)
  obtain ⟨rfl, -⟩ := Prod.mk.inj (Option.some.inj (effect_statement_eq_some_iff.mp hsupersedes).2)
  obtain ⟨rfl, -⟩ := Prod.mk.inj (Option.some.inj (effect_statement_eq_some_iff.mp hstamp).2)
  obtain ⟨rfl, -⟩ := Prod.mk.inj (Option.some.inj h)
  refine ⟨s, hs, ?_⟩
  show (importSupersedeEdges (importCarriedEdges s carried).2 supersedes).2.rows = s.rows
  rw [importSupersedeEdges_rows, importCarriedEdges_rows]

theorem effect_importBody_isSome {toImport : List Note} {carried : List (String × CarriedEdge)}
    {supersedes : List (String × String)} {db : MemoryDb Oid} {s : Store}
    (hadding : ∀ j, faults.adding j = .done) (hedges : faults.edges = .done)
    (hsupersedes : faults.supersedes = .done) (hstamping : faults.stamping = .done)
    (h : importNotes env mint 0 db.store toImport = some s) :
    ∃ r, (importBody env mint faults workingOid toImport carried supersedes).effect db = some r := by
  refine effect_bind_isSome (regular_addAll _ _ _ _ _) (fun _ => (regular_statement _ _).bind
    fun _ => (regular_statement _ _).bind fun _ => (regular_statement _ _).bind fun _ =>
      regular_pure _) (effect_addAll_isSome hadding h) ?_
  refine effect_bind_isSome (regular_statement _ _) (fun _ => (regular_statement _ _).bind fun _ =>
    (regular_statement _ _).bind fun _ => regular_pure _)
    (effect_statement_eq_some_iff.mpr ⟨hedges, rfl⟩) ?_
  refine effect_bind_isSome (regular_statement _ _) (fun _ => (regular_statement _ _).bind fun _ =>
    regular_pure _) (effect_statement_eq_some_iff.mpr ⟨hsupersedes, rfl⟩) ?_
  exact effect_bind_isSome (regular_statement _ _) (fun _ => regular_pure _)
    (effect_statement_eq_some_iff.mpr ⟨hstamping, rfl⟩) ⟨_, rfl⟩

/-! ## A failed import -/

variable {db? : Option (MemoryDb Oid)} {repo : Repo}

/-- A transaction that answers with an error leaves nothing, however its COMMIT failed. -/
theorem closed_of_failed {beginning ending : Outcome} {α : Type} {body : Sql (MemoryDb Oid) α}
    (hregular : Regular body) {db : MemoryDb Oid}
    (h : (Sql.transaction beginning body ending (Connection.idle db)).2 = none) :
    closed (Sql.transaction beginning body ending (Connection.idle db)).1 = db := by
  rw [transaction_of_regular hregular] at h ⊢
  cases hwrite : Write.guarded beginning body.effect db with
  | none => rfl
  | some r =>
    rw [hwrite] at h
    cases ending with
    | done => exact absurd h (Option.some_ne_none _)
    | failed => rfl
    | rolledBack => rfl

/-- An import that fails leaves the rows and the recorded OID as they were. -/
theorem unchanged_of_failed (h : (importRef env mint faults repo workingOid db?).2 = none) :
    (importRef env mint faults repo workingOid db?).1.getD .fresh = db?.getD .fresh := by
  unfold importRef at h ⊢
  split at h
  · next notes carried supersedes hnotes hcarried hsupersedes =>
    unfold runImport at h ⊢
    dsimp only at h ⊢
    split at h
    · exact absurd h (Option.some_ne_none _)
    · next hsome =>
      rw [if_neg hsome]
      split at h
      · next hclosed => rw [if_pos hclosed]
      · next hopens =>
        rw [if_neg hopens]
        split at h
        · exact absurd h (Option.some_ne_none _)
        · next hsomething =>
          rw [if_neg hsomething]
          exact closed_of_failed (regular_importBody _ _ _ _ _ _ _) h
  · next hnone => rfl

/-! ## One entry and the others -/

/-- Nothing but an entry itself fails the import. -/
structure ImportFaults.Work (faults : ImportFaults) : Prop where
  opens : faults.opens = true
  beginning : faults.beginning = .done
  adding : ∀ i, faults.adding i = .done
  edges : faults.edges = .done
  supersedes : faults.supersedes = .done
  stamping : faults.stamping = .done
  ending : faults.ending = .done

/-- An import in which every statement works. -/
def noFaults : ImportFaults := ⟨true, .done, .done, fun _ => .done, .done, .done, .done, .done⟩

theorem work_noFaults : noFaults.Work := ⟨rfl, rfl, fun _ => rfl, rfl, rfl, rfl, rfl⟩

/-- The entries of the ref that an import sets out to write. -/
def entriesToImport (env : ImportEnv) (repo : Repo) (db? : Option (MemoryDb Oid)) : List Note :=
  newEntries env.sha (knownContents env.sha db?)
    (collect env.sha repo none true none (min GIT_NOTES_IMPORT_LIMIT GIT_NOTES_MAX_LIST))

/-- The import isolates an entry: the others are imported when nothing else fails, and a failed
    one leaves the rows and the recorded OID as they were. -/
def Isolates (env : ImportEnv) (mint : Nat → NoteId) (repo : Repo) (workingOid : Option Oid)
    (db? : Option (MemoryDb Oid)) : Prop :=
  ∀ faults : ImportFaults,
    (faults.Work → ∀ n ∈ entriesToImport env repo db?, Attachable env n → noteEntityId env.sha n ∈
        entities ((importRef env mint faults repo workingOid db?).1.getD .fresh).store)
      ∧ ((importRef env mint faults repo workingOid db?).2 = none →
        (importRef env mint faults repo workingOid db?).1.getD .fresh = db?.getD .fresh)

/-- What the import of a ref that can be read is, when its statements work. -/
theorem importRef_of_work {repo : Repo} {db? : Option (MemoryDb Oid)} (hwork : faults.Work)
    (hread : readable repo = true) (hsome : entriesToImport env repo db? ≠ []) :
    ∃ carried supersedes,
      importRef env mint faults repo workingOid db? =
        (some (closed (Sql.transaction .done (importBody env mint faults workingOid
            (entriesToImport env repo db?) carried supersedes) .done
            (Connection.idle (db?.getD .fresh))).1),
          (Sql.transaction .done (importBody env mint faults workingOid
            (entriesToImport env repo db?) carried supersedes) .done
            (Connection.idle (db?.getD .fresh))).2) := by
  have hnotes : collect env.sha repo none true none
      (min GIT_NOTES_IMPORT_LIMIT GIT_NOTES_MAX_LIST) ≠ [] := by
    intro hnil
    rw [entriesToImport, hnil, newEntries] at hsome
    exact hsome rfl
  have hlist : listForImport env.sha repo = some (collect env.sha repo none true none
      (min GIT_NOTES_IMPORT_LIMIT GIT_NOTES_MAX_LIST)) := if_pos hread
  obtain ⟨carried, hcarried⟩ : ∃ carried, carriedEdges env.sha repo = some carried :=
    ⟨_, if_pos hread⟩
  obtain ⟨supersedes, hsupersedes⟩ :
      ∃ supersedes, carriedSupersedeEdges env.sha repo = some supersedes := ⟨_, if_pos hread⟩
  refine ⟨carried, supersedes, ?_⟩
  simp only [importRef, hlist, hcarried, hsupersedes]
  unfold runImport
  rw [if_neg hnotes, if_neg (by rw [hwork.opens]; decide)]
  dsimp only
  rw [if_neg fun hnothing => hsome hnothing.1, hwork.beginning, hwork.ending]
  rfl

theorem importNotes_eq_none {i : Nat} {s : Store} {n : Note} (hn : n ∈ notes)
    (hbad : ¬ Attachable env n) : importNotes env mint i s notes = none := by
  induction notes generalizing i s with
  | nil => exact absurd hn List.not_mem_nil
  | cons m rest ih =>
    rw [importNotes]
    rcases List.mem_cons.mp hn with rfl | hrest
    · rw [addNoteWithCreatedAt, if_pos (Bool.eq_true_of_not_eq_false hbad), Option.bind_none]
    · cases hadd : addNoteWithCreatedAt env s (mint i) m with
      | none => rfl
      | some s' => exact ih hrest

theorem importRef_of_bad (hwork : faults.Work) (hread : readable repo = true) {n : Note}
    (hn : n ∈ entriesToImport env repo db?) (hbad : ¬ Attachable env n) :
    importRef env mint faults repo workingOid db? = (some (db?.getD .fresh), none) := by
  obtain ⟨carried, supersedes, hrun⟩ :=
    @importRef_of_work _ env mint faults workingOid repo db? hwork hread (List.ne_nil_of_mem hn)
  have hregular := regular_importBody env mint faults workingOid (entriesToImport env repo db?)
    carried supersedes
  have hfails : (Sql.transaction .done (importBody env mint faults workingOid
      (entriesToImport env repo db?) carried supersedes) .done
      (Connection.idle (db?.getD .fresh))).2 = none := by
    rw [transaction_of_regular hregular]
    cases heffect : (importBody env mint faults workingOid (entriesToImport env repo db?) carried
        supersedes).effect (db?.getD .fresh) with
    | none => rw [Write.guarded_done, heffect]
    | some r =>
      obtain ⟨s, hs, -⟩ := effect_importBody heffect
      rw [importNotes_eq_none hn hbad] at hs
      exact absurd hs.symm (Option.some_ne_none _)
  rw [hrun, closed_of_failed hregular hfails, hfails]

/-- With every entry attachable, an import that works has a row for each. -/
theorem mem_entities_importRef (hwork : faults.Work) (hread : readable repo = true)
    (hmint : Function.Injective mint)
    (hfresh : ∀ i, mint i ∉ (db?.getD .fresh).store.rows.map Note.id)
    (hgood : ∀ n ∈ entriesToImport env repo db?, Attachable env n) {n : Note}
    (hn : n ∈ entriesToImport env repo db?) :
    noteEntityId env.sha n ∈
      entities ((importRef env mint faults repo workingOid db?).1.getD .fresh).store := by
  obtain ⟨carried, supersedes, hrun⟩ :=
    @importRef_of_work _ env mint faults workingOid repo db? hwork hread (List.ne_nil_of_mem hn)
  have hregular := regular_importBody env mint faults workingOid (entriesToImport env repo db?)
    carried supersedes
  obtain ⟨s, hs⟩ := importNotes_isSome env hmint (i := 0) hgood fun j _ => hfresh j
  obtain ⟨⟨db', outcome⟩, heffect⟩ := @effect_importBody_isSome _ env mint faults workingOid _
    carried supersedes _ s hwork.adding hwork.edges hwork.supersedes hwork.stamping hs
  obtain ⟨s', hs', hrows⟩ := effect_importBody heffect
  obtain rfl := Option.some.inj (hs.symm.trans hs')
  have hdb : (importRef env mint faults repo workingOid db?).1.getD .fresh = db' := by
    rw [hrun, transaction_of_regular hregular, Write.guarded_done, heffect]
    rfl
  rw [hdb, entities, hrows]
  exact (mem_entities_importNotes hs _).mpr (.inr ⟨n, hn, rfl⟩)

/-- An import isolates each entry exactly when none to import has a path that cannot be
    attached, or the store has all the others. -/
theorem isolates_iff {env : ImportEnv} {mint : Nat → NoteId} {repo : Repo}
    {workingOid : Option Oid} {db? : Option (MemoryDb Oid)} (hread : readable repo = true)
    (hmint : Function.Injective mint)
    (hfresh : ∀ i, mint i ∉ (db?.getD .fresh).store.rows.map Note.id) :
    Isolates env mint repo workingOid db? ↔
      (∀ n ∈ entriesToImport env repo db?, Attachable env n) ∨
        ∀ n ∈ entriesToImport env repo db?, Attachable env n →
          noteEntityId env.sha n ∈ entities (db?.getD .fresh).store := by
  constructor
  · intro h
    by_cases hgood : ∀ n ∈ entriesToImport env repo db?, Attachable env n
    · exact .inl hgood
    · refine .inr fun m hm hm_attach => ?_
      have hbad : ∃ n ∈ entriesToImport env repo db?, ¬ Attachable env n := by
        simpa only [not_forall, exists_prop] using hgood
      obtain ⟨n, hn, hescapes⟩ := hbad
      -- one entry that does not attach undoes the import, so all the others have to be known
      have hothers := (h noFaults).1 work_noFaults m hm hm_attach
      rw [importRef_of_bad work_noFaults hread hn hescapes] at hothers
      exact hothers
  · intro h faults
    refine ⟨fun hwork n hn hattach => ?_, unchanged_of_failed⟩
    by_cases hgood : ∀ n ∈ entriesToImport env repo db?, Attachable env n
    · exact mem_entities_importRef hwork hread hmint hfresh hgood hn
    · have hbad : ∃ n ∈ entriesToImport env repo db?, ¬ Attachable env n := by
        simpa only [not_forall, exists_prop] using hgood
      obtain ⟨b, hb, hescapes⟩ := hbad
      rw [importRef_of_bad hwork hread hb hescapes]
      rcases h with hall | hknown
      · exact absurd hall hgood
      · exact hknown n hn hattach

end

/-! ## Paths in a project -/

/-- The functions of an import into the project at a root. -/
def projectEnv (sha : String → String) (normalizeTag : String → Option String) (root : String) :
    ImportEnv where
  sha := sha
  normalizeTag := normalizeTag
  linkPath raw :=
    if TextLines.trim raw.toList = [] then none
    else some (String.ofList ((normalizeRelativePath root.toList raw.toList).getD []))
  escapes raw := (normalizeRelativePath root.toList raw.toList).isNone

/-! ## A ref with a path that leaves the project -/

/-- An entry with one linked file. -/
def linkedRecord (file : String) : NoteRecord := { plainRecord 1 with linkedFiles := [file] }

/-- A ref with an entry that links a file, and an entry without one. -/
def linkedRepo (file : String) : Repo where
  history := ["c1"]
  nodup := List.nodup_singleton _
  notes commit := if commit = "c1" then [linkedRecord file, plainRecord 2] else []

theorem readable_linkedRepo (file : String) : readable (linkedRepo file) = true := by
  refine List.all_eq_true.mpr fun p hp => ?_
  obtain ⟨commit, -, hp⟩ := List.mem_flatMap.mp hp
  obtain ⟨r, hr, rfl⟩ := List.mem_map.mp hp
  simp only [linkedRepo] at hr
  split at hr
  · rcases List.mem_pair.mp hr with rfl | rfl
    · rfl
    · rfl
  · exact absurd hr List.not_mem_nil

/-- The project the ref is imported into. -/
def repoEnv : ImportEnv := projectEnv (fun text => text) some "/repo"

/-- A ref whose linked file is in the project. -/
theorem isolates_of_inside :
    Isolates repoEnv countedId (linkedRepo "src/a.rs") (some "w1") (some .fresh) :=
  (isolates_iff (readable_linkedRepo _) countedId_injective fun _ => List.not_mem_nil).mpr <|
    .inl (by decide +kernel)

/-- A file above the project keeps the other entry of the ref out. -/
theorem not_isolates_of_outside :
    ¬ Isolates repoEnv countedId (linkedRepo "../x") (some "w1") (some .fresh) := by
  intro h
  have hbad : ∃ n ∈ entriesToImport repoEnv (linkedRepo "../x") (some (.fresh : MemoryDb String)),
      ¬ Attachable repoEnv n := by decide +kernel
  have hgood : ∃ n ∈ entriesToImport repoEnv (linkedRepo "../x") (some (.fresh : MemoryDb String)),
      Attachable repoEnv n := by decide +kernel
  obtain ⟨b, hb, hescapes⟩ := hbad
  obtain ⟨n, hn, hattach⟩ := hgood
  have himported := (h noFaults).1 work_noFaults n hn hattach
  rw [importRef_of_bad work_noFaults (readable_linkedRepo _) hb hescapes] at himported
  exact absurd himported List.not_mem_nil

end Carrier
end Inkentry
