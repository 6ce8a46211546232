/-
  Inkentry.Index.Rebuild

  Opening the index file: an index of an older ladder is removed and created
  anew, and the rows of its `usage` table are carried across in memory.

  An open is a chain of steps, and at each the step may fail or the process may
  die.  `table_perm_iff` says which of these cost the rows: those from the
  removal of the old file up to the commit that writes the rows into the new
  one, and a failed read of the rows.
-/

import Mathlib.Data.List.Perm.Basic
import Inkentry.Lib.Runs

namespace Inkentry
namespace Index
namespace Rebuild

open Runs

/-! ## The file -/

def CURRENT_SCHEMA_VERSION : Int := 20

def LAST_LEGACY_SCHEMA_VERSION : Int := 16

def INITIAL_SCHEMA_VERSION : Int := LAST_LEGACY_SCHEMA_VERSION + 1

/-- A row of `usage`: a command, and when it was called. -/
abbrev UsageRow := String × Int

/-- What the file holds, of the tables with derived rows only whether there are any. -/
structure Store where
  userVersion : Int
  derivedTables : Bool
  /-- The table `usage`, if there is one. -/
  usage : Option (List UsageRow)
  rebuiltFrom : Option Int
  deriving DecidableEq

/-- A file with no table in it. -/
def Store.blank : Store := ⟨0, false, none, none⟩

def Store.rows (s : Store) : List UsageRow := s.usage.getD []

def Store.isEmptyFile (s : Store) : Bool := !s.derivedTables && s.usage.isNone

/-- The index file and its sidecars.  Closing the last connection has put what the
    write-ahead log held into the file. -/
structure Disk where
  main : Option Store
  wal : Bool
  shm : Bool
  deriving DecidableEq

def Disk.rows (d : Disk) : List UsageRow := (d.main.map Store.rows).getD []

inductive Suffix where
  | main
  | wal
  | shm
  deriving DecidableEq

/-- The places at which an open can stop. -/
inductive Point where
  | openFile
  | applyPragmas
  | readUserVersion
  | countTables
  | readUsage
  | park
  | removeFile (suffix : Suffix)
  | reopen
  | reapplyPragmas
  | createTables
  | migrate (version : Int)
  | stampSummaryScheme
  | writeUsage
  | recordMarker
  deriving DecidableEq

inductive Verdict where
  | goes
  /-- The step returns an error and has changed nothing. -/
  | fails
  /-- The process dies; a transaction that is open is rolled back. -/
  | dies
  deriving DecidableEq

/-- One open: how each step fares. -/
abbrev Attempt := Point → Verdict

/-! ## The code -/

abbrev Step := Point × (Disk → Disk)

/-- Steps one after another, until one does not go; and whether all went. -/
def advance (a : Attempt) : List Step → Disk → Disk × Bool
  | [], d => (d, true)
  | (p, effect) :: rest, d => if a p = .goes then advance a rest (effect d) else (d, false)

def onMain (f : Store → Store) (d : Disk) : Disk := { d with main := d.main.map f }

/-- Opening creates a file that is not there. -/
def ensureFile (d : Disk) : Disk := { d with main := some (d.main.getD .blank) }

def removeFile : Suffix → Disk → Disk
  | .main, d => { d with main := none }
  | .wal, d => { d with wal := false }
  | .shm, d => { d with shm := false }

inductive IndexMigrationKind where
  | migrate
  | rebuild
  deriving DecidableEq

def INDEX_MIGRATIONS : List (Int × IndexMigrationKind) :=
  [(18, .migrate), (19, .migrate), (20, .migrate)]

/-- The ladder from one version up: a transaction for each step, its stamp in it.  No step
    touches `usage`. -/
def ladder (found target : Int) : List Step :=
  (INDEX_MIGRATIONS.filter fun step => step.2 = .migrate ∧ found < step.1 ∧ step.1 ≤ target).map
    fun step => (.migrate step.1, onMain fun s => { s with userVersion := step.1 })

/-- The first schema and its stamp in one transaction, the ladder, and the scheme's stamp. -/
def createFresh : List Step :=
  (.createTables, onMain fun _ => ⟨INITIAL_SCHEMA_VERSION, true, some [], none⟩)
    :: ladder INITIAL_SCHEMA_VERSION CURRENT_SCHEMA_VERSION ++ [(.stampSummaryScheme, id)]

/-- One transaction for all rows, none for no rows. -/
def writeUsage (rows : List UsageRow) : List Step :=
  if rows = [] then []
  else [(.writeUsage, onMain fun s => { s with usage := some (s.rows ++ rows) })]

def recordMarker (found : Int) : List Step :=
  [(.recordMarker, onMain fun s => { s with rebuiltFrom := some found })]

/-- The connection is parked and the file removed. -/
def removeOld : List Step := [(.park, id), (.removeFile .main, removeFile .main)]

/-- The sidecars are removed, and the file is created and opened anew. -/
def createNew : List Step :=
  [(.removeFile .wal, removeFile .wal), (.removeFile .shm, removeFile .shm), (.reopen, ensureFile),
    (.reapplyPragmas, id)] ++ createFresh

def rebuild (a : Attempt) (found : Int) (d : Disk) : Disk × Bool :=
  let replace (carried : List UsageRow) : List Step :=
    removeOld ++ (createNew ++ (writeUsage carried ++ recordMarker found))
  match a .readUsage with
  | .goes => advance a (replace d.rows) d
  -- an error is taken for a table that is not there
  | .fails => advance a (replace []) d
  | .dies => (d, false)

def migrateOrRebuild (a : Attempt) (found : Int) (d : Disk) : Disk × Bool :=
  if INDEX_MIGRATIONS.any fun step =>
      found < step.1 && step.1 ≤ CURRENT_SCHEMA_VERSION && step.2 = .rebuild then
    rebuild a found d
  else advance a (ladder found CURRENT_SCHEMA_VERSION) d

def createSchema (a : Attempt) (s : Store) (d : Disk) : Disk × Bool :=
  if a .readUserVersion ≠ .goes then (d, false)
  else if s.userVersion = CURRENT_SCHEMA_VERSION then (d, true)
  else if CURRENT_SCHEMA_VERSION < s.userVersion then (d, false)
  else if LAST_LEGACY_SCHEMA_VERSION < s.userVersion then migrateOrRebuild a s.userVersion d
  else if 0 < s.userVersion then rebuild a s.userVersion d
  else if a .countTables ≠ .goes then (d, false)
  else if !s.isEmptyFile then rebuild a s.userVersion d
  else advance a createFresh d

/-- `Database::open`. -/
def openDatabase (a : Attempt) (d : Disk) : Disk × Bool :=
  let opened := advance a [(.openFile, ensureFile), (.applyPragmas, id)] d
  if opened.2 then createSchema a (opened.1.main.getD .blank) opened.1 else opened

/-! ## Runs -/

/-- The disk, and what the last open handed out if it succeeded. -/
structure World where
  disk : Disk
  db : Option Store

def step (w : World) (a : Attempt) : World where
  disk := (openDatabase a w.disk).1
  db := if (openDatabase a w.disk).2 then (openDatabase a w.disk).1.main else none

/-! ## What an open costs -/

/-- The open comes to remove the old file. -/
def RemovesOld (a : Attempt) (s : Store) : Prop :=
  s.userVersion ≤ LAST_LEGACY_SCHEMA_VERSION
    ∧ (∀ p ∈ [.openFile, .applyPragmas, .readUserVersion, .park, .removeFile .main], a p = .goes)
    ∧ (s.userVersion ≤ 0 → a .countTables = .goes) ∧ a .readUsage ≠ .dies

/-- It has read the rows, and goes on until they are written back. -/
def CarriesAcross (a : Attempt) : Prop :=
  ∀ p ∈ [.readUsage, .removeFile .wal, .removeFile .shm, .reopen, .reapplyPragmas, .createTables,
    .migrate 18, .migrate 19, .migrate 20, .stampSummaryScheme, .writeUsage], a p = .goes

/-- The open finds no rows, or leaves the old file, or carries its rows across. -/
def Harmless (w : World) (a : Attempt) : Prop :=
  ∀ s ∈ w.disk.main, s.rows ≠ [] → RemovesOld a s → CarriesAcross a

instance (a : Attempt) (s : Store) : Decidable (RemovesOld a s) :=
  inferInstanceAs (Decidable (_ ∧ _ ∧ _ ∧ _))

instance (a : Attempt) : Decidable (CarriesAcross a) :=
  inferInstanceAs (Decidable (∀ _ ∈ _, _))

instance (w : World) (a : Attempt) : Decidable (Harmless w a) :=
  inferInstanceAs (Decidable (∀ _ ∈ _, _))

/-! ## Chains of steps -/

variable {d : Disk} {a : Attempt}

theorem advance_append (a : Attempt) (l l' : List Step) (d : Disk) :
    advance a (l ++ l') d
      = if (advance a l d).2 then advance a l' (advance a l d).1 else advance a l d := by
  induction l generalizing d with
  | nil => rfl
  | cons x l ih =>
    rw [List.cons_append, advance, advance]
    split
    · exact ih _
    · rfl

/-- All steps of a chain go exactly when none of its points stops it. -/
theorem advance_snd (a : Attempt) (l : List Step) (d : Disk) :
    (advance a l d).2 ↔ ∀ x ∈ l, a x.1 = .goes := by
  induction l generalizing d with
  | nil => simp [advance]
  | cons x l ih =>
    rw [advance, List.forall_mem_cons]
    split
    case isTrue hgoes => simp [hgoes, ih]
    case isFalse hstops => simp [hstops]

theorem advance_inv {P : Disk → Prop} {l : List Step} (hkeep : ∀ x ∈ l, ∀ d, P d → P (x.2 d))
    (hd : P d) : P (advance a l d).1 := by
  induction l generalizing d with
  | nil => exact hd
  | cons x l ih =>
    rw [advance]
    split
    · exact ih (fun y hy => hkeep y (List.mem_cons_of_mem _ hy)) (hkeep x List.mem_cons_self d hd)
    · exact hd

/-! ## Rows -/

variable {x : Step}

theorem rows_onMain {f : Store → Store} (hf : ∀ s, (f s).rows = s.rows) (d : Disk) :
    (onMain f d).rows = d.rows := by
  rw [Disk.rows, Disk.rows, onMain, Option.map_map]
  exact congrArg (Option.getD · []) (congrArg (Option.map · d.main) (funext hf))

theorem rows_ensureFile (d : Disk) : (ensureFile d).rows = d.rows := by
  cases d with
  | mk main wal shm =>
    cases main <;> rfl

theorem rows_ladder {found target : Int} (hx : x ∈ ladder found target) (d : Disk) :
    (x.2 d).rows = d.rows := by
  obtain ⟨entry, -, rfl⟩ := List.mem_map.mp hx
  exact rows_onMain (f := fun s => { s with userVersion := entry.1 }) (fun _ => rfl) d

theorem rows_createFresh (hx : x ∈ createFresh) (hd : d.rows = []) : (x.2 d).rows = [] := by
  rcases List.mem_cons.mp hx with rfl | hx
  · cases d with
    | mk main wal shm =>
      cases main <;> rfl
  · rcases List.mem_append.mp hx with hx | hx
    · rw [rows_ladder hx, hd]
    · obtain rfl := List.mem_singleton.mp hx
      exact hd

theorem rows_createNew (hx : x ∈ createNew) (hd : d.rows = []) : (x.2 d).rows = [] := by
  rcases List.mem_append.mp hx with hx | hx
  · rcases d with ⟨main, wal, shm⟩
    simp only [List.mem_cons, List.not_mem_nil, or_false] at hx
    rcases hx with rfl | rfl | rfl | rfl
    · exact hd
    · exact hd
    · exact (rows_ensureFile _).trans hd
    · exact hd
  · exact rows_createFresh hx hd

theorem rows_recordMarker {found : Int} (hx : x ∈ recordMarker found) (d : Disk) :
    (x.2 d).rows = d.rows := by
  obtain rfl := List.mem_singleton.mp hx
  exact rows_onMain (f := fun s => { s with rebuiltFrom := some found }) (fun _ => rfl) d

theorem advance_createNew (hgoes : ∀ x ∈ createNew, a x.1 = .goes) (d : Disk) :
    advance a createNew (removeFile .main d) = (⟨some ⟨20, true, some [], none⟩, false, false⟩, true) := by
  have hlist : createNew = [(.removeFile .wal, removeFile .wal), (.removeFile .shm, removeFile .shm),
      (.reopen, ensureFile), (.reapplyPragmas, id),
      (.createTables, onMain fun _ => ⟨INITIAL_SCHEMA_VERSION, true, some [], none⟩),
      (.migrate 18, onMain fun s => { s with userVersion := 18 }),
      (.migrate 19, onMain fun s => { s with userVersion := 19 }),
      (.migrate 20, onMain fun s => { s with userVersion := 20 }), (.stampSummaryScheme, id)] := rfl
  rw [hlist] at hgoes ⊢
  simp only [List.forall_mem_cons] at hgoes
  simp [advance, hgoes, removeFile, ensureFile, onMain]

theorem rows_advance_writeUsage (a : Attempt) (found : Int) (carried : List UsageRow) (s : Store)
    (hs : s.rows = []) :
    (advance a (writeUsage carried ++ recordMarker found) ⟨some s, false, false⟩).1.rows
      = if a .writeUsage = .goes then carried else [] := by
  have hmarker : ∀ d : Disk, (advance a (recordMarker found) d).1.rows = d.rows := fun d =>
    advance_inv (P := fun d' => d'.rows = d.rows)
      (fun x hx d' hd' => (rows_recordMarker hx d').trans hd') rfl
  by_cases hcarried : carried = []
  · rw [writeUsage, if_pos hcarried, List.nil_append, hmarker, hcarried]
    split <;> exact hs
  · rw [writeUsage, if_neg hcarried, advance_append]
    by_cases hgoes : a .writeUsage = .goes
    · simp only [advance, hgoes, if_true]
      rw [hmarker]
      show s.rows ++ carried = carried
      rw [hs, List.nil_append]
    · simp only [advance, hgoes, if_false]
      exact hs

/-- What is left of the rows that were carried. -/
theorem rows_advance_replace (a : Attempt) (found : Int) (carried : List UsageRow) (d : Disk) :
    (advance a (removeOld ++ (createNew ++ (writeUsage carried ++ recordMarker found))) d).1.rows
      = if ∀ x ∈ removeOld, a x.1 = .goes then
          if (∀ x ∈ createNew, a x.1 = .goes) ∧ a .writeUsage = .goes then carried else []
        else d.rows := by
  rw [advance_append]
  by_cases hold : ∀ x ∈ removeOld, a x.1 = .goes
  · rw [if_pos ((advance_snd a removeOld d).mpr hold), if_pos hold]
    have hremoved : (advance a removeOld d).1 = removeFile .main d := by
      simp only [removeOld, List.forall_mem_cons] at hold
      simp [advance, removeOld, hold]
    rw [hremoved, advance_append]
    by_cases hnew : ∀ x ∈ createNew, a x.1 = .goes
    · simp only [advance_createNew hnew, if_true]
      rw [rows_advance_writeUsage a found carried _ rfl]
      exact (if_congr (and_iff_right hnew) rfl rfl).symm
    · -- the old file is gone and the new one has no rows yet
      rw [if_neg fun h => hnew ((advance_snd _ _ _).mp h), if_neg fun h => hnew h.1]
      exact advance_inv (P := fun d' => d'.rows = []) (fun x hx _ hd' => rows_createNew hx hd') rfl
  · rw [if_neg fun h => hold ((advance_snd _ _ _).mp h), if_neg hold]
    by_cases hpark : a .park = .goes
    · have hstops : a (.removeFile .main) ≠ .goes := fun h => hold (by simp [removeOld, hpark, h])
      simp [advance, removeOld, hpark, hstops]
    · simp [advance, removeOld, hpark]

theorem carriesAcross_iff (a : Attempt) :
    CarriesAcross a
      ↔ a .readUsage = .goes ∧ (∀ x ∈ createNew, a x.1 = .goes) ∧ a .writeUsage = .goes := by
  have hpoints : createNew.map Prod.fst = [.removeFile .wal, .removeFile .shm, .reopen,
      .reapplyPragmas, .createTables, .migrate 18, .migrate 19, .migrate 20, .stampSummaryScheme] :=
    rfl
  have hnew : (∀ x ∈ createNew, a x.1 = .goes) ↔ ∀ p ∈ createNew.map Prod.fst, a p = .goes := by
    simp only [List.forall_mem_map]
  rw [hnew, hpoints, CarriesAcross]
  simp only [List.forall_mem_cons, List.not_mem_nil, false_implies, implies_true, and_true, and_assoc]

/-- A rebuild costs the rows when it removes the old file and does not carry them across. -/
theorem rows_rebuild (a : Attempt) (found : Int) (d : Disk) :
    (rebuild a found d).1.rows
      = if a .park = .goes ∧ a (.removeFile .main) = .goes ∧ a .readUsage ≠ .dies
          ∧ ¬ CarriesAcross a then [] else d.rows := by
  have hold : (∀ x ∈ removeOld, a x.1 = .goes) ↔ a .park = .goes ∧ a (.removeFile .main) = .goes := by
    simp [removeOld]
  unfold rebuild
  cases hread : a .readUsage with
  | goes =>
    simp only [rows_advance_replace, hold, carriesAcross_iff, hread]
    grind
  | fails =>
    simp only [rows_advance_replace, hold, carriesAcross_iff, hread]
    grind
  | dies => simp

/-! ## One open -/

theorem rows_advance_ladder (a : Attempt) (found target : Int) (d : Disk) :
    (advance a (ladder found target) d).1.rows = d.rows :=
  advance_inv (P := fun d' => d'.rows = d.rows) (fun _ hx d' hd' => (rows_ladder hx d').trans hd') rfl

theorem migrateOrRebuild_eq (a : Attempt) (found : Int) (d : Disk) :
    migrateOrRebuild a found d = advance a (ladder found CURRENT_SCHEMA_VERSION) d := by
  rw [migrateOrRebuild, if_neg]
  simp [INDEX_MIGRATIONS]

theorem rows_openDatabase_eq_nil (a : Attempt) (hd : d.rows = []) :
    (openDatabase a d).1.rows = [] := by
  have hopened : (advance a [(.openFile, ensureFile), (.applyPragmas, id)] d).1.rows = [] := by
    refine advance_inv (P := fun d' => d'.rows = []) (fun x hx d' hd' => ?_) hd
    simp only [List.mem_cons, List.not_mem_nil, or_false] at hx
    rcases hx with rfl | rfl
    · exact (rows_ensureFile d').trans hd'
    · exact hd'
  simp only [openDatabase]
  split
  case isFalse => exact hopened
  case isTrue =>
    have hrebuild : ∀ found d', Disk.rows d' = [] → (rebuild a found d').1.rows = [] := by
      intro found d' hd'
      rw [rows_rebuild, hd', ite_self]
    simp only [createSchema, migrateOrRebuild_eq]
    split_ifs
    · exact hopened
    · exact hopened
    · exact hopened
    · rw [rows_advance_ladder, hopened]
    · exact hrebuild _ _ hopened
    · exact hopened
    · exact hrebuild _ _ hopened
    · exact advance_inv (P := fun d' => d'.rows = []) (fun _ hx _ hd' => rows_createFresh hx hd') hopened

theorem rows_openDatabase (a : Attempt) {s : Store} (hs : s.rows ≠ []) (wal shm : Bool) :
    (openDatabase a ⟨some s, wal, shm⟩).1.rows
      = if RemovesOld a s ∧ ¬ CarriesAcross a then [] else s.rows := by
  have hempty : s.isEmptyFile = false := by
    unfold Store.isEmptyFile
    cases husage : s.usage with
    | none => exact absurd (by rw [Store.rows, husage]; rfl) hs
    | some rows => simp
  have hrows : Disk.rows ⟨some s, wal, shm⟩ = s.rows := rfl
  have hopened : advance a [(.openFile, ensureFile), (.applyPragmas, id)] ⟨some s, wal, shm⟩
      = (⟨some s, wal, shm⟩, a .openFile = .goes && a .applyPragmas = .goes) := by
    by_cases hopen : a .openFile = .goes <;> by_cases hpragmas : a .applyPragmas = .goes <;>
      simp [advance, hopen, hpragmas, ensureFile]
  have hremoves : RemovesOld a s ↔ s.userVersion ≤ LAST_LEGACY_SCHEMA_VERSION
      ∧ (a .openFile = .goes ∧ a .applyPragmas = .goes ∧ a .readUserVersion = .goes)
      ∧ (s.userVersion ≤ 0 → a .countTables = .goes)
      ∧ a .park = .goes ∧ a (.removeFile .main) = .goes ∧ a .readUsage ≠ .dies := by
    simp only [RemovesOld, List.forall_mem_cons, List.not_mem_nil, false_implies, implies_true]
    tauto
  generalize hlost : (if RemovesOld a s ∧ ¬ CarriesAcross a then [] else s.rows) = lost
  have hkept : ¬ RemovesOld a s → s.rows = lost := fun hnot => hlost ▸ (if_neg fun h => hnot h.1).symm
  simp only [openDatabase, hopened, createSchema, migrateOrRebuild_eq, hempty, Option.getD_some]
  by_cases hopens : a .openFile = .goes ∧ a .applyPragmas = .goes
  case neg =>
    rw [if_neg (by simpa using hopens)]
    exact hkept fun h => hopens ⟨(hremoves.mp h).2.1.1, (hremoves.mp h).2.1.2.1⟩
  rw [if_pos (by simpa using hopens)]
  -- the two ways to a rebuild
  have hrebuilt : s.userVersion ≤ LAST_LEGACY_SCHEMA_VERSION → a .readUserVersion = .goes →
      (s.userVersion ≤ 0 → a .countTables = .goes) →
      (rebuild a s.userVersion ⟨some s, wal, shm⟩).1.rows = lost := by
    intro hversion hread hcount
    rw [rows_rebuild, ← hlost, hrows]
    refine if_congr ?_ rfl rfl
    rw [hremoves]
    tauto
  have hlegacy : LAST_LEGACY_SCHEMA_VERSION < CURRENT_SCHEMA_VERSION := by decide
  split_ifs with hread hcurrent hnewer hmigrates hstamped hcount hfull
  · exact hkept fun h => hread (hremoves.mp h).2.1.2.2
  · exact hkept fun h => absurd (hremoves.mp h).1 (Int.not_le.mpr (hcurrent ▸ hlegacy))
  · exact hkept fun h => absurd (hremoves.mp h).1 (Int.not_le.mpr (Int.lt_trans hlegacy hnewer))
  · rw [rows_advance_ladder, hrows]
    exact hkept fun h => absurd (hremoves.mp h).1 (Int.not_le.mpr hmigrates)
  · exact hrebuilt (Int.not_lt.mp hmigrates) (not_not.mp hread) fun h =>
      absurd hstamped (Int.not_lt.mpr h)
  · exact hkept fun h => hcount ((hremoves.mp h).2.2.1 (Int.not_lt.mp hstamped))
  · exact hrebuilt (Int.not_lt.mp hmigrates) (not_not.mp hread) fun _ => not_not.mp hcount
  · exact absurd rfl hfull

/-! ## Runs of opens -/

theorem rows_step (w : World) (a : Attempt) :
    (step w a).disk.rows = if Harmless w a then w.disk.rows else [] := by
  obtain ⟨⟨main, wal, shm⟩, db⟩ := w
  cases main with
  | none =>
    rw [if_pos (by simp [Harmless])]
    exact rows_openDatabase_eq_nil a rfl
  | some s =>
    by_cases hs : s.rows = []
    · have hd : Disk.rows ⟨some s, wal, shm⟩ = [] := hs
      show (openDatabase a ⟨some s, wal, shm⟩).1.rows = _
      rw [rows_openDatabase_eq_nil a hd, hd, ite_self]
    · show (openDatabase a ⟨some s, wal, shm⟩).1.rows = _
      rw [rows_openDatabase a hs, ← ite_not]
      refine if_congr ?_ rfl rfl
      simp [Harmless, hs]

theorem rows_run (w : World) (attempts : List Attempt) :
    (EachStep step Harmless w attempts ∧ (run step w attempts).disk.rows = w.disk.rows)
      ∨ (¬ EachStep step Harmless w attempts ∧ (run step w attempts).disk.rows = []) := by
  induction attempts generalizing w with
  | nil => exact .inl ⟨trivial, rfl⟩
  | cons a attempts ih =>
    have hstep := rows_step w a
    by_cases hharmless : Harmless w a
    · rw [if_pos hharmless] at hstep
      rcases ih (step w a) with ⟨heach, hrows⟩ | ⟨hnot, hrows⟩
      · exact .inl ⟨⟨hharmless, heach⟩, hrows.trans hstep⟩
      · exact .inr ⟨fun h => hnot h.2, hrows⟩
    · rw [if_neg hharmless] at hstep
      refine .inr ⟨fun h => hharmless h.1, ?_⟩
      rcases ih (step w a) with ⟨-, hrows⟩ | ⟨-, hrows⟩
      · exact hrows.trans hstep
      · exact hrows

theorem eachStep_of_rows_eq_nil {w : World} (h : w.disk.rows = []) (attempts : List Attempt) :
    EachStep step Harmless w attempts := by
  induction attempts generalizing w with
  | nil => trivial
  | cons a attempts ih =>
    refine ⟨fun s hs hne => absurd ?_ hne, ih ?_⟩
    · have hmain : w.disk.main = some s := hs
      rw [Disk.rows, hmain] at h
      exact h
    · rw [rows_step, h, ite_self]

theorem rows_of_db {w : World} {s : Store} (h : (step w a).db = some s) :
    (step w a).disk.rows = s.rows := by
  simp only [step] at h ⊢
  split at h
  · rw [Disk.rows, h]
    rfl
  · exact absurd h (by simp)

/-- A file with rows finds them all again, at the next open that succeeds after any opens
    that failed, exactly when none of the opens removed it without carrying them across. -/
theorem table_perm_iff (d : Disk) (attempts : List Attempt) (last : Attempt) {s : Store}
    (hopen : (run step ⟨d, none⟩ (attempts ++ [last])).db = some s) :
    s.rows.Perm d.rows ↔ EachStep step Harmless ⟨d, none⟩ (attempts ++ [last]) := by
  have hdisk : (run step ⟨d, none⟩ (attempts ++ [last])).disk.rows = s.rows := by
    rw [run_append] at hopen ⊢
    exact rows_of_db hopen
  rcases rows_run ⟨d, none⟩ (attempts ++ [last]) with ⟨heach, hrows⟩ | ⟨hnot, hrows⟩
  · exact iff_of_true (by rw [← hdisk, hrows]) heach
  · refine iff_of_false (fun hperm => hnot (eachStep_of_rows_eq_nil ?_ _)) hnot
    rwa [← hdisk, hrows, List.nil_perm] at hperm

/-! ### An index of the old ladder -/

/-- Two commands on record. -/
def legacyIndex : Disk := ⟨some ⟨16, true, some [("search", 11), ("index", 22)], none⟩, true, true⟩

def undisturbed : Attempt := fun _ => .goes

/-- An open that stops at one point. -/
def stopsAt (point : Point) (verdict : Verdict) : Attempt :=
  fun p => if p = point then verdict else .goes

/-- The first open cannot remove the file, the second is cut off after the rows are back. -/
def lateStops : List Attempt := [stopsAt (.removeFile .main) .fails, stopsAt .recordMarker .dies]

theorem table_perm_of_lateStops :
    ∃ s, (run step ⟨legacyIndex, none⟩ (lateStops ++ [undisturbed])).db = some s
      ∧ s.rows.Perm legacyIndex.rows :=
  ⟨⟨20, true, some [("search", 11), ("index", 22)], none⟩, by decide +kernel,
    (table_perm_iff legacyIndex lateStops undisturbed (by decide +kernel)).mpr (by decide +kernel)⟩

/-- The process dies after the old file is removed. -/
theorem not_table_perm_of_cut_off :
    ∃ s, (run step ⟨legacyIndex, none⟩ ([stopsAt .reopen .dies] ++ [undisturbed])).db = some s
      ∧ ¬ s.rows.Perm legacyIndex.rows :=
  ⟨⟨20, true, some [], none⟩, by decide +kernel, by decide +kernel⟩

end Rebuild
end Index
end Inkentry
