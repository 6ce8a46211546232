/-
  Inkentry.Carrier.ReadPath

  The refresh a read runs before it answers.  It merges the tracking ref into
  the working ref when the tracking ref has moved since the last merge, imports
  the working ref when that has moved since the last import, and records the
  two OIDs in the store's file so that later reads skip both.

  Every look at git is a step of its own, between which other processes append,
  fetch, check out and write, and a process can be killed between any two.  A
  ref's OID is the position of the commit in the list of those it has pointed
  at.
-/

import Inkentry.Carrier.Import
import Inkentry.Lib.Runs
import Inkentry.Memory.Sync

namespace Inkentry
namespace Carrier

open GitNotes Memory Runs

/-! ## The refs -/

/-- What a commit of a notes ref holds: the records on each annotated commit. -/
abbrev Notes := String → List NoteRecord

/-- `git notes merge -s cat_sort_uniq`: the lines of both sides, each once, in an order
    git chooses. -/
structure NotesMerge where
  merge : Notes → Notes → Notes
  mem_merge : ∀ ours theirs commit r,
    r ∈ merge ours theirs commit ↔ r ∈ ours commit ∨ r ∈ theirs commit

/-- The functions a read is given: those of an import, and git's merge. -/
structure ReadEnv extends ImportEnv, NotesMerge

/-- What became of a merge once it was tried. -/
inductive MergeAttempt where
  /-- The lock was acquired and git ran. -/
  | runs
  /-- The lock was acquired and git failed. -/
  | fails
  /-- Another process has the lock, or it cannot be used. -/
  | locked
  deriving DecidableEq, Repr

/-- What `merge_tracking_notes` reports; the caller does not look at it. -/
inductive NotesMergeOutcome where
  | merged
  | skipped
  | lockUnavailable
  deriving DecidableEq, Repr

/-! ## Where a read stands -/

/-- An import, after each of its looks at git and the store. -/
inductive ImportStage where
  | start
  | listed (notes : List Note)
  | stamped (notes : List Note) (oid : Option Nat)
  | known (notes : List Note) (oid : Option Nat) (existing : List String)
  | edges (notes : List Note) (oid : Option Nat) (existing : List String)
      (carried : List (String × CarriedEdge))
  | ready (notes : List Note) (oid : Option Nat) (existing : List String)
      (carried : List (String × CarriedEdge)) (supersedes : List (String × String))

/-- A read.  `pending` is the tracking OID to record at the end, when it had moved. -/
inductive ReadPhase where
  | idle
  | sawTracking (tracking : Option Nat)
  | sawRefs (tracking working : Option Nat)
  | merging (tracking imported : Option Nat)
  | merged (tracking imported : Option Nat)
  | deciding (pending : Option (Option Nat)) (working imported : Option Nat)
  | importing (pending : Option (Option Nat)) (stage : ImportStage)
  | stamping (tracking : Option Nat)

/-- What is left to do once the import is over. -/
def afterImport (pending : Option (Option Nat)) : ReadPhase := pending.elim .idle .stamping

/-! ## The world -/

/-- A clone with its two notes refs, its store and the reads in progress. -/
structure World (R : Type*) where
  /-- Every commit the working ref has pointed at; it points at the last. -/
  working : List Notes
  /-- Every commit the tracking ref has pointed at. -/
  trackingCommits : List Notes
  trackingOid : Option Nat
  /-- The commits reachable from HEAD. -/
  history : List String
  nodup : history.Nodup
  db? : Option (MemoryDb Nat)
  readers : R → ReadPhase

section

variable {R : Type*} [DecidableEq R]

/-- A clone nothing is recorded in. -/
def World.initial : World R := ⟨[], [], none, [], List.nodup_nil, none, fun _ => .idle⟩

def World.workingOid (w : World R) : Option Nat :=
  if w.working = [] then none else some (w.working.length - 1)

/-- What the working ref holds now. -/
def World.notes (w : World R) : Notes := w.working.getLast?.getD fun _ => []

/-- What git readers see. -/
def World.repo (w : World R) : Repo := ⟨w.history, w.nodup, w.notes⟩

/-- A new commit on the working ref. -/
def World.advance (w : World R) (notes : Notes) : World R :=
  { w with working := w.working ++ [notes] }

/-- A read moves on. -/
def World.goto (w : World R) (r : R) (phase : ReadPhase) : World R :=
  { w with readers := Function.update w.readers r phase }

/-- The store's file, an empty one where there is none. -/
def World.db (w : World R) : MemoryDb Nat := w.db?.getD .fresh

/-- Opening the store's file creates it. -/
def World.openStore (w : World R) : World R := { w with db? := some w.db }

/-- `merge_tracking_notes`.  The lock keeps appends out while git runs. -/
def World.mergeTrackingNotes (env : ReadEnv) (w : World R) :
    MergeAttempt → NotesMergeOutcome × World R
  | .locked => (.lockUnavailable, w)
  | .fails => (.skipped, w)
  | .runs =>
    match w.trackingOid.bind fun oid => w.trackingCommits[oid]? with
    | some theirs => (.merged, w.advance (env.merge w.notes theirs))
    | none => (.skipped, w)

/-! ## Steps -/

/-- What happens next, in any order. -/
inductive Event (R : Type*) where
  /-- Another process appends records to the note on a commit. -/
  | append (target : String) (records : List NoteRecord)
  /-- `git fetch` moves the tracking ref to a commit it never pointed at. -/
  | fetch (notes : Notes)
  /-- The tracking ref is moved back to an earlier commit, or removed. -/
  | refetch (oid : Option Nat)
  | checkout (history : {history : List String // history.Nodup})
  /-- Another process writes the store. -/
  | write (op : LocalWrite)
  /-- A read starts, or takes its next step where that leaves nothing open. -/
  | next (r : R)
  /-- A read looks at the markers; a store that does not open has none. -/
  | readMarker (r : R) (opens : Bool)
  | merge (r : R) (attempt : MergeAttempt)
  /-- The import's transaction; `mint` gives the ids of its rows. -/
  | commit (r : R) (mint : Nat → NoteId)
  /-- An import starts without the refresh around it. -/
  | importAlone (r : R)
  /-- The import fails, which the read passes over. -/
  | importFails (r : R)
  /-- The process is killed, or the store does not open for the last step. -/
  | giveUp (r : R)

/-- The import's steps up to its transaction. -/
def World.nextImport (env : ReadEnv) (w : World R) (r : R) (pending : Option (Option Nat)) :
    ImportStage → World R
  | .start => w.goto r <| match listForImport env.sha w.repo with
      | some notes => .importing pending (.listed notes)
      | none => afterImport pending
  | .listed notes =>
    if notes = [] then w.goto r (.importing pending (.ready notes w.workingOid [] [] []))
    else w.goto r (.importing pending (.stamped notes w.workingOid))
  | .stamped notes oid =>
    w.openStore.goto r (.importing pending (.known notes oid (knownContents env.sha w.db?)))
  | .known notes oid existing => w.goto r <| match carriedEdges env.sha w.repo with
      | some carried => .importing pending (.edges notes oid existing carried)
      | none => afterImport pending
  | .edges notes oid existing carried => w.goto r <| match carriedSupersedeEdges env.sha w.repo with
      | some supersedes => .importing pending (.ready notes oid existing carried supersedes)
      | none => afterImport pending
  | .ready .. => w

/-- The steps of a read that leave nothing open. -/
def World.next (env : ReadEnv) (w : World R) (r : R) : World R :=
  match w.readers r with
  | .idle => w.goto r (.sawTracking w.trackingOid)
  | .sawTracking tracking =>
    w.goto r (if tracking = none ∧ w.workingOid = none then .idle
      else .sawRefs tracking w.workingOid)
  | .merged tracking imported => w.goto r (.deciding (some tracking) w.workingOid imported)
  | .deciding pending working imported =>
    w.goto r (if working ≠ imported then .importing pending .start else afterImport pending)
  | .importing pending stage => w.nextImport env r pending stage
  | .stamping tracking =>
    { w with db? := some { w.db with lastMergedTrackingOid := tracking } }.goto r .idle
  | .sawRefs .. | .merging .. => w

/-- The markers a read compares the refs with. -/
def World.readMarker (w : World R) (r : R) (opens : Bool) : World R :=
  match w.readers r with
  | .sawRefs tracking working =>
    let db := if opens then w.db else .fresh
    w.goto r (if tracking ≠ db.lastMergedTrackingOid
      then .merging tracking db.lastImportedWorkingOid
      else .deciding none working db.lastImportedWorkingOid)
  | _ => w

/-- The import's transaction; one that fails leaves the store as it was. -/
def World.commit (env : ReadEnv) (w : World R) (r : R) (mint : Nat → NoteId) : World R :=
  match w.readers r with
  | .importing pending (.ready notes oid existing carried supersedes) =>
    match importIntoMemory env.toImportEnv mint notes oid existing carried supersedes w.db? with
    | some (_, db?) => { w with db? := db? }.goto r (afterImport pending)
    | none => w.goto r (afterImport pending)
  | _ => w

def step (env : ReadEnv) (w : World R) : Event R → World R
  | .append target records =>
    w.advance (Function.update w.notes target (w.notes target ++ records))
  | .fetch notes =>
    { w with
      trackingCommits := w.trackingCommits ++ [notes]
      trackingOid := some w.trackingCommits.length }
  | .refetch oid =>
    { w with trackingOid := oid.filter fun i => i < w.trackingCommits.length }
  | .checkout history => { w with history := history.val, nodup := history.property }
  | .write op =>
    { w with db? := some { w.db with store := applyWrite env.toStoreEnv w.db.store op } }
  | .next r => w.next env r
  | .readMarker r opens => w.readMarker r opens
  | .merge r attempt =>
    match w.readers r with
    | .merging tracking imported =>
      (w.mergeTrackingNotes env attempt).2.goto r (.merged tracking imported)
    | _ => w
  | .commit r mint => w.commit env r mint
  | .importAlone r =>
    match w.readers r with
    | .idle => w.goto r (.importing none .start)
    | _ => w
  | .importFails r =>
    match w.readers r with
    | .importing pending _ => w.goto r (afterImport pending)
    | _ => w
  | .giveUp r => w.goto r .idle

end

end Carrier
end Inkentry
