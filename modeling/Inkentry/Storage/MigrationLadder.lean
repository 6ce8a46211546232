/-
  Inkentry.Storage.MigrationLadder

  The migration ladder of a local store: every step past the version the store
  was found at runs in a transaction of its own, with the stamp of its version,
  and the version is read again once the write lock is held.

  Any number of openers climb one file at a time.  A label is one statement of
  one opener, with whether it goes through; a step's body fails on its own
  account or with its statement.  An opener that ends or crashes drops its
  connection, which rolls back what it had not committed and frees the lock.
-/

import Mathlib.Data.List.Basic
import Mathlib.Logic.Function.Basic
import Inkentry.Lib.Runs

namespace Inkentry
namespace MigrationLadder

/-! ## The ladder -/

/-- A store: what it holds, and its `user_version`. -/
structure Store (σ : Type*) where
  version : ℤ
  content : σ

/-- A step: the version it produces, and the body that gets a store there. -/
abbrev MigrationStep (σ : Type*) := ℤ × (σ → Option σ)

structure Ladder (σ : Type*) where
  steps : List (MigrationStep σ)
  targetVersion : ℤ
  label : String
  announce : Bool

/-- Which statement of a step failed. -/
inductive FailedIn where
  | reading
  | body
  | stamping
  deriving DecidableEq

def FailedIn.message : FailedIn → String
  | .reading => "reading user_version"
  | .body => "running migration step body"
  | .stamping => "stamping schema version"

inductive LadderError where
  | locking (version : ℤ)
  | failed (version atVersion : ℤ) (cause : FailedIn)
  | committing (version : ℤ)
  | gap (atVersion : ℤ)
  deriving DecidableEq

variable {σ ι : Type*}

/-- The outermost message of an error. -/
def Ladder.message (ladder : Ladder σ) : LadderError → String
  | .locking version => "locking " ++ ladder.label ++ " to apply migration step " ++ toString version
  | .failed version atVersion _ =>
    "migrating " ++ ladder.label ++ " to schema version " ++ toString version
      ++ " failed; store left at schema version " ++ toString atVersion
  | .committing version => "committing " ++ ladder.label ++ " migration step " ++ toString version
  | .gap atVersion =>
    ladder.label ++ " is at schema version " ++ toString atVersion ++ " but this build needs "
      ++ toString ladder.targetVersion ++ ", and no migration step covers the gap"

/-! ## An opener -/

/-- A step an opener has locked the store for, and what it makes of the list. -/
structure Climb (σ : Type*) where
  foundVersion : ℤ
  atVersion : ℤ
  version : ℤ
  body : σ → Option σ
  rest : List (MigrationStep σ)

inductive Opener (σ : Type*) where
  | idle
  | climbing (foundVersion atVersion : ℤ) (rest : List (MigrationStep σ))
  | began (climb : Climb σ)
  | running (climb : Climb σ)
  | stamping (climb : Climb σ) (content : σ)
  | committing (climb : Climb σ) (txn : Store σ)
  | done (printed : Option String) (result : Except LadderError Unit)
  | crashed

/-- The end of the loop. -/
def Ladder.finish (ladder : Ladder σ) (foundVersion atVersion : ℤ) : Opener σ :=
  .done
    (if ladder.announce ∧ atVersion ≠ foundVersion then
      some (ladder.label ++ ": migrated schema version " ++ toString foundVersion ++ " to "
        ++ toString atVersion)
    else none)
    (if atVersion = ladder.targetVersion then .ok () else .error (.gap atVersion))

/-- The file and everyone who has it open. -/
structure World (σ ι : Type*) where
  store : Store σ
  lock : Option ι
  openers : ι → Opener σ

def World.start (store : Store σ) : World σ ι := ⟨store, none, fun _ => .idle⟩

variable [DecidableEq ι]

namespace World

def put (w : World σ ι) (i : ι) (opener : Opener σ) : World σ ι :=
  { w with openers := Function.update w.openers i opener }

/-- Ends a transaction, with what the store is then. -/
def close (w : World σ ι) (i : ι) (store : Store σ) (opener : Opener σ) : World σ ι :=
  ⟨store, none, Function.update w.openers i opener⟩

/-- `ROLLBACK`, and the step's error. -/
def rollback (w : World σ ι) (i : ι) (climb : Climb σ) (cause : FailedIn) : World σ ι :=
  w.close i w.store (.done none (.error (.failed climb.version climb.atVersion cause)))

/-- The next statement of an opener, and whether it goes through. -/
def act (ladder : Ladder σ) (w : World σ ι) (i : ι) (ok : Bool) : World σ ι :=
  match w.openers i with
  | .idle =>
    -- the caller reads the version outside any transaction
    if ok then w.put i (.climbing w.store.version w.store.version ladder.steps) else w
  | .climbing foundVersion atVersion [] => w.put i (ladder.finish foundVersion atVersion)
  | .climbing foundVersion atVersion ((version, body) :: rest) =>
    if version ≤ foundVersion then w.put i (.climbing foundVersion atVersion rest)
    else if ladder.targetVersion < version then w.put i (ladder.finish foundVersion atVersion)
    else if ok = false then w.put i (.done none (.error (.locking version)))
    else
      match w.lock with
      | some _ => w
      | none => { w.put i (.began ⟨foundVersion, atVersion, version, body, rest⟩) with lock := some i }
  | .began climb =>
    if ok = false then w.rollback i climb .reading
    else if climb.version ≤ w.store.version then w.put i (.committing climb w.store)
    else w.put i (.running climb)
  | .running climb =>
    match climb.body w.store.content with
    | some content => if ok then w.put i (.stamping climb content) else w.rollback i climb .body
    | none => w.rollback i climb .body
  | .stamping climb content =>
    if ok then w.put i (.committing climb ⟨climb.version, content⟩) else w.rollback i climb .stamping
  | .committing climb txn =>
    if ok then w.close i txn (.climbing climb.foundVersion climb.version climb.rest)
    else w.close i w.store (.done none (.error (.committing climb.version)))
  | .done _ _ => w
  | .crashed => w

def crash (w : World σ ι) (i : ι) : World σ ι :=
  { w.put i .crashed with lock := if w.lock = some i then none else w.lock }

end World

inductive Label (ι : Type*) where
  | statement (i : ι) (ok : Bool)
  | crash (i : ι)

def World.step (ladder : Ladder σ) (w : World σ ι) : Label ι → World σ ι
  | .statement i ok => w.act ladder i ok
  | .crash i => w.crash i

end MigrationLadder
end Inkentry
