/-
  Inkentry.Carrier.Publish

  Publishing the notes ref to a remote that other clones publish to as well:
  fetch the remote's notes onto the tracking ref, merge them into the working
  ref, push.  The push is never forced, so the remote takes it only where the
  pushed commit descends from its own; one it refuses for that is tried again.

  Every look at git is a step of its own.  Appends, fetches and merges by other
  processes of the clone come in between, and the steps of other clones.
-/

import Inkentry.Carrier.ReadPath
import Inkentry.Lib.History

namespace Inkentry
namespace Carrier
namespace Publish

open GitNotes Memory Runs

/-! ## The code -/

/-- `MAX_PUSH_ATTEMPTS` -/
def MAX_PUSH_ATTEMPTS : Nat := 3

inductive SkipReason where
  | recursion
  | noLocalNotes
  | noSuchRemote
  | lockUnavailable
  deriving DecidableEq, Repr

/-- Where a call of `publish_notes` stands; the attempts count from one. -/
inductive Phase where
  | idle
  | fetching (attempt : Nat)
  | merging (attempt : Nat)
  | pushing (attempt : Nat)
  | published (attempts : Nat)
  | skipped (reason : SkipReason)
  | failed
  deriving DecidableEq, Repr

/-- The attempt a call under way is at. -/
def Phase.attempt? : Phase → Option Nat
  | .fetching k | .merging k | .pushing k => some k
  | _ => none

/-- The notes refs: the remote's, and in each clone the one it works on and the one it
    fetches onto. -/
inductive Ref (M : Type*) where
  | remote
  | working (m : M)
  | tracking (m : M)
  deriving DecidableEq

/-- `M` are the clones, `P` the calls. -/
structure World (M P : Type*) where
  /-- The commits of all refs; a copy of one has its OID everywhere. -/
  history : History Notes
  refs : Ref M → Option Nat
  calls : P → Phase

variable {M P : Type*}

def World.initial : World M P := ⟨.empty fun _ => [], fun _ => none, fun _ => .idle⟩

def World.notesAt (w : World M P) (oid : Option Nat) : Notes :=
  oid.elim (fun _ => []) w.history.tree

variable [DecidableEq M] [DecidableEq P]

def World.setRef (w : World M P) (ref : Ref M) (oid : Nat) : World M P :=
  { w with refs := Function.update w.refs ref (some oid) }

def World.goto (w : World M P) (p : P) (phase : Phase) : World M P :=
  { w with calls := Function.update w.calls p phase }

/-- A clone's working ref moves to a new commit. -/
def World.commit (w : World M P) (m : M) (parents : List Nat) (notes : Notes) : World M P :=
  { w with history := w.history.add parents notes }.setRef (.working m) w.history.size

/-- `append_to_git_notes_at`, under the notes lock. -/
def World.append (w : World M P) (m : M) (target : String) (records : List NoteRecord) :
    World M P :=
  let notes := w.notesAt (w.refs (.working m))
  w.commit m (w.refs (.working m)).toList
    (Function.update notes target (notes target ++ records))

/-- `git fetch` onto the tracking ref; a remote without the ref leaves it as it is. -/
def World.fetch (w : World M P) (m : M) : World M P :=
  match w.refs .remote with
  | none => w
  | some r => w.setRef (.tracking m) r

/-- The note on each commit after a merge: the side that changed it, both sides' lines where
    both did. -/
def mergedNotes (env : NotesMerge) (base ours theirs : Notes) : Notes := fun target =>
  if theirs target = base target then ours target
  else if ours target = base target then theirs target
  else env.merge ours theirs target

/-- The base git merges on, if it is one: a commit both sides descend from. -/
def World.mergeBase (w : World M P) (base : Option Nat) (ours theirs : Nat) : Option Nat :=
  base.filter fun b => w.history.Reaches ours b ∧ w.history.Reaches theirs b

/-- `merge_tracking_notes`; git chooses the base. -/
def World.mergeTrackingNotes (env : NotesMerge) (w : World M P) (m : M) (base : Option Nat) :
    MergeAttempt → NotesMergeOutcome × World M P
  | .locked => (.lockUnavailable, w)
  | .fails => (.skipped, w)
  | .runs =>
    match w.refs (.working m), w.refs (.tracking m) with
    | _, none => (.skipped, w)
    | none, some theirs => (.merged, w.setRef (.working m) theirs)
    | some ours, some theirs =>
      if w.history.Reaches ours theirs then (.merged, w)
      else if w.history.Reaches theirs ours then (.merged, w.setRef (.working m) theirs)
      else
        (.merged, w.commit m [ours, theirs]
          (mergedNotes env (w.notesAt (w.mergeBase base ours theirs)) (w.notesAt (some ours))
            (w.notesAt (some theirs))))

/-- How a push ends, the remote's own check apart. -/
inductive PushAttempt where
  /-- The remote looks at the commit it is offered. -/
  | arrives
  /-- Offline, or refused for another reason than a lost race. -/
  | refused
  deriving DecidableEq, Repr

/-- What happens next, in any order. -/
inductive Event (M P : Type*) where
  | append (m : M) (target : String) (records : List NoteRecord)
  /-- The user's own fetch. -/
  | fetch (m : M)
  /-- A read's merge. -/
  | merge (m : M) (base : Option Nat) (attempt : MergeAttempt)
  /-- A call starts: inside the push of another one or not, for a remote that resolves or not. -/
  | begin (p : P) (nested resolves : Bool)
  | fetchNotes (p : P) (succeeds : Bool)
  | mergeNotes (p : P) (base : Option Nat) (attempt : MergeAttempt)
  | push (p : P) (attempt : PushAttempt)
  | kill (p : P)

variable (env : NotesMerge) (host : P → M)

def World.begin (w : World M P) (p : P) (nested resolves : Bool) : World M P :=
  if (w.calls p).attempt?.isSome then w
  else w.goto p <|
    if nested then .skipped .recursion
    else if w.refs (.working (host p)) = none then .skipped .noLocalNotes
    else if resolves then .fetching 1
    else .skipped .noSuchRemote

def World.fetchNotes (w : World M P) (p : P) (succeeds : Bool) : World M P :=
  match w.calls p with
  | .fetching k => (if succeeds then w.fetch (host p) else w).goto p (.merging k)
  | _ => w

def World.mergeNotes (w : World M P) (p : P) (base : Option Nat) (attempt : MergeAttempt) :
    World M P :=
  match w.calls p with
  | .merging k =>
    match w.mergeTrackingNotes env (host p) base attempt with
    | (.lockUnavailable, w) => w.goto p (.skipped .lockUnavailable)
    | (_, w) => w.goto p (.pushing k)
  | _ => w

/-- Whether the remote takes a commit: it descends from the one the remote has. -/
def World.Takes (w : World M P) (oid : Nat) : Prop := ∀ r ∈ w.refs .remote, w.history.Reaches oid r

instance (w : World M P) (oid : Nat) : Decidable (w.Takes oid) :=
  inferInstanceAs (Decidable (∀ r ∈ w.refs .remote, _))

def World.push (w : World M P) (p : P) (attempt : PushAttempt) : World M P :=
  match w.calls p, attempt, w.refs (.working (host p)) with
  | .pushing k, .arrives, some oid =>
    if w.Takes oid then (w.setRef .remote oid).goto p (.published k)
    else w.goto p (if k < MAX_PUSH_ATTEMPTS then .fetching (k + 1) else .failed)
  | .pushing _, _, _ => w.goto p .failed
  | _, _, _ => w

def step (w : World M P) : Event M P → World M P
  | .append m target records => w.append m target records
  | .fetch m => w.fetch m
  | .merge m base attempt => (w.mergeTrackingNotes env m base attempt).2
  | .begin p nested resolves => w.begin host p nested resolves
  | .fetchNotes p succeeds => w.fetchNotes host p succeeds
  | .mergeNotes p base attempt => w.mergeNotes env host p base attempt
  | .push p attempt => w.push host p attempt
  | .kill p => w.goto p .idle

end Publish
end Carrier
end Inkentry
