/-
  Inkentry.Anchors.Pass

  Anchors: which commit carries the work an entry records.  An anchor is a
  record on the note of that commit; an entry no commit has claimed yet waits in
  a pending row that remembers HEAD at the time of the write.

  After history moved, a pass looks for each noted commit that is no longer
  reachable for the one reachable commit with the same patch-id and adds an
  anchor there, and repoints the pending rows the same way.  Patch-ids go
  through a cache, which also remembers that there was none.

  Every git call of a pass may fail on its own; which ones do, the order in
  which the set of reachable commits is visited and the clock are the pass's.
-/

import Inkentry.Lib.Memo
import Inkentry.Lib.OrderLimit
import Inkentry.GitNotes.Repo
import Inkentry.Memory.Store
import Mathlib.Data.String.Basic

namespace Inkentry
namespace Anchors

open GitNotes OrderLimit

/-! ## Pending rows -/

/-- An entry waiting for a commit to claim it. -/
structure PendingAnchor where
  entityId : String
  worktree : String
  /-- HEAD at write time. -/
  headAtWrite : String
  createdAt : Int
  deriving DecidableEq, Repr

/-- The store's tables a pass reads and writes, the cache apart. -/
structure Db where
  store : Memory.Store
  pending : List PendingAnchor
  pendingUnique : (pending.map PendingAnchor.entityId).Nodup

def Db.removePendingAnchor (db : Db) (entity : String) : Db where
  store := db.store
  pending := db.pending.filter fun r => r.entityId ≠ entity
  pendingUnique := db.pendingUnique.sublist (List.filter_sublist.map _)

/-- The row with its head moved. -/
def PendingAnchor.reassign (entity newHeadAtWrite : String) (r : PendingAnchor) : PendingAnchor :=
  if r.entityId = entity then { r with headAtWrite := newHeadAtWrite } else r

@[simp] theorem PendingAnchor.reassign_entityId (entity newHead : String) (r : PendingAnchor) :
    (r.reassign entity newHead).entityId = r.entityId := by
  rw [PendingAnchor.reassign]
  split <;> rfl

def Db.reassignPendingAnchorHead (db : Db) (entity newHeadAtWrite : String) : Db where
  store := db.store
  pending := db.pending.map (PendingAnchor.reassign entity newHeadAtWrite)
  pendingUnique := by
    rw [List.map_map]
    have hmap : PendingAnchor.entityId ∘ PendingAnchor.reassign entity newHeadAtWrite
        = PendingAnchor.entityId := funext (PendingAnchor.reassign_entityId entity newHeadAtWrite)
    rw [hmap]
    exact db.pendingUnique

/-- `source_ref`, written over. -/
def sourceRefEdit (sourceRef : String) : Memory.RowEdit where
  apply n := { n with sourceRef := some sourceRef }
  id_apply _ := rfl
  entityId_apply _ := rfl
  remoteId_apply _ := rfl
  content_apply _ := ⟨rfl, rfl, rfl⟩

def Db.setSourceRef (db : Db) (id : NoteId) (sourceRef : String) : Db :=
  { db with store := db.store.edit (sourceRefEdit sourceRef) fun n => n.id = id }

/-! ## What git has -/

/-- Where the refs stand. -/
structure Git where
  /-- The commits reachable from a branch, a tag, a remote-tracking branch or HEAD. -/
  reachable : List String
  reachableNodup : reachable.Nodup
  /-- The ancestors of HEAD, itself in front. -/
  history : List String
  historyNodup : history.Nodup

/-- The clone the record lines are read from: HEAD's history and the notes. -/
def notesRepo (git : Git) (log : List (String × NoteRecord)) : Repo where
  history := git.history
  nodup := git.historyNodup
  notes commit := (log.filter fun line => line.1 = commit).map Prod.snd

/-- Every record with its commit, in the order git lists noted commits. -/
def allNotedRecords (log : List (String × NoteRecord)) : List (String × NoteRecord) :=
  sortBy Prod.fst log

/-- The anchors claimed for an entry with the time of the claim. -/
def anchorsForEntity (sha : String → String) (records : List (String × NoteRecord))
    (entity : String) : List (String × Int) :=
  (records.filter fun line => line.2.op = some "anchor" ∧ line.2.resolveEntityId sha = entity).map
    fun line => (line.1, line.2.createdAt)

/-- The first of the earliest. -/
def earliest : List (String × Int) → Option (String × Int)
  | [] => none
  | a :: anchors =>
    match earliest anchors with
    | none => some a
    | some b => if b.2 < a.2 then some b else some a

/-- The earliest reachable anchor, or else the earliest. -/
def resolveSourceRef (anchors : List (String × Int)) (reachable : String → Bool) : Option String :=
  ((earliest (anchors.filter fun a => reachable a.1)).or (earliest anchors)).map Prod.fst

/-! ## A pass -/

/-- The git calls of a pass.  `turn` counts the entries anchored. -/
inductive GitCall where
  | reachable
  | listNotes
  | readNotes
  | patchId (commit : String)
  | targetPatchId (turn : Nat)
  | append (turn : Nat)
  | listAnchors (turn : Nat)
  | readAnchors (turn : Nat)
  | ancestor (turn : Nat) (commit : String)

/-- What a pass meets outside the tables. -/
structure Pass where
  /-- The order in which a set of commits is visited. -/
  visit : List String → List String
  visit_perm : ∀ l, (visit l).Perm l
  fails : GitCall → Bool
  /-- The clock, read when the log has so many lines. -/
  clock : Nat → Clock

/-- What commits are does not change: a commit's patch-id, `none` for a merge or an empty one. -/
structure Env where
  sha : String → String
  patchId : String → Option String

/-- What a pass changes besides the cache. -/
structure Core where
  log : List (String × NoteRecord)
  db : Db
  turn : Nat

section Reconcile

variable (env : Env) (git : Git) (p : Pass)

/-- Appends the anchor record, settles `source_ref` and clears the pending row. -/
def anchorNoteNow (c : Core) (n : Note) (target : String) : Core :=
  let patchId := if p.fails (.targetPatchId c.turn) then none else env.patchId target
  if p.fails (.append c.turn) then { c with turn := c.turn + 1 }
  else
    let record := entityUpdateRecord env.sha (p.clock c.log.length) n n.status n.invalidAt none []
      (some "anchor") patchId
    let log := c.log ++ [(target, record)]
    if p.fails (.readAnchors c.turn) then ⟨log, c.db, c.turn + 1⟩
    else
      let anchors := if p.fails (.listAnchors c.turn) then []
        else anchorsForEntity env.sha (notesRepo git log).recordsWithCommit n.entityId
      let isAncestor (commit : String) : Bool :=
        !p.fails (.ancestor c.turn commit) && decide (commit ∈ git.history)
      let db := match resolveSourceRef anchors isAncestor with
        | some sourceRef => c.db.setSourceRef n.id sourceRef
        | none => c.db
      ⟨log, db.removePendingAnchor n.entityId, c.turn + 1⟩

/-- The core of a pass together with the cache. -/
abbrev Work := Core × Memo.Table String (Option String)

/-- A commit's patch-id, from the cache or computed and cached.  A failed
    computation is cached as a commit without one. -/
def patchIdOf (m : Memo.Table String (Option String)) (sha : String) :
    Option String × Memo.Table String (Option String) :=
  Memo.ask env.patchId none (fun commit => p.fails (.patchId commit)) m sha

/-- The one reachable commit with a patch-id. -/
def findUniqueMatch (m : Memo.Table String (Option String)) (patchId : String)
    (reachable : List String) : Option String × Memo.Table String (Option String) :=
  Memo.findUnique env.patchId none (fun commit => p.fails (.patchId commit)) (some patchId) none
    (p.visit reachable) m

/-- One record of the notes. -/
def reconcileOrphanedAnchor (reachable : List String) (w : Work) (line : String × NoteRecord) :
    Work :=
  if line.1 ∈ reachable ∨ line.2.op ≠ some "anchor" then w
  else
    match line.2.patchId with
    | none => w
    | some patchId =>
      let found := findUniqueMatch env p w.2 patchId reachable
      match found.1 with
      | none => (w.1, found.2)
      | some replacement =>
        match w.1.db.store.rowForEntity? (line.2.resolveEntityId env.sha) with
        | none => (w.1, found.2)
        | some n => (anchorNoteNow env git p w.1 (Memory.rowToNote n) replacement, found.2)

/-- One pending row. -/
def reconcilePendingRow (reachable : List String) (w : Work) (row : PendingAnchor) : Work :=
  if row.headAtWrite ∈ reachable then w
  else
    let known := patchIdOf env p w.2 row.headAtWrite
    match known.1 with
    | none => (w.1, known.2)
    | some patchId =>
      let found := findUniqueMatch env p known.2 patchId reachable
      match found.1 with
      | none => (w.1, found.2)
      | some replacement =>
        ({ w.1 with db := w.1.db.reassignPendingAnchorHead row.entityId replacement }, found.2)

/-- The pass.  Unreadable notes end it before anything is done. -/
def reconcileAnchors (w : Work) : Work :=
  let reachable := if p.fails .reachable then [] else git.reachable
  if p.fails .readNotes then w
  else
    let all := if p.fails .listNotes then [] else allNotedRecords w.1.log
    let anchored := all.foldl (reconcileOrphanedAnchor env git p reachable) w
    anchored.1.db.pending.foldl (reconcilePendingRow env p reachable) anchored

end Reconcile

/-! ## Runs -/

/-- A repository with its tables. -/
structure State where
  git : Git
  log : List (String × NoteRecord)
  db : Db
  patchIds : Memo.Table String (Option String)

/-- Nothing is cached before the first pass. -/
def State.start (git : Git) (log : List (String × NoteRecord)) (db : Db) : State :=
  ⟨git, log, db, Memo.Table.empty⟩

def State.work (st : State) : Work := (⟨st.log, st.db, 0⟩, st.patchIds)

inductive Label where
  | pass (p : Pass)
  /-- Commits, rebases, fetches: the refs stand elsewhere. -/
  | refs (git : Git)
  /-- Any other command that writes notes or rows; none of them touches the cache. -/
  | edit (log : List (String × NoteRecord)) (db : Db)

def State.reconciled (env : Env) (st : State) (p : Pass) : State :=
  let w := reconcileAnchors env st.git p st.work
  { st with log := w.1.log, db := w.1.db, patchIds := w.2 }

def step (env : Env) (st : State) : Label → State
  | .pass p => st.reconciled env p
  | .refs git => { st with git }
  | .edit log db => { st with log, db }

end Anchors
end Inkentry
