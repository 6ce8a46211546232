/-
  Inkentry.Sync.Round

  `inkentry sync` between any number of clients and the team server.

  A round pulls, pushes the local rows, and pulls again, both times from the
  cursor it read when it began; a client with no cursor yet pushes first and
  pulls once.  A pull drains the feed page by page and starts over from the
  beginning when the server then counts more active entries than the store.
  Every request, every applied entry and every stamped row is a step of its own
  between which other clients' steps may come, and a round may be cut off at any
  of them.

  `watched` and `shadowed` record what a round found when it began; no step
  reads them.
-/

import Mathlib.Logic.Function.Basic
import Mathlib.Data.List.Basic
import Inkentry.Lib.Cursor
import Inkentry.Lib.Runs
import Inkentry.Server.Feed

namespace Inkentry
namespace Sync

open Server Memory Cursor

def pushBatchChunkSize : Nat := 50

/-! ## Rounds -/

/-- A pull: about to ask for a page, applying one, or at the end of the feed.
    `restart` marks the pull that starts over. -/
inductive Pull where
  | asking (restart : Bool) (cursor : Option String)
  | applying (restart : Bool) (page rest : List RemoteEntry) (total : Nat)
  | drained (restart : Bool) (total : Nat)

/-- Where a round is. -/
inductive Leg where
  /-- In its first or its second pull. -/
  | pulling (second : Bool) (pull : Pull)
  /-- About to read the rows to push. -/
  | reading
  /-- About to send the next chunk of rows. -/
  | sending (chunks : List (List Note))
  /-- Stamping the rows of the chunk that was just answered. -/
  | stamping (chunk : List Note) (results : List BatchItemResult) (chunks : List (List Note))

/-- A round under way, with the cursor it began with. -/
structure Round where
  cursor : Option String
  /-- The entries that were active when it began. -/
  watched : List String
  /-- Of those, the ones at or below its cursor that the store did not have. -/
  shadowed : List String
  /-- A pull of it has started over, and reached the end. -/
  redrained : Bool
  leg : Leg

inductive Phase where
  | idle
  | running (r : Round)
  /-- The last round went through; what was active when it began. -/
  | completed (watched : List String)

structure Client where
  store : Store
  phase : Phase

/-- The project on the server, and its clients. -/
structure World (Clients : Type) where
  server : Feed
  clients : Clients → Client

/-- One step of the world. -/
inductive Label (Clients : Type) where
  /-- An entry is stored by a writer that does not sync. -/
  | arrive (e : ServerEntry)
  | archiveRemote (id : String)
  | write (c : Clients) (w : LocalWrite)
  /-- A round begins: it reads the pull cursor. -/
  | begin (c : Clients)
  /-- The server answers the request for a page. -/
  | request (c : Clients)
  /-- The next entry of the page is applied. -/
  | apply (c : Clients) (uuid : NoteId)
  | turnPage (c : Clients)
  /-- The totals are compared at the end of the feed. -/
  | compare (c : Clients)
  | readRows (c : Clients)
  /-- The server handles the next chunk; its answer may get lost. -/
  | send (c : Clients) (now : Int) (minted : Nat → SyncId) (answered : Bool)
  /-- The request with the next chunk does not get through. -/
  | sendLost (c : Clients)
  | stamp (c : Clients)
  | endPush (c : Clients)
  /-- The round is cut off, or fails. -/
  | cutOff (c : Clients)

/-! ## Steps of a client -/

/-- A row as it is pushed. -/
def pushedRow (n : Note) : BatchPushItem where
  id := none
  kind := n.kind
  title := n.title
  body := if n.body.isEmpty then none else some n.body
  externalId := n.id.token
  sourceCommit := n.sourceRef

/-- The active entries at or below the cursor that the store does not have. -/
def shadowedIds (sha : String → String) (f : Feed) (s : Store) : List String :=
  (f.entries.filter fun e =>
    e.active && decide (Passed s.maxRemoteId e.id) && !decide (s.Holds sha e.toRemote)).map
      ServerEntry.id

/-- A round begins; one that finds no cursor goes straight to its push. -/
def beginRound (sha : String → String) (f : Feed) (s : Store) : Round where
  cursor := s.maxRemoteId
  watched := (f.entries.filter ServerEntry.active).map ServerEntry.id
  shadowed := shadowedIds sha f s
  redrained := false
  leg := if s.maxRemoteId.isNone then .reading else .pulling false (.asking false s.maxRemoteId)

/-- The second pull of a round. -/
def Round.confirm (r : Round) : Round := { r with leg := .pulling true (.asking false r.cursor) }

/-- The end of a pull: it starts over when the server has more active entries than
    the store, unless it did already. -/
def endPull (r : Round) (count : Nat) (second restart : Bool) (total : Nat) : Phase :=
  if restart = false ∧ count < total then
    .running { r with leg := .pulling second (.asking true none) }
  else if second then .completed r.watched
  else .running { r with leg := .reading, redrained := r.redrained || restart }

/-- Stamps the row of a chunk that a result names; `none` when the store refuses. -/
def stampResult (s : Store) (chunk : List Note) (result : BatchItemResult) : Option Store :=
  if result.status = "created" ∨ result.status = "skipped" then
    match result.id, chunk.find? fun n => n.id.token = result.externalId with
    | some remoteId, some n => s.setRemoteId n.id remoteId
    | _, _ => some s
  else some s

section Step

variable {Clients : Type} [DecidableEq Clients] (env : StoreEnv)

def World.set (w : World Clients) (c : Clients) (client : Client) : World Clients :=
  { w with clients := Function.update w.clients c client }

/-- A step of a client that leaves its store alone. -/
def World.setPhase (w : World Clients) (c : Clients) (p : Phase) : World Clients :=
  w.set c { w.clients c with phase := p }

/-- The leg a client is on. -/
def World.round (w : World Clients) (c : Clients) : Option Round :=
  match (w.clients c).phase with
  | .running r => some r
  | _ => none

def World.begin (w : World Clients) (c : Clients) : World Clients :=
  match w.round c with
  | some _ => w
  | none => w.setPhase c (.running (beginRound env.sha w.server (w.clients c).store))

def World.request (w : World Clients) (c : Clients) : World Clients :=
  match w.round c with
  | some r =>
    match r.leg with
    | .pulling second (.asking restart cursor) =>
      let page := w.server.pullSince cursor
      w.setPhase c (.running { r with
        leg := .pulling second (.applying restart page page w.server.activeNoteCount) })
    | _ => w
  | none => w

def World.apply (w : World Clients) (c : Clients) (uuid : NoteId) : World Clients :=
  match w.round c with
  | some r =>
    match r.leg with
    | .pulling second (.applying restart page (e :: rest) total) =>
      match (w.clients c).store.applyRemoteNote env uuid e with
      | some (_, s) =>
        w.set c ⟨s, .running { r with leg := .pulling second (.applying restart page rest total) }⟩
      | none => w.setPhase c .idle
    | _ => w
  | none => w

/-- A page shorter than was asked for is the last one. -/
def World.turnPage (w : World Clients) (c : Clients) : World Clients :=
  match w.round c with
  | some r =>
    match r.leg with
    | .pulling second (.applying restart page [] total) =>
      let pull := if (page.length : Int) < memorySincePullLimit then .drained restart total
        else .asking restart (page.getLast?.map RemoteEntry.id)
      w.setPhase c (.running { r with leg := .pulling second pull })
    | _ => w
  | none => w

def World.compare (w : World Clients) (c : Clients) : World Clients :=
  match w.round c with
  | some r =>
    match r.leg with
    | .pulling second (.drained restart total) =>
      w.setPhase c (endPull r (w.clients c).store.count second restart total)
    | _ => w
  | none => w

def World.readRows (w : World Clients) (c : Clients) : World Clients :=
  match w.round c with
  | some r =>
    match r.leg with
    | .reading =>
      let chunks := (w.clients c).store.unsyncedRows.toChunks pushBatchChunkSize
      w.setPhase c (.running { r with leg := .sending chunks })
    | _ => w
  | none => w

/-- A chunk that is not answered with results ends the push. -/
def World.send (w : World Clients) (c : Clients) (now : Int) (minted : Nat → SyncId)
    (answered : Bool) : World Clients :=
  match w.round c with
  | some r =>
    match r.leg with
    | .sending (chunk :: chunks) =>
      let (results, server) :=
        w.server.pushMemoryBatch now (chunk.mapIdx fun i n => (minted i, pushedRow n))
      let w := { w with server := server }
      match results, answered with
      | some results, true =>
        w.setPhase c (.running { r with leg := .stamping chunk results chunks })
      | _, _ => w.setPhase c (.running r.confirm)
    | _ => w
  | none => w

def World.sendLost (w : World Clients) (c : Clients) : World Clients :=
  match w.round c with
  | some r =>
    match r.leg with
    | .sending (_ :: _) => w.setPhase c (.running r.confirm)
    | _ => w
  | none => w

def World.stamp (w : World Clients) (c : Clients) : World Clients :=
  match w.round c with
  | some r =>
    match r.leg with
    | .stamping chunk (result :: results) chunks =>
      match stampResult (w.clients c).store chunk result with
      | some s => w.set c ⟨s, .running { r with leg := .stamping chunk results chunks }⟩
      | none => w.setPhase c .idle
    | .stamping _ [] chunks => w.setPhase c (.running { r with leg := .sending chunks })
    | _ => w
  | none => w

def World.endPush (w : World Clients) (c : Clients) : World Clients :=
  match w.round c with
  | some r =>
    match r.leg with
    | .sending [] => w.setPhase c (.running r.confirm)
    | _ => w
  | none => w

def step (w : World Clients) : Label Clients → World Clients
  | .arrive e => { w with server := (w.server.insert e).getD w.server }
  | .archiveRemote id => { w with server := w.server.archive id }
  | .write c op =>
    w.set c ⟨applyWrite env (w.clients c).store op, (w.clients c).phase⟩
  | .begin c => w.begin env c
  | .request c => w.request c
  | .apply c uuid => w.apply env c uuid
  | .turnPage c => w.turnPage c
  | .compare c => w.compare c
  | .readRows c => w.readRows c
  | .send c now minted answered => w.send c now minted answered
  | .sendLost c => w.sendLost c
  | .stamp c => w.stamp c
  | .endPush c => w.endPush c
  | .cutOff c => w.setPhase c .idle

end Step

end Sync
end Inkentry
