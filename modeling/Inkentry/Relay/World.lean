/-
  Inkentry.Relay.World

  A machine with a relay on it: the team server, one relay session, the local
  stores that share it and the command processes that talk to it.

  A process polls in steps that others may come between: it reads its store's
  cursor and unsynced rows, registers them, polls, applies what it was handed
  one entry at a time, and acknowledges what it applied.  Everything the outside
  world decides (what arrives on the server, a clock reading, a fresh id, a
  lost request, a process that dies) is part of the label.
-/

import Mathlib.Logic.Function.Basic
import Inkentry.Lib.Runs
import Inkentry.Relay.Session

namespace Inkentry
namespace Relay

open Server Memory

/-! ## Processes -/

def maxNudgeEntries : Nat := 200

/-- Where a command process is. -/
inductive Cli where
  | idle
  /-- It has read the store and is about to register. -/
  | registering (sinceCursor : Option String) (entries : List RelayPushEntry)
  /-- It has polled: what is left to apply, and what it will acknowledge. -/
  | applying (pushes : List RelayPushResult) (pulls : List RemoteEntry)
      (ackedPushIds ackedPullIds : List String)

/-- The cursor a process is about to register. -/
def Cli.sinceCursor : Cli → Option String
  | .registering since _ => since
  | _ => none

/-- The pulled entries a process still has to apply. -/
def Cli.pulls : Cli → List RemoteEntry
  | .applying _ pulls _ _ => pulls
  | _ => []

/-- The push results a process still has to apply. -/
def Cli.pushes : Cli → List RelayPushResult
  | .applying pushes _ _ _ => pushes
  | _ => []

/-- The pulled entries a process has applied and not acknowledged yet. -/
def Cli.ackedPullIds : Cli → List String
  | .applying _ _ _ acked => acked
  | _ => []

/-- The push results a process has applied and not acknowledged yet. -/
def Cli.ackedPushIds : Cli → List String
  | .applying _ _ acked _ => acked
  | _ => []

/-- A row as it is offered to the relay. -/
def offeredRow (n : Note) : RelayPushEntry where
  kind := n.kind
  title := n.title
  body := if n.body.isEmpty then none else some n.body
  externalId := n.id.token
  sourceCommit := n.sourceRef

/-- Applies one push result: the row is stamped, if it is this store's and the
    result carries an id. -/
def applyPushResult (s : Store) (r : RelayPushResult) : Option Store :=
  if r.status = "created" ∨ r.status = "skipped" then
    r.remoteId.bind fun remoteId =>
      if s.hasNote ⟨r.externalId⟩ then s.setRemoteId ⟨r.externalId⟩ remoteId else none
  else none

/-! ## The world -/

/-- The server, the session if one is registered, the stores and the processes. -/
structure World (Proc Db : Type) where
  server : Feed
  session : Option RelayInner
  stores : Db → Store
  clis : Proc → Cli

/-- One step of the world. -/
inductive Label (Proc Db : Type) where
  /-- An entry is stored from another machine. -/
  | arrive (e : ServerEntry)
  | archiveRemote (id : String)
  | write (db : Db) (w : LocalWrite)
  | prepare (p : Proc)
  | register (p : Proc)
  /-- The server handles the push task at an index. -/
  | pushArrive (k : Nat) (now : Int) (minted : Nat → SyncId)
  /-- The request of the push task at an index fails. -/
  | pushLost (k : Nat)
  | pushFinish (k : Nat) (now : Int)
  /-- The pull loop starts, or has reconnected. -/
  | connect
  | frame (frameId : Option String) (sawData : Bool)
  | catchUpAnswer
  | catchUpFail
  | catchUpFinish (now : Int)
  | poll (p : Proc)
  | applyPush (p : Proc)
  | applyPull (p : Proc) (uuid : NoteId)
  | ack (p : Proc)
  /-- A process dies, or gives up on a request. -/
  | abandon (p : Proc)
  /-- The idle session is dropped, or the resident process restarts. -/
  | retire

/-! ## Steps -/

section Step

variable {Proc Db : Type} [DecidableEq Proc] [DecidableEq Db] (env : StoreEnv) (db : Proc → Db)

def World.setCli (w : World Proc Db) (p : Proc) (c : Cli) : World Proc Db :=
  { w with clis := Function.update w.clis p c }

def World.setStore (w : World Proc Db) (d : Db) (s : Store) : World Proc Db :=
  { w with stores := Function.update w.stores d s }

/-- A step of the session, if there is one. -/
def World.onSession (w : World Proc Db) (f : RelayInner → RelayInner) : World Proc Db :=
  { w with session := w.session.map f }

/-- The items the server is sent for a push task, each with the id it would mint. -/
def batchItems (minted : Nat → SyncId) (entries : List RelayPushEntry) :
    List (SyncId × BatchPushItem) :=
  entries.mapIdx fun i e => (minted i, e.toItem)

/-- The server handles a push task. -/
def World.pushArrive (w : World Proc Db) (k : Nat) (now : Int) (minted : Nat → SyncId) :
    World Proc Db :=
  match w.session with
  | none => w
  | some s =>
    match s.pushes[k]? with
    | some (.spawned entries) =>
      let (results, server) := w.server.pushMemoryBatch now (batchItems minted entries)
      { w with
        server := server
        session := some { s with pushes := s.pushes.set k (.answered results) } }
    | _ => w

/-- The results of a push task are buffered, and the task ends. -/
def RelayInner.takePush (s : RelayInner) (k : Nat) (now : Int) : RelayInner :=
  match s.pushes[k]? with
  | some (.answered results) => { s.finishPush now results with pushes := s.pushes.eraseIdx k }
  | _ => s

/-- The request of a push task fails. -/
def RelayInner.losePush (s : RelayInner) (k : Nat) : RelayInner :=
  match s.pushes[k]? with
  | some (.spawned _) => { s with pushes := s.pushes.set k (.answered none) }
  | _ => s

/-- The server answers a catch-up. -/
def RelayInner.answerCatchUp (s : RelayInner) (server : Feed) : RelayInner :=
  match s.catchUp with
  | .asked cursor => { s with catchUp := .answered (server.pullSince cursor) }
  | _ => s

/-- The page of a catch-up is buffered. -/
def RelayInner.takePage (s : RelayInner) (now : Int) : RelayInner :=
  match s.catchUp with
  | .answered page => s.finishCatchUp now page
  | _ => s

/-- A registration reaches the relay, which creates the session if need be. -/
def World.register (w : World Proc Db) (p : Proc) : World Proc Db :=
  match w.clis p with
  | .registering since entries =>
    { w.setCli p .idle with session := some ((w.session.getD .new).register since entries) }
  | _ => w

/-- A process is handed what the session buffers; an unregistered session hands out
    nothing. -/
def World.poll (w : World Proc Db) (p : Proc) : World Proc Db :=
  match w.clis p with
  | .idle =>
    let response := w.session.map RelayInner.poll
    w.setCli p (.applying ((response.map RelayPollResponse.pushResults).getD [])
      ((response.map RelayPollResponse.pulled).getD []) [] [])
  | _ => w

/-- A process applies the next push result. -/
def World.applyPush (w : World Proc Db) (p : Proc) : World Proc Db :=
  match w.clis p with
  | .applying (r :: pushes) pulls ackedPushIds ackedPullIds =>
    match applyPushResult (w.stores (db p)) r with
    | some s =>
      (w.setStore (db p) s).setCli p
        (.applying pushes pulls (ackedPushIds ++ [r.externalId]) ackedPullIds)
    | none => w.setCli p (.applying pushes pulls ackedPushIds ackedPullIds)
  | _ => w

/-- A process applies the next pulled entry. -/
def World.applyPull (w : World Proc Db) (p : Proc) (uuid : NoteId) : World Proc Db :=
  match w.clis p with
  | .applying [] (e :: pulls) ackedPushIds ackedPullIds =>
    match (w.stores (db p)).applyRemoteNote env uuid e with
    | some (_, s) =>
      (w.setStore (db p) s).setCli p (.applying [] pulls ackedPushIds (ackedPullIds ++ [e.id]))
    | none => w.setCli p (.applying [] pulls ackedPushIds ackedPullIds)
  | _ => w

/-- A process that has applied everything acknowledges what it could apply. -/
def World.ack (w : World Proc Db) (p : Proc) : World Proc Db :=
  match w.clis p with
  | .applying [] [] ackedPushIds ackedPullIds =>
    (w.onSession fun s => s.ack ackedPushIds ackedPullIds).setCli p .idle
  | _ => w

/-- A process reads its store's cursor and the rows to offer. -/
def World.prepare (w : World Proc Db) (p : Proc) : World Proc Db :=
  match w.clis p with
  | .idle =>
    let s := w.stores (db p)
    w.setCli p (.registering s.maxRemoteId ((s.unsyncedRows.take maxNudgeEntries).map offeredRow))
  | _ => w

def step (w : World Proc Db) : Label Proc Db → World Proc Db
  | .arrive e => { w with server := (w.server.insert e).getD w.server }
  | .archiveRemote id => { w with server := w.server.archive id }
  | .write d op => w.setStore d (applyWrite env (w.stores d) op)
  | .prepare p => w.prepare db p
  | .register p => w.register p
  | .pushArrive k now minted => w.pushArrive k now minted
  | .pushLost k => w.onSession fun s => s.losePush k
  | .pushFinish k now => w.onSession fun s => s.takePush k now
  | .connect => w.onSession RelayInner.beginCatchUp
  | .frame frameId sawData => w.onSession fun s => s.frame frameId sawData
  | .catchUpAnswer => w.onSession fun s => s.answerCatchUp w.server
  | .catchUpFail => w.onSession RelayInner.failCatchUp
  | .catchUpFinish now => w.onSession fun s => s.takePage now
  | .poll p => w.poll p
  | .applyPush p => w.applyPush db p
  | .applyPull p uuid => w.applyPull env db p uuid
  | .ack p => w.ack p
  | .abandon p => w.setCli p .idle
  | .retire => { w with session := none }

/-! ## What each operation leaves alone -/

variable {env db}

section Frame

variable (w : World Proc Db) (p : Proc)

theorem prepare_frame : (w.prepare db p).server = w.server
    ∧ (w.prepare db p).session = w.session ∧ (w.prepare db p).stores = w.stores := by
  unfold World.prepare
  split <;> exact ⟨rfl, rfl, rfl⟩

theorem register_frame : (w.register p).server = w.server
    ∧ (w.register p).stores = w.stores := by
  unfold World.register
  split <;> exact ⟨rfl, rfl⟩

theorem poll_frame : (w.poll p).server = w.server ∧ (w.poll p).session = w.session
    ∧ (w.poll p).stores = w.stores := by
  unfold World.poll
  split <;> exact ⟨rfl, rfl, rfl⟩

theorem applyPush_frame : (w.applyPush db p).server = w.server
    ∧ (w.applyPush db p).session = w.session := by
  unfold World.applyPush
  split
  · split <;> exact ⟨rfl, rfl⟩
  · exact ⟨rfl, rfl⟩

theorem applyPull_frame (uuid : NoteId) : (w.applyPull env db p uuid).server = w.server
    ∧ (w.applyPull env db p uuid).session = w.session := by
  unfold World.applyPull
  split
  · split <;> exact ⟨rfl, rfl⟩
  · exact ⟨rfl, rfl⟩

theorem ack_frame : (w.ack p).server = w.server ∧ (w.ack p).stores = w.stores := by
  unfold World.ack
  split <;> exact ⟨rfl, rfl⟩

theorem pushArrive_frame (k : Nat) (now : Int) (minted : Nat → SyncId) :
    (w.pushArrive k now minted).stores = w.stores
      ∧ (w.pushArrive k now minted).clis = w.clis := by
  unfold World.pushArrive
  split
  · exact ⟨rfl, rfl⟩
  · split <;> exact ⟨rfl, rfl⟩

theorem pushArrive_session (k : Nat) (now : Int) (minted : Nat → SyncId) :
    (w.pushArrive k now minted).session = w.session
      ∨ ∃ s pushes, w.session = some s
          ∧ (w.pushArrive k now minted).session = some { s with pushes := pushes } := by
  unfold World.pushArrive
  split
  · exact .inl rfl
  · rename_i s hs
    split
    · exact .inr ⟨s, _, hs, rfl⟩
    · exact .inl rfl

theorem pushArrive_server (k : Nat) (now : Int) (minted : Nat → SyncId) :
    (w.pushArrive k now minted).server = w.server
      ∨ ∃ items, (w.pushArrive k now minted).server = (w.server.pushMemoryBatch now items).2 := by
  unfold World.pushArrive
  split
  · exact .inl rfl
  · split
    · exact .inr ⟨_, rfl⟩
    · exact .inl rfl

end Frame

/-! ## What no step loses -/

theorem keeps_setStore {w : World Proc Db} {d : Db} {s : Store} (h : (w.stores d).Keeps s)
    (d' : Db) : (w.stores d').Keeps ((w.setStore d s).stores d') := by
  by_cases hd : d' = d
  · subst hd
    simpa [World.setStore] using h
  · simpa [World.setStore, hd] using Store.Keeps.refl _

theorem applyPushResult_eq_some {s s' : Store} {r : RelayPushResult}
    (h : applyPushResult s r = some s') :
    s.Keeps s' ∧ s.hasNote ⟨r.externalId⟩ = true ∧ s'.Stamped ⟨r.externalId⟩ := by
  unfold applyPushResult at h
  split at h
  · obtain ⟨remoteId, -, hset⟩ := Option.bind_eq_some_iff.mp h
    split at hset
    case isTrue hnote =>
      exact ⟨Store.keeps_setRemoteId hset, hnote, Store.stamped_setRemoteId hset hnote⟩
    case isFalse => exact absurd hset (by simp)
  · exact absurd h (by simp)

theorem stores_keep (w : World Proc Db) (l : Label Proc Db) (d : Db) :
    (w.stores d).Keeps ((step env db w l).stores d) := by
  have hrefl := Store.Keeps.refl (w.stores d)
  cases l with
  | write d' op => exact keeps_setStore (keeps_applyWrite env _ op) d
  | applyPush p =>
    show (w.stores d).Keeps ((w.applyPush db p).stores d)
    unfold World.applyPush
    split
    · split
      case h_1 hs => exact keeps_setStore (applyPushResult_eq_some hs).1 d
      case h_2 => exact hrefl
    · exact hrefl
  | applyPull p uuid =>
    show (w.stores d).Keeps ((w.applyPull env db p uuid).stores d)
    unfold World.applyPull
    split
    · split
      case h_1 hs => exact keeps_setStore (Store.keeps_applyRemoteNote hs) d
      case h_2 => exact hrefl
    · exact hrefl
  | prepare p => rw [step, (prepare_frame w p).2.2]; exact hrefl
  | register p => rw [step, (register_frame w p).2]; exact hrefl
  | poll p => rw [step, (poll_frame w p).2.2]; exact hrefl
  | ack p => rw [step, (ack_frame w p).2]; exact hrefl
  | pushArrive k now minted => rw [step, (pushArrive_frame w k now minted).1]; exact hrefl
  | _ => exact hrefl

theorem server_extends (env : StoreEnv) (db : Proc → Db) (w : World Proc Db) (l : Label Proc Db) :
    w.server.Extends (step env db w l).server := by
  have hrefl := Feed.Extends.refl w.server
  cases l with
  | arrive e =>
    show w.server.Extends ((w.server.insert e).getD w.server)
    cases h : w.server.insert e with
    | none => exact hrefl
    | some f => exact Feed.extends_insert h
  | archiveRemote id => exact w.server.extends_archive id
  | pushArrive k now minted =>
    rw [step]
    rcases pushArrive_server w k now minted with h | ⟨items, h⟩
    · rw [h]
      exact hrefl
    · rw [h]
      exact (w.server.follows_pushMemoryBatch now items).ext
  | prepare p => rw [step, (prepare_frame w p).1]; exact hrefl
  | register p => rw [step, (register_frame w p).1]; exact hrefl
  | poll p => rw [step, (poll_frame w p).1]; exact hrefl
  | applyPush p => rw [step, (applyPush_frame w p).1]; exact hrefl
  | applyPull p uuid => rw [step, (applyPull_frame w p uuid).1]; exact hrefl
  | ack p => rw [step, (ack_frame w p).1]; exact hrefl
  | _ => exact hrefl

/-- A store has the server's entry with an id. -/
def World.Has (env : StoreEnv) (w : World Proc Db) (d : Db) (id : String) : Prop :=
  w.server.HeldBy env.sha (w.stores d) id

instance (w : World Proc Db) (d : Db) (id : String) : Decidable (w.Has env d id) :=
  inferInstanceAs (Decidable (w.server.HeldBy env.sha (w.stores d) id))

theorem World.Has.step {w : World Proc Db} {id : String} {d : Db} (h : w.Has env d id)
    (l : Label Proc Db) : (Relay.step env db w l).Has env d id :=
  h.mono (server_extends env db w l) (stores_keep w l d)

/-! ## What a step does to the session -/

/-- Everything but a registration, a buffered page and an acknowledgement leaves
    the cursor and the buffered entries as they are, and loses no push result. -/
structure RelayInner.Quiet (server : Feed) (s s' : RelayInner) : Prop where
  cursor : s'.cursor = s.cursor
  pulled : s'.pulled = s.pulled
  results : ∀ x, s.BuffersResult x → s'.BuffersResult x
  catchUp : s'.catchUp = s.catchUp ∨ s'.catchUp = .idle ∨ s'.catchUp = .asked s.cursor
    ∨ ∃ c, s.catchUp = .asked c ∧ s'.catchUp = .answered (server.pullSince c)

theorem RelayInner.Quiet.refl (server : Feed) (s : RelayInner) : s.Quiet server s :=
  ⟨rfl, rfl, fun _ hx => hx, .inl rfl⟩

theorem RelayInner.quiet_answerCatchUp (s : RelayInner) (server : Feed) :
    s.Quiet server (s.answerCatchUp server) := by
  unfold RelayInner.answerCatchUp
  split
  case h_1 c hc => exact ⟨rfl, rfl, fun _ hx => hx, .inr (.inr (.inr ⟨c, hc, rfl⟩))⟩
  case h_2 => exact .refl server s

theorem RelayInner.quiet_takePush (server : Feed) (s : RelayInner) (k : Nat) (now : Int) :
    s.Quiet server (s.takePush k now) := by
  unfold RelayInner.takePush
  split
  case h_1 results _ =>
    obtain ⟨hcursor, hpulled, hcatch⟩ := s.finishPush_frame now results
    exact ⟨hcursor, hpulled, fun x => s.buffersResult_finishPush now results, .inl hcatch⟩
  case h_2 => exact .refl server s

theorem RelayInner.quiet_losePush (server : Feed) (s : RelayInner) (k : Nat) :
    s.Quiet server (s.losePush k) := by
  unfold RelayInner.losePush
  split
  · exact ⟨rfl, rfl, fun _ hx => hx, .inl rfl⟩
  · exact .refl server s

theorem RelayInner.quiet_beginCatchUp (server : Feed) (s : RelayInner) :
    s.Quiet server s.beginCatchUp := by
  obtain ⟨hcursor, hpulled, hresults, hcatch⟩ := s.beginCatchUp_frame
  exact ⟨hcursor, hpulled, fun _ => buffersResult_of_eq hresults,
    hcatch.imp_right fun h => .inr (.inl h)⟩

theorem RelayInner.quiet_frame (server : Feed) (s : RelayInner) (frameId : Option String)
    (sawData : Bool) : s.Quiet server (s.frame frameId sawData) := by
  obtain ⟨hcursor, hpulled, hresults, hcatch⟩ := s.frame_frame frameId sawData
  exact ⟨hcursor, hpulled, fun _ => buffersResult_of_eq hresults,
    hcatch.imp_right fun h => .inr (.inl h)⟩

theorem RelayInner.quiet_failCatchUp (server : Feed) (s : RelayInner) :
    s.Quiet server s.failCatchUp := ⟨rfl, rfl, fun _ hx => hx, .inr (.inl rfl)⟩

theorem RelayInner.takePage_of_not_answered (s : RelayInner) (now : Int)
    (h : ∀ page, s.catchUp ≠ .answered page) : s.takePage now = s := by
  unfold RelayInner.takePage
  split
  case h_1 page hpage => exact absurd hpage (h page)
  case h_2 => rfl

/-- Where the session after a step comes from. -/
theorem session_step {w : World Proc Db} {l : Label Proc Db} {s' : RelayInner}
    (hs' : s' ∈ (step env db w l).session) :
    (∃ s ∈ w.session, s.Quiet w.server s'
        ∧ ((step env db w l).server = w.server ∨ s'.catchUp = s.catchUp))
    ∨ (∃ p since entries, l = .register p ∧ w.clis p = .registering since entries
        ∧ s' = (w.session.getD .new).register since entries)
    ∨ (∃ now page, l = .catchUpFinish now ∧ ∃ s ∈ w.session, s.catchUp = .answered page
        ∧ s' = s.finishCatchUp now page)
    ∨ ∃ p pushIds pullIds, l = .ack p ∧ w.clis p = .applying [] [] pushIds pullIds
        ∧ ∃ s ∈ w.session, s' = s.ack pushIds pullIds := by
  -- most steps change neither buffer, or only add to one
  have hquiet {f : RelayInner → RelayInner} (hf : ∀ s : RelayInner, s.Quiet w.server (f s))
      (hserver : (step env db w l).server = w.server) (h : s' ∈ (w.onSession f).session) :
      ∃ s ∈ w.session, s.Quiet w.server s'
        ∧ ((step env db w l).server = w.server ∨ s'.catchUp = s.catchUp) := by
    obtain ⟨s, hs, rfl⟩ := Option.map_eq_some_iff.mp h
    exact ⟨s, hs, hf s, .inl hserver⟩
  have hsame (h : s' ∈ w.session) : ∃ s ∈ w.session, s.Quiet w.server s'
      ∧ ((step env db w l).server = w.server ∨ s'.catchUp = s.catchUp) :=
    ⟨s', h, .refl _ s', .inr rfl⟩
  cases l with
  | register p =>
    rw [step] at hs'
    unfold World.register at hs'
    split at hs'
    case h_1 since entries hcli =>
      exact .inr (.inl ⟨p, since, entries, rfl, hcli, (Option.some.inj hs').symm⟩)
    case h_2 => exact .inl (hsame hs')
  -- a page counts once it was answered; before that the step does nothing
  | catchUpFinish now =>
    obtain ⟨s, hs, rfl⟩ := Option.map_eq_some_iff.mp hs'
    cases hc : s.catchUp with
    | answered page =>
      refine .inr (.inr (.inl ⟨now, page, rfl, s, hs, hc, ?_⟩))
      simp only [RelayInner.takePage, hc]
    | idle =>
      rw [s.takePage_of_not_answered now (by simp [hc])]
      exact .inl ⟨s, hs, .refl _ s, .inr rfl⟩
    | asked c =>
      rw [s.takePage_of_not_answered now (by simp [hc])]
      exact .inl ⟨s, hs, .refl _ s, .inr rfl⟩
  | ack p =>
    rw [step] at hs'
    unfold World.ack at hs'
    split at hs'
    case h_1 pushIds pullIds hcli =>
      obtain ⟨s, hs, rfl⟩ := Option.map_eq_some_iff.mp hs'
      exact .inr (.inr (.inr ⟨p, pushIds, pullIds, rfl, hcli, s, hs, rfl⟩))
    case h_2 => exact .inl (hsame hs')
  | pushArrive k now minted =>
    rcases pushArrive_session w k now minted with h | ⟨s, pushes, hs, h⟩
    · rw [step, h] at hs'
      exact .inl (hsame hs')
    · rw [step, h] at hs'
      obtain rfl := Option.some.inj hs'
      exact .inl ⟨s, hs, ⟨rfl, rfl, fun _ hx => hx, .inl rfl⟩, .inr rfl⟩
  | pushLost k => exact .inl (hquiet (fun s => s.quiet_losePush w.server k) rfl hs')
  | pushFinish k now => exact .inl (hquiet (fun s => s.quiet_takePush w.server k now) rfl hs')
  | connect => exact .inl (hquiet (fun s => s.quiet_beginCatchUp w.server) rfl hs')
  | frame frameId sawData =>
    exact .inl (hquiet (fun s => s.quiet_frame w.server frameId sawData) rfl hs')
  | catchUpAnswer => exact .inl (hquiet (fun s => s.quiet_answerCatchUp w.server) rfl hs')
  | catchUpFail => exact .inl (hquiet (fun s => s.quiet_failCatchUp w.server) rfl hs')
  | prepare p => exact .inl (hsame (by rwa [step, (prepare_frame w p).2.1] at hs'))
  | poll p => exact .inl (hsame (by rwa [step, (poll_frame w p).2.1] at hs'))
  | applyPush p => exact .inl (hsame (by rwa [step, (applyPush_frame w p).2] at hs'))
  | applyPull p uuid => exact .inl (hsame (by rwa [step, (applyPull_frame w p uuid).2] at hs'))
  | retire => exact absurd hs' (by simp [step])
  | _ => exact .inl (hsame hs')

/-! ## What a step does to a process -/

/-- Where a process's work comes from: it had it before, it was just handed it, or
    it has just applied the next entry of it. -/
def CliFollows (env : StoreEnv) (w : World Proc Db) (s : Store) (c c' : Cli) : Prop :=
  (∀ e ∈ c'.pulls, e ∈ c.pulls ∨ ∃ s ∈ w.session, e ∈ s.pulled)
    ∧ ∀ id ∈ c'.ackedPullIds, id ∈ c.ackedPullIds
      ∨ ∃ e ∈ c.pulls, e.id = id ∧ s.Holds env.sha e

omit [DecidableEq Proc] [DecidableEq Db] in
theorem CliFollows.refl (env : StoreEnv) (w : World Proc Db) (s : Store) (c : Cli) :
    CliFollows env w s c c := ⟨fun _ he => .inl he, fun _ hid => .inl hid⟩

omit [DecidableEq Proc] [DecidableEq Db] in
theorem cliFollows_of_nil {w : World Proc Db} {s : Store} {c c' : Cli} (hpulls : c'.pulls = [])
    (hacked : c'.ackedPullIds = []) : CliFollows env w s c c' :=
  ⟨by simp [hpulls], by simp [hacked]⟩

omit [DecidableEq Db] in
theorem cliFollows_setCli {w w₁ : World Proc Db} {p p' : Proc} {s : Store} {c : Cli}
    (hclis : w₁.clis = w.clis) (h : p = p' → CliFollows env w s (w.clis p) c) :
    CliFollows env w s (w.clis p) ((w₁.setCli p' c).clis p) := by
  by_cases hp : p = p'
  · subst hp
    simpa [World.setCli] using h rfl
  · simpa [World.setCli, hp, hclis] using CliFollows.refl env w s (w.clis p)

theorem clis_step (env : StoreEnv) (db : Proc → Db) (w : World Proc Db) (l : Label Proc Db) (p : Proc) :
    CliFollows env w ((step env db w l).stores (db p)) (w.clis p) ((step env db w l).clis p) := by
  have hrefl (s : Store) := CliFollows.refl env w s (w.clis p)
  cases l with
  | prepare p' =>
    simp only [step]
    unfold World.prepare
    split
    · exact cliFollows_setCli rfl fun _ => cliFollows_of_nil rfl rfl
    · exact hrefl _
  | register p' =>
    simp only [step]
    unfold World.register
    split
    · exact cliFollows_setCli rfl fun _ => cliFollows_of_nil rfl rfl
    · exact hrefl _
  | poll p' =>
    simp only [step]
    unfold World.poll
    split
    case h_1 =>
      refine cliFollows_setCli rfl fun _ => ⟨fun e he => .inr ?_, by simp [Cli.ackedPullIds]⟩
      cases hs : w.session with
      | none => simp [Cli.pulls, hs] at he
      | some s => exact ⟨s, rfl, by simpa [Cli.pulls, hs, RelayInner.poll] using he⟩
    case h_2 => exact hrefl _
  | applyPush p' =>
    simp only [step]
    unfold World.applyPush
    split
    case h_1 r pushes pulls pushIds pullIds hcli =>
      -- the pulled entries and what was applied of them stay as they are
      have hsame (c : Cli) (hpulls : c.pulls = pulls) (hacked : c.ackedPullIds = pullIds)
          (s : Store) : CliFollows env w s (w.clis p') c := by
        refine ⟨fun e he => .inl ?_, fun id hid => .inl ?_⟩
        · rw [hpulls] at he
          rwa [hcli]
        · rw [hacked] at hid
          rwa [hcli]
      split <;>
      · refine cliFollows_setCli rfl fun hp => ?_
        rw [hp]
        exact hsame _ rfl rfl _
    case h_2 => exact hrefl _
  | applyPull p' uuid =>
    simp only [step]
    unfold World.applyPull
    split
    case h_1 e pulls pushIds pullIds hcli =>
      split
      case h_1 inserted s hs =>
        refine cliFollows_setCli rfl fun hp => ?_
        subst hp
        refine ⟨fun e' he' => .inl ?_, fun id hid => ?_⟩
        · rw [hcli]
          exact List.mem_cons_of_mem _ he'
        · rcases List.mem_append.mp hid with hold | hnew
          · exact .inl (by rw [hcli]; exact hold)
          · refine .inr ⟨e, by simp [hcli, Cli.pulls], (List.mem_singleton.mp hnew).symm, ?_⟩
            have hheld := Store.holds_applyRemoteNote hs
            simpa [World.setCli, World.setStore] using hheld
      case h_2 =>
        refine cliFollows_setCli rfl fun hp => ?_
        subst hp
        refine ⟨fun e' he' => .inl ?_, fun id hid => .inl (by rw [hcli]; exact hid)⟩
        rw [hcli]
        exact List.mem_cons_of_mem _ he'
    case h_2 => exact hrefl _
  | ack p' =>
    simp only [step]
    unfold World.ack
    split
    · exact cliFollows_setCli rfl fun _ => cliFollows_of_nil rfl rfl
    · exact hrefl _
  | pushArrive k now minted =>
    simp only [step, (pushArrive_frame w k now minted).2]
    exact hrefl _
  | abandon p' => exact cliFollows_setCli rfl fun _ => cliFollows_of_nil rfl rfl
  | _ => exact hrefl _

end Step

end Relay
end Inkentry
