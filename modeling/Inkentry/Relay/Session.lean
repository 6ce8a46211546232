/-
  Inkentry.Relay.Session

  One relay session: what the resident process buffers for the local stores of
  one (team server, project) pair.  It drains the entries they push and catches
  up on the server's feed behind a cursor of its own; `poll` hands out what is
  buffered and `ack` retires it.

  A catch-up spans three moments (the cursor is read, the server answers, the
  page is buffered) and a push three (it is spawned, the server answers, the
  results are buffered), so both leave what they have so far in the session.
-/

import Inkentry.Lib.Cursor
import Inkentry.Server.Feed

namespace Inkentry
namespace Relay

open Server Memory

/-! ## Wire types -/

/-- One entry offered for relay to the team server. -/
structure RelayPushEntry where
  kind : String
  title : String
  body : Option String
  externalId : String
  sourceCommit : Option String
  deriving DecidableEq

/-- A relayed push never restores identity. -/
def RelayPushEntry.toItem (e : RelayPushEntry) : BatchPushItem where
  id := none
  kind := e.kind
  title := e.title
  body := e.body
  externalId := e.externalId
  sourceCommit := e.sourceCommit

/-- The outcome of a relayed push the server accepted or already had. -/
structure RelayPushResult where
  externalId : String
  remoteId : Option String
  status : String
  deriving DecidableEq, Repr

/-- What a poll returns; pulled entries keep the fields of the delta pull. -/
structure RelayPollResponse where
  pushResults : List RelayPushResult
  pulled : List RemoteEntry
  lastSyncedAt : Option Int
  lastError : Option String

/-! ## State -/

def maxBufferedItemsPerSession : Nat := 10000

def remoteHopFailed : String :=
  "sync with the configured team server failed; see `inkentry server logs` for details"

def pushBufferFull : String :=
  "local relay push-result buffer is full (" ++ toString maxBufferedItemsPerSession
    ++ " unconfirmed rows); waiting for the CLI to poll and confirm before buffering more"

def pullBufferFull : String :=
  "local relay pulled-entry buffer is full (" ++ toString maxBufferedItemsPerSession
    ++ " unconfirmed rows); waiting for the CLI to poll and confirm before fetching further"

/-- How far a catch-up has got. -/
inductive CatchUp where
  | idle
  | asked (cursor : Option String)
  | answered (page : List RemoteEntry)

/-- How far a spawned push has got; no results when the request failed. -/
inductive PushTask where
  | spawned (entries : List RelayPushEntry)
  | answered (results : Option (List BatchItemResult))

/-- The session.  Both buffers are keyed: results by external id, pulled
    entries by remote id. -/
structure RelayInner where
  cursor : Option String
  lastEventId : Option String
  pushResults : List RelayPushResult
  pulled : List RemoteEntry
  lastSyncedAt : Option Int
  lastError : Option String
  catchUp : CatchUp
  pushes : List PushTask

def RelayInner.new : RelayInner := ⟨none, none, [], [], none, none, .idle, []⟩

/-- A pulled entry with an id is buffered. -/
def RelayInner.Buffers (s : RelayInner) (id : String) : Prop := id ∈ s.pulled.map RemoteEntry.id

instance (s : RelayInner) (id : String) : Decidable (s.Buffers id) :=
  inferInstanceAs (Decidable (id ∈ s.pulled.map RemoteEntry.id))

/-- A push result for an external id is buffered. -/
def RelayInner.BuffersResult (s : RelayInner) (externalId : String) : Prop :=
  externalId ∈ s.pushResults.map RelayPushResult.externalId

instance (s : RelayInner) (externalId : String) : Decidable (s.BuffersResult externalId) :=
  inferInstanceAs (Decidable (externalId ∈ s.pushResults.map RelayPushResult.externalId))

/-! ## Requests -/

/-- Seeds the cursor from the one a registration carries, unless the session's
    own is further on. -/
def RelayInner.seedCursor (s : RelayInner) (sinceCursor : Option String) : RelayInner :=
  match sinceCursor with
  | none => s
  | some c => if s.cursor.getD "" < c then { s with cursor := some c } else s

/-- A push request: the cursor is seeded and the entries go to a task of their own. -/
def RelayInner.register (s : RelayInner) (sinceCursor : Option String)
    (entries : List RelayPushEntry) : RelayInner :=
  let s := s.seedCursor sinceCursor
  if entries.isEmpty then s else { s with pushes := s.pushes ++ [.spawned entries] }

/-- A snapshot; nothing leaves the buffers. -/
def RelayInner.poll (s : RelayInner) : RelayPollResponse :=
  ⟨s.pushResults, s.pulled, s.lastSyncedAt, s.lastError⟩

/-- Retires what was confirmed. -/
def RelayInner.ack (s : RelayInner) (appliedPushExternalIds appliedPullRemoteIds : List String) :
    RelayInner :=
  { s with
    pushResults := s.pushResults.filter fun r => r.externalId ∉ appliedPushExternalIds
    pulled := s.pulled.filter fun e => e.id ∉ appliedPullRemoteIds }

/-! ## Results of a push -/

/-- Buffers one result; whether there was no room for it.  A result that was not
    stored durably is dropped, and a known remote id is never forgotten. -/
def RelayInner.bufferResult (s : RelayInner) (r : BatchItemResult) : Bool × RelayInner :=
  if r.status = "created" ∨ r.status = "skipped" then
    let result : RelayPushResult := ⟨r.externalId, r.id, r.status⟩
    match s.pushResults.find? fun o => o.externalId = r.externalId with
    | some o =>
      if r.id.isSome ∨ o.remoteId.isNone then
        (false, { s with pushResults := s.pushResults.map fun o =>
          if o.externalId = r.externalId then result else o })
      else (false, s)
    | none =>
      if maxBufferedItemsPerSession ≤ s.pushResults.length then (true, s)
      else (false, { s with pushResults := s.pushResults ++ [result] })
  else (false, s)

/-- Buffers the results in order; whether any found no room. -/
def RelayInner.bufferResults (s : RelayInner) : List BatchItemResult → Bool × RelayInner
  | [] => (false, s)
  | r :: rs =>
    let (full, s') := s.bufferResult r
    let (full', s'') := s'.bufferResults rs
    (full || full', s'')

/-- The end of a push task. -/
def RelayInner.finishPush (s : RelayInner) (now : Int) (results : Option (List BatchItemResult)) :
    RelayInner :=
  match results with
  | none => { s with lastError := some remoteHopFailed }
  | some rs =>
    let (full, s') := s.bufferResults rs
    { s' with
      lastSyncedAt := some now
      lastError := if full then some pushBufferFull else none }

/-! ## Catching up -/

/-- A catch-up reads the cursor it will ask with. -/
def RelayInner.beginCatchUp (s : RelayInner) : RelayInner :=
  match s.catchUp with
  | .idle => { s with catchUp := .asked s.cursor }
  | _ => s

/-- A stream frame: its id is kept for reconnecting, and data on it starts a
    catch-up.  The payload itself is never looked at. -/
def RelayInner.frame (s : RelayInner) (frameId : Option String) (sawData : Bool) : RelayInner :=
  match s.catchUp with
  | .idle =>
    let s := { s with lastEventId := frameId.or s.lastEventId }
    if sawData then s.beginCatchUp else s
  | _ => s

/-- Buffers a page in order, moving the cursor past each entry that is in the
    buffer then; whether the rest found no room. -/
def RelayInner.bufferPage (s : RelayInner) : List RemoteEntry → Bool × RelayInner
  | [] => (false, s)
  | e :: page =>
    if s.Buffers e.id then
      { s with cursor := Cursor.advance s.cursor e.id }.bufferPage page
    else if maxBufferedItemsPerSession ≤ s.pulled.length then (true, s)
    else
      { s with
        pulled := s.pulled ++ [e]
        cursor := Cursor.advance s.cursor e.id }.bufferPage page

/-- The end of a catch-up.  An empty page changes nothing, the times included. -/
def RelayInner.finishCatchUp (s : RelayInner) (now : Int) (page : List RemoteEntry) : RelayInner :=
  if page.isEmpty then { s with catchUp := .idle }
  else
    let (full, s') := s.bufferPage page
    { s' with
      catchUp := .idle
      lastSyncedAt := some now
      lastError := if full then some pullBufferFull else none }

/-- A catch-up whose request failed. -/
def RelayInner.failCatchUp (s : RelayInner) : RelayInner :=
  { s with catchUp := .idle, lastError := some remoteHopFailed }

/-! ## What each operation leaves alone -/

variable {x : String}

theorem RelayInner.seedCursor_cases (s : RelayInner) (since : Option String) :
    s.seedCursor since = s
      ∨ ∃ c, since = some c ∧ s.cursor.getD "" < c
          ∧ s.seedCursor since = { s with cursor := some c } := by
  cases since with
  | none => exact .inl rfl
  | some c =>
    by_cases hlt : s.cursor.getD "" < c
    · exact .inr ⟨c, rfl, hlt, if_pos hlt⟩
    · exact .inl (if_neg hlt)

@[simp] theorem RelayInner.seedCursor_pulled (s : RelayInner) (since : Option String) :
    (s.seedCursor since).pulled = s.pulled := by
  rcases s.seedCursor_cases since with h | ⟨c, -, -, h⟩ <;> rw [h]

@[simp] theorem RelayInner.seedCursor_pushResults (s : RelayInner) (since : Option String) :
    (s.seedCursor since).pushResults = s.pushResults := by
  rcases s.seedCursor_cases since with h | ⟨c, -, -, h⟩ <;> rw [h]

@[simp] theorem RelayInner.seedCursor_catchUp (s : RelayInner) (since : Option String) :
    (s.seedCursor since).catchUp = s.catchUp := by
  rcases s.seedCursor_cases since with h | ⟨c, -, -, h⟩ <;> rw [h]

theorem RelayInner.register_cursor (s : RelayInner) (since : Option String)
    (entries : List RelayPushEntry) :
    (s.register since entries).cursor = (s.seedCursor since).cursor := by
  unfold RelayInner.register
  split <;> rfl

@[simp] theorem RelayInner.register_pulled (s : RelayInner) (since : Option String)
    (entries : List RelayPushEntry) : (s.register since entries).pulled = s.pulled := by
  unfold RelayInner.register
  split <;> simp

@[simp] theorem RelayInner.register_pushResults (s : RelayInner) (since : Option String)
    (entries : List RelayPushEntry) : (s.register since entries).pushResults = s.pushResults := by
  unfold RelayInner.register
  split <;> simp

@[simp] theorem RelayInner.register_catchUp (s : RelayInner) (since : Option String)
    (entries : List RelayPushEntry) : (s.register since entries).catchUp = s.catchUp := by
  unfold RelayInner.register
  split <;> simp

theorem RelayInner.bufferResult_frame (s : RelayInner) (r : BatchItemResult) :
    ∃ results, (s.bufferResult r).2 = { s with pushResults := results } := by
  unfold RelayInner.bufferResult
  split
  · split
    · split <;> exact ⟨_, rfl⟩
    · split <;> exact ⟨_, rfl⟩
  · exact ⟨_, rfl⟩

theorem RelayInner.bufferResults_frame (s : RelayInner) (rs : List BatchItemResult) :
    ∃ results, (s.bufferResults rs).2 = { s with pushResults := results } := by
  induction rs generalizing s with
  | nil => exact ⟨_, rfl⟩
  | cons r rs ih =>
    obtain ⟨results, hr⟩ := s.bufferResult_frame r
    show ∃ results, ((s.bufferResult r).2.bufferResults rs).2 = { s with pushResults := results }
    rw [hr]
    exact ih { s with pushResults := results }

theorem buffersResult_of_eq {s s' : RelayInner} (h : s'.pushResults = s.pushResults)
    (hx : s.BuffersResult x) : s'.BuffersResult x := by
  rwa [RelayInner.BuffersResult, h]

theorem RelayInner.buffersResult_bufferResult (s : RelayInner) (r : BatchItemResult)
    (hx : s.BuffersResult x) : (s.bufferResult r).2.BuffersResult x := by
  obtain ⟨o, ho, rfl⟩ := List.mem_map.mp hx
  unfold RelayInner.bufferResult
  split
  · split
    · split
      · refine List.mem_map.mpr ⟨_, List.mem_map_of_mem ho, ?_⟩
        by_cases hid : o.externalId = r.externalId <;> simp [hid]
      · exact hx
    · split
      · exact hx
      · exact List.mem_map_of_mem (List.mem_append_left _ ho)
  · exact hx

theorem RelayInner.buffersResult_bufferResults (s : RelayInner) (rs : List BatchItemResult)
    (hx : s.BuffersResult x) : (s.bufferResults rs).2.BuffersResult x := by
  induction rs generalizing s with
  | nil => exact hx
  | cons r rs ih => exact ih (s.bufferResult r).2 (s.buffersResult_bufferResult r hx)

theorem RelayInner.buffersResult_finishPush (s : RelayInner) (now : Int)
    (results : Option (List BatchItemResult)) (hx : s.BuffersResult x) :
    (s.finishPush now results).BuffersResult x := by
  cases results with
  | none => exact hx
  | some rs => exact s.buffersResult_bufferResults rs hx

theorem RelayInner.bufferPage_pushResults (s : RelayInner) (page : List RemoteEntry) :
    (s.bufferPage page).2.pushResults = s.pushResults := by
  induction page generalizing s with
  | nil => rfl
  | cons e page ih =>
    rw [RelayInner.bufferPage]
    split
    · exact ih _
    · split
      · rfl
      · exact ih _

theorem RelayInner.finishCatchUp_pushResults (s : RelayInner) (now : Int)
    (page : List RemoteEntry) : (s.finishCatchUp now page).pushResults = s.pushResults := by
  unfold RelayInner.finishCatchUp
  split
  · rfl
  · exact s.bufferPage_pushResults page

theorem RelayInner.buffers_bufferPage (s : RelayInner) (page : List RemoteEntry)
    (hx : s.Buffers x) : (s.bufferPage page).2.Buffers x := by
  induction page generalizing s with
  | nil => exact hx
  | cons e page ih =>
    rw [RelayInner.bufferPage]
    split
    · exact ih _ hx
    · split
      · exact hx
      · refine ih _ ?_
        rw [RelayInner.Buffers, List.map_append]
        exact List.mem_append_left _ hx

theorem RelayInner.buffers_finishCatchUp (s : RelayInner) (now : Int) (page : List RemoteEntry)
    (hx : s.Buffers x) : (s.finishCatchUp now page).Buffers x := by
  unfold RelayInner.finishCatchUp
  split
  · exact hx
  · exact s.buffers_bufferPage page hx

theorem RelayInner.finishPush_frame (s : RelayInner) (now : Int)
    (results : Option (List BatchItemResult)) :
    (s.finishPush now results).cursor = s.cursor ∧ (s.finishPush now results).pulled = s.pulled
      ∧ (s.finishPush now results).catchUp = s.catchUp := by
  cases results with
  | none => exact ⟨rfl, rfl, rfl⟩
  | some rs =>
    show (s.bufferResults rs).2.cursor = _ ∧ (s.bufferResults rs).2.pulled = _
      ∧ (s.bufferResults rs).2.catchUp = _
    obtain ⟨results, hrs⟩ := s.bufferResults_frame rs
    rw [hrs]
    exact ⟨rfl, rfl, rfl⟩

/-- Starting a catch-up touches neither the cursor nor the buffers. -/
theorem RelayInner.frame_frame (s : RelayInner) (frameId : Option String) (sawData : Bool) :
    (s.frame frameId sawData).cursor = s.cursor ∧ (s.frame frameId sawData).pulled = s.pulled
      ∧ (s.frame frameId sawData).pushResults = s.pushResults
      ∧ ((s.frame frameId sawData).catchUp = s.catchUp
        ∨ (s.frame frameId sawData).catchUp = .asked s.cursor) := by
  unfold RelayInner.frame
  cases hc : s.catchUp with
  | idle =>
    cases sawData with
    | false => simp [hc]
    | true => simp [RelayInner.beginCatchUp, hc]
  | asked cursor => simp [hc]
  | answered page => simp [hc]

theorem RelayInner.beginCatchUp_frame (s : RelayInner) :
    s.beginCatchUp.cursor = s.cursor ∧ s.beginCatchUp.pulled = s.pulled
      ∧ s.beginCatchUp.pushResults = s.pushResults
      ∧ (s.beginCatchUp.catchUp = s.catchUp ∨ s.beginCatchUp.catchUp = .asked s.cursor) := by
  unfold RelayInner.beginCatchUp
  cases hc : s.catchUp <;> simp [hc]

end Relay
end Inkentry
