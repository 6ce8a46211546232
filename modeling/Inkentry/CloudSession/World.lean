/-
  Inkentry.CloudSession.World

  The holders of one cloud session in one process: any number of renewable
  `Bearer`s, each with a token under its own lock, any number of
  `ServerInferenceClient`s, each with a snapshot of the session it was built
  with, and the secret store they all read and write back to.

  A request runs through its stages one step at a time, and the steps of all
  requests interleave: each read of the store, each call to the token endpoint,
  each write back is a step of its own.  A write-back reads the cache and
  replaces the organization's slot; as nothing but write-backs of the one
  session touches the cache here, it is one step.

  The token endpoint and the clock are not code of the repository.  The endpoint
  takes every refresh token it minted once and answers with the next session of
  the same organization; clock readings are in the labels.
-/

import Mathlib.Logic.Function.Basic
import Inkentry.OrgTokens

namespace Inkentry
namespace CloudSession

open OrgTokens

/-! ## What is outside -/

/-- The sessions the token endpoint mints, the login's first: no token twice, all of
    one organization and all for one origin. -/
structure TokenEndpoint where
  session : Nat → AuthTokens
  accessToken_inj : ∀ i j, (session i).accessToken = (session j).accessToken → i = j
  refreshToken_inj : ∀ i j, (session i).refreshToken = (session j).refreshToken → i = j
  accessToken_ne : ∀ i, (session i).accessToken ≠ ""
  org : String
  orgId_eq : ∀ i, (session i).orgId = org
  origin : String
  cloudOrigin_eq : ∀ i, (session i).cloudOrigin = origin

/-- Thirty seconds early. -/
def isExpiredAt (tokens : AuthTokens) (now : Int) : Bool := tokens.expiresAt - 30 ≤ now

def toAuthTokens (orgId : String) (session : OrgSession) : AuthTokens where
  accessToken := session.accessToken
  refreshToken := session.refreshToken
  expiresAt := session.expiresAt
  orgId := orgId
  cloudOrigin := session.cloudOrigin

/-- The session of the organization an invocation resolves to. -/
def resolveSession (orgId : String) (cache : Cache) : Option AuthTokens :=
  (cache.orgs.get orgId).map (toAuthTokens orgId)

theorem resolveSession_updateInPlace {orgId : String} {tokens : AuthTokens}
    (h : tokens.orgId = orgId) (cache : Cache) :
    resolveSession orgId (updateInPlace tokens cache) = some tokens := by
  subst h
  rw [resolveSession, updateInPlace, SortedMap.get_insert_self]
  rfl

/-- The credential for the server: the access token if the session was issued for its
    origin.  No key of its own is stored for that origin. -/
def bearerFor (origin : String) (session : Option AuthTokens) : Option String :=
  session.bind fun a =>
    if a.cloudOrigin = origin ∧ a.accessToken ≠ "" then some a.accessToken else none

/-- The session behind a credential. -/
def cloudSessionBehind (session : Option AuthTokens) (resolved : Option String) :
    Option AuthTokens :=
  session.filter fun a => some a.accessToken = resolved

/-! ## Requests -/

/-- The two attempts of a request. -/
inductive Attempt where
  | first
  | second
  deriving DecidableEq

/-- Why a session is refreshed: it has expired before an attempt, or a token of it was
    answered with 401. -/
inductive Cause where
  | expired (attempt : Attempt)
  | rejected (sent : Option String)
  deriving DecidableEq

/-- The attempt that follows a refresh. -/
def Cause.attempt : Cause → Attempt
  | .expired attempt => attempt
  | .rejected _ => .second

inductive Outcome where
  | ok
  /-- 401, returned to the caller. -/
  | unauthorized
  /-- The refresh token was refused; the user is sent to `inkentry login`. -/
  | loginNeeded
  deriving DecidableEq

/-- Where a request stands. -/
inductive Stage where
  | idle
  /-- An inference client's, before its expiry check. -/
  | starting
  /-- An inference client's, after a check that found the session expired. -/
  | expired
  /-- About to take the holder's token for an attempt. -/
  | ready (attempt : Attempt)
  /-- Holds the `Bearer`'s lock, has resolved the credential, is to read the session. -/
  | priming (attempt : Attempt) (resolved : Option String)
  | sending (attempt : Attempt) (sent : Option String)
  /-- The first attempt was answered with 401. -/
  | rejected (sent : Option String)
  /-- Holds the `Bearer`'s lock, has resolved the credential again. -/
  | renewing (sent : String) (resolved : Option String)
  /-- The refresh token of `auth` is on its way to the endpoint. -/
  | refreshing (cause : Cause) (auth : AuthTokens)
  /-- The endpoint has answered, the session is to be written back. -/
  | persisting (cause : Cause) (fresh : AuthTokens)
  /-- Written back; the holder is to take it over. -/
  | adopting (cause : Cause) (fresh : AuthTokens)
  | done (outcome : Outcome)
  deriving DecidableEq

/-- Whose token a request sends. -/
inductive Holder (β γ : Type) where
  | bearer (b : β)
  | client (c : γ)
  deriving DecidableEq

structure Request (β γ : Type) where
  holder : Holder β γ
  stage : Stage
  /-- How often it was sent. -/
  attempts : Nat
  /-- Begun after some rotation had been completed. -/
  later : Bool

structure BearerState (ρ : Type) where
  token : Option String
  primed : Bool
  /-- The request that holds the lock. -/
  lock : Option ρ

inductive ClientState where
  | absent
  /-- The credential is resolved, the session is to be read. -/
  | building (bearer : Option String)
  /-- `refresh` is the snapshot the client renews from, if its credential is of a session. -/
  | built (bearer : Option String) (refresh : Option AuthTokens)

structure World (β γ ρ : Type) where
  cache : Cache
  /-- How many refresh tokens the endpoint has accepted. -/
  minted : Nat
  /-- The refresh tokens the endpoint was sent, in order. -/
  received : List String
  /-- The access tokens the server no longer accepts. -/
  dead : List String
  bearers : β → BearerState ρ
  clients : γ → ClientState
  requests : ρ → Request β γ
  /-- How many rotations were completed. -/
  rotations : Nat

section Steps

variable {β γ ρ : Type} [DecidableEq β] [DecidableEq γ] [DecidableEq ρ]
variable (e : TokenEndpoint)

/-- After a login: the session is stored, nothing was opened or sent. -/
def World.start (cache : Cache) (holders : ρ → Holder β γ) : World β γ ρ where
  cache := updateInPlace (e.session 0) cache
  minted := 0
  received := []
  dead := []
  bearers _ := ⟨none, false, none⟩
  clients _ := .absent
  requests r := ⟨holders r, .idle, 0, false⟩
  rotations := 0

def World.session (w : World β γ ρ) : Option AuthTokens := resolveSession e.org w.cache

/-- An access token that was minted; the login's counts. -/
def World.Minted (w : World β γ ρ) (t : String) : Prop :=
  ∃ k ∈ List.range (w.minted + 1), (e.session k).accessToken = t

instance (w : World β γ ρ) (t : String) : Decidable (w.Minted e t) :=
  inferInstanceAs (Decidable (∃ k ∈ List.range (w.minted + 1), (e.session k).accessToken = t))

/-- An access token the server accepts. -/
def World.Alive (w : World β γ ρ) (t : String) : Prop := w.Minted e t ∧ t ∉ w.dead

instance (w : World β γ ρ) (t : String) : Decidable (w.Alive e t) :=
  inferInstanceAs (Decidable (w.Minted e t ∧ t ∉ w.dead))

def World.stage (w : World β γ ρ) (r : ρ) : Stage := (w.requests r).stage

def World.goto (w : World β γ ρ) (r : ρ) (stage : Stage) : World β γ ρ :=
  { w with requests := Function.update w.requests r { w.requests r with stage } }

/-- Sends a request with a token. -/
def World.transmit (w : World β γ ρ) (r : ρ) (attempt : Attempt) (sent : Option String) :
    World β γ ρ :=
  { w with
    requests := Function.update w.requests r
      { w.requests r with
        stage := .sending attempt sent
        attempts := (w.requests r).attempts + 1 } }

def World.setBearer (w : World β γ ρ) (b : β) (s : BearerState ρ) : World β γ ρ :=
  { w with bearers := Function.update w.bearers b s }

def World.setClient (w : World β γ ρ) (c : γ) (s : ClientState) : World β γ ρ :=
  { w with clients := Function.update w.clients c s }

/-- Releases the lock a request of a `Bearer` holds. -/
def World.release (w : World β γ ρ) (r : ρ) : World β γ ρ :=
  match (w.requests r).holder with
  | .bearer b => w.setBearer b { w.bearers b with lock := none }
  | .client _ => w

/-! ## Steps of a request -/

/-- A new inference client resolves its credential, and then reads the session behind it. -/
def World.build (w : World β γ ρ) (c : γ) : World β γ ρ :=
  match w.clients c with
  | .absent => w.setClient c (.building (bearerFor e.origin (w.session e)))
  | .building bearer => w.setClient c (.built bearer (cloudSessionBehind (w.session e) bearer))
  | .built _ _ => w

/-- The stage a request begins in; a client has to be built first. -/
def World.opening (w : World β γ ρ) (r : ρ) : Stage :=
  match (w.requests r).holder with
  | .bearer _ => .ready .first
  | .client c =>
    match w.clients c with
    | .built _ _ => .starting
    | _ => .idle

def World.begin (w : World β γ ρ) (r : ρ) : World β γ ρ :=
  if w.stage r = .idle then
    { w with
      requests := Function.update w.requests r
        { w.requests r with stage := w.opening r, later := decide (0 < w.rotations) } }
  else w

/-- `access_token_expired`. -/
def World.checkExpiry (w : World β γ ρ) (r : ρ) (now : Int) : World β γ ρ :=
  match (w.requests r).holder, w.stage r with
  | .client c, .starting =>
    match w.clients c with
    | .built _ refresh =>
      if refresh.any (isExpiredAt · now) then w.goto r .expired else w.goto r (.ready .first)
    | _ => w
  | _, _ => w

/-- Takes the holder's token and sends the request; an unprimed `Bearer` first asks
    for the current credential, under its lock. -/
def World.take (w : World β γ ρ) (r : ρ) : World β γ ρ :=
  match (w.requests r).holder, w.stage r with
  | .bearer b, .ready attempt =>
    if (w.bearers b).lock ≠ none then w
    else if (w.bearers b).primed then w.transmit r attempt (w.bearers b).token
    else
      (w.setBearer b { w.bearers b with lock := some r }).goto r
        (.priming attempt (bearerFor e.origin (w.session e)))
  | .client c, .ready attempt =>
    match w.clients c with
    | .built bearer _ => w.transmit r attempt bearer
    | _ => w
  | _, _ => w

/-- The second read of `ensure_fresh_server_key` and `replace_rejected_server_key`, and
    what follows from it. -/
def World.readSession (w : World β γ ρ) (r : ρ) (now : Int) : World β γ ρ :=
  match (w.requests r).holder, w.stage r with
  | .bearer b, .priming attempt resolved =>
    match (cloudSessionBehind (w.session e) resolved).filter (isExpiredAt · now) with
    | some auth => w.goto r (.refreshing (.expired attempt) auth)
    | none => (w.setBearer b ⟨resolved, true, none⟩).transmit r attempt resolved
  | .bearer b, .renewing sent resolved =>
    match cloudSessionBehind (w.session e) resolved with
    | none => (w.release r).goto r (.done .unauthorized)
    | some auth =>
      if auth.accessToken ≠ sent then
        (w.setBearer b ⟨some auth.accessToken, (w.bearers b).primed, none⟩).goto r (.ready .second)
      else w.goto r (.refreshing (.rejected (some sent)) auth)
  | _, _ => w

/-- The endpoint gets a refresh token; it accepts each one once. -/
def World.receive (w : World β γ ρ) (r : ρ) : World β γ ρ :=
  match w.stage r with
  | .refreshing cause auth =>
    let w' := { w with received := w.received ++ [auth.refreshToken] }
    if auth.refreshToken ∈ w.received then (w'.release r).goto r (.done .loginNeeded)
    else
      { w' with minted := w.minted + 1 }.goto r (.persisting cause
        { e.session (w.minted + 1) with cloudOrigin := auth.cloudOrigin })
  | _ => w

/-- The write-back. -/
def World.persist (w : World β γ ρ) (r : ρ) : World β γ ρ :=
  match w.stage r with
  | .persisting cause fresh =>
    { w with cache := updateInPlace fresh w.cache }.goto r (.adopting cause fresh)
  | _ => w

/-- The holder takes the new session over. -/
def World.adopt (w : World β γ ρ) (r : ρ) : World β γ ρ :=
  match (w.requests r).holder, w.stage r with
  | .bearer b, .adopting (.expired attempt) fresh =>
    { w with rotations := w.rotations + 1 }.setBearer b ⟨some fresh.accessToken, true, none⟩
      |>.transmit r attempt (some fresh.accessToken)
  | .bearer b, .adopting (.rejected sent) fresh =>
    if some fresh.accessToken = sent then
      ({ w with rotations := w.rotations + 1 }.release r).goto r (.done .unauthorized)
    else
      { w with rotations := w.rotations + 1 }.setBearer b
          ⟨some fresh.accessToken, (w.bearers b).primed, none⟩
        |>.goto r (.ready .second)
  | .client c, .adopting cause fresh =>
    { w with rotations := w.rotations + 1 }.setClient c (.built (some fresh.accessToken) (some fresh))
      |>.goto r (.ready cause.attempt)
  | _, _ => w

/-- The server's answer to an attempt. -/
def World.answer (w : World β γ ρ) (r : ρ) : World β γ ρ :=
  match w.stage r with
  | .sending attempt sent =>
    if ∃ t ∈ sent, w.Alive e t then w.goto r (.done .ok)
    else
      match attempt with
      | .first => w.goto r (.rejected sent)
      | .second => w.goto r (.done .unauthorized)
  | _ => w

/-- `renew_after_rejection` of a `Bearer`; `refresh_access_token` of a client, which reads
    its snapshot, after a 401 or for an expired session. -/
def World.renew (w : World β γ ρ) (r : ρ) : World β γ ρ :=
  match (w.requests r).holder, w.stage r with
  | .bearer b, .rejected sent =>
    match sent with
    | none => w.goto r (.done .unauthorized)
    | some sent =>
      if (w.bearers b).lock ≠ none then w
      else if (w.bearers b).token ≠ some sent then
        -- a concurrent request already rotated it
        if (w.bearers b).token.isSome then w.goto r (.ready .second)
        else w.goto r (.done .unauthorized)
      else
        (w.setBearer b { w.bearers b with lock := some r }).goto r
          (.renewing sent (bearerFor e.origin (w.session e)))
  | .client c, .rejected sent =>
    match w.clients c with
    | .built _ (some tokens) => w.goto r (.refreshing (.rejected sent) tokens)
    -- the credential is not a session's
    | .built _ none => w.goto r (.done .unauthorized)
    | _ => w
  | .client c, .expired =>
    match w.clients c with
    | .built _ (some tokens) => w.goto r (.refreshing (.expired .first) tokens)
    | .built _ none => w.goto r (.ready .first)
    | _ => w
  | _, _ => w

/-- The server stops accepting an access token. -/
def World.expire (w : World β γ ρ) (t : String) : World β γ ρ :=
  if w.Minted e t then { w with dead := t :: w.dead } else w

/-! ## Runs -/

inductive Label (γ ρ : Type) where
  | build (c : γ)
  | begin (r : ρ)
  | checkExpiry (r : ρ) (now : Int)
  | take (r : ρ)
  | readSession (r : ρ) (now : Int)
  | receive (r : ρ)
  | persist (r : ρ)
  | adopt (r : ρ)
  | answer (r : ρ)
  | renew (r : ρ)
  | expire (t : String)

def step (w : World β γ ρ) : Label γ ρ → World β γ ρ
  | .build c => w.build e c
  | .begin r => w.begin r
  | .checkExpiry r now => w.checkExpiry r now
  | .take r => w.take e r
  | .readSession r now => w.readSession e r now
  | .receive r => w.receive e r
  | .persist r => w.persist r
  | .adopt r => w.adopt r
  | .answer r => w.answer e r
  | .renew r => w.renew e r
  | .expire t => w.expire e t

end Steps

end CloudSession
end Inkentry
