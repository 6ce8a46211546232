/-
  Inkentry.CloudSession.Renewal

  What becomes of requests.  No request is sent more than twice, whatever the
  interleaving.  That it is not sent home with a 401 or a call to log in again
  takes more than single use: a `Bearer` that renews its token may take over a
  session it finds in the store, or a token another request left, without asking
  whether it still lives, and the two reads it makes of the store may find two
  sessions.

  `Calm` is what holds while none of this happens: per request, what its stage
  promises of its holder's token and lock.
-/

import Inkentry.CloudSession.SingleUse

set_option linter.unusedSectionVars false

namespace Inkentry
namespace CloudSession

open OrgTokens Runs

section Requests

variable {β γ ρ : Type} [DecidableEq β] [DecidableEq γ] [DecidableEq ρ] {e : TokenEndpoint}

/-! ## At most twice -/

variable {w : World β γ ρ}
variable {r : ρ}
variable {s : Stage}

def Attempt.before : Attempt → Nat
  | .first => 0
  | .second => 1

/-- How often a request has been sent at a stage, at most. -/
def Stage.sent : Stage → Nat
  | .idle | .starting | .expired => 0
  | .ready attempt | .priming attempt _ => attempt.before
  | .sending attempt _ => attempt.before + 1
  | .rejected _ | .renewing _ _ => 1
  | .refreshing cause _ | .persisting cause _ | .adopting cause _ => cause.attempt.before
  | .done _ => 2

def Paced (w : World β γ ρ) : Prop := ∀ r, (w.requests r).attempts ≤ (w.stage r).sent

/-- Every request is sent at most twice. -/
def AtMostTwice (w : World β γ ρ) : Prop := ∀ r, (w.requests r).attempts ≤ 2

theorem Attempt.before_le (attempt : Attempt) : attempt.before ≤ 1 := by
  cases attempt <;> simp [Attempt.before]

theorem Stage.sent_le (s : Stage) : s.sent ≤ 2 := by
  cases s with
  | sending attempt _ =>
    have hle := attempt.before_le
    show attempt.before + 1 ≤ 2
    omega
  | ready attempt => exact attempt.before_le.trans (by omega)
  | priming attempt _ => exact attempt.before_le.trans (by omega)
  | refreshing cause _ => exact cause.attempt.before_le.trans (by omega)
  | persisting cause _ => exact cause.attempt.before_le.trans (by omega)
  | adopting cause _ => exact cause.attempt.before_le.trans (by omega)
  | _ => simp [Stage.sent]

theorem Paced.atMostTwice (h : Paced w) : AtMostTwice w :=
  fun r => (h r).trans (w.stage r).sent_le

theorem paced_of_same {w w' : World β γ ρ} (h : Paced w) (hrequests : w'.requests = w.requests) :
    Paced w' := by
  intro r
  rw [World.stage, hrequests]
  exact h r

theorem paced_goto {w w₀ : World β γ ρ} (h : Paced w) (hrequests : w₀.requests = w.requests)
    (hs : (w.stage r).sent ≤ s.sent) : Paced (w₀.goto r s) := by
  intro r'
  rw [goto_stage]
  by_cases hr : r' = r
  · subst hr
    rw [if_pos rfl]
    have hsame : ((w₀.goto r' s).requests r').attempts = (w.requests r').attempts := by
      simp [World.goto, hrequests]
    rw [hsame]
    exact (h r').trans hs
  · rw [if_neg hr, World.stage, hrequests]
    have hsame : (w₀.goto r s).requests r' = w.requests r' := by
      simp [World.goto, hrequests, hr]
    rw [hsame]
    exact h r'

theorem paced_transmit {w w₀ : World β γ ρ} (h : Paced w) (hrequests : w₀.requests = w.requests)
    {attempt : Attempt} {sent : Option String}
    (hs : (w.stage r).sent ≤ attempt.before) : Paced (w₀.transmit r attempt sent) := by
  intro r'
  rw [transmit_stage]
  by_cases hr : r' = r
  · subst hr
    rw [if_pos rfl]
    have hsame : ((w₀.transmit r' attempt sent).requests r').attempts
        = (w.requests r').attempts + 1 := by
      simp [World.transmit, hrequests]
    have hle := (h r').trans hs
    rw [hsame]
    show (w.requests r').attempts + 1 ≤ attempt.before + 1
    omega
  · rw [if_neg hr, World.stage, hrequests]
    have hsame : (w₀.transmit r attempt sent).requests r' = w.requests r' := by
      simp [World.transmit, hrequests, hr]
    rw [hsame]
    exact h r'

theorem release_requests (w : World β γ ρ) (r : ρ) : (w.release r).requests = w.requests := by
  rw [World.release]
  split <;> rfl

theorem paced_build (h : Paced w) (c : γ) : Paced (w.build e c) := by
  rw [World.build]
  split <;> exact paced_of_same h rfl

theorem paced_begin (h : Paced w) (r : ρ) : Paced (w.begin r) := by
  rw [World.begin]
  split
  case isFalse => exact h
  case isTrue hidle =>
    intro r'
    have hr' := h r'
    rw [World.stage]
    by_cases hr : r' = r
    · subst hr
      rw [hidle] at hr'
      simp only [Function.update_self]
      exact hr'.trans (Nat.zero_le _)
    · simp only [Function.update_of_ne hr]
      exact hr'

theorem paced_checkExpiry (h : Paced w) (r : ρ) (now : Int) : Paced (w.checkExpiry r now) := by
  rw [World.checkExpiry]
  split
  case h_2 => exact h
  case h_1 hstage =>
    split
    · split <;> exact paced_goto h rfl (by rw [hstage]; exact Nat.le_refl 0)
    · exact h

theorem paced_take (h : Paced w) (r : ρ) : Paced (w.take e r) := by
  rw [World.take]
  split
  case h_1 hstage =>
    split
    · exact h
    · split
      · exact paced_transmit h rfl (by rw [hstage]; exact Nat.le_refl _)
      · exact paced_goto h rfl (by rw [hstage]; exact Nat.le_refl _)
  case h_2 hstage =>
    split
    · exact paced_transmit h rfl (by rw [hstage]; exact Nat.le_refl _)
    · exact h
  case h_3 => exact h

theorem paced_readSession (h : Paced w) (r : ρ) (now : Int) : Paced (w.readSession e r now) := by
  rw [World.readSession]
  split
  case h_1 hstage =>
    split
    · exact paced_goto h rfl (by rw [hstage]; exact Nat.le_refl _)
    · exact paced_transmit h rfl (by rw [hstage]; exact Nat.le_refl _)
  case h_2 hstage =>
    split
    · exact paced_goto h (release_requests w r) (by rw [hstage]; exact Nat.le_succ 1)
    · split <;> exact paced_goto h rfl (by rw [hstage]; exact Nat.le_refl 1)
  case h_3 => exact h

theorem paced_receive (h : Paced w) (r : ρ) : Paced (w.receive e r) := by
  rw [World.receive]
  split
  case h_2 => exact h
  case h_1 cause auth hstage =>
    dsimp only
    split
    · exact paced_goto h
        (release_requests { w with received := w.received ++ [auth.refreshToken] } r)
        (Stage.sent_le _)
    · exact paced_goto h rfl (by rw [hstage]; exact Nat.le_refl _)

theorem paced_persist (h : Paced w) (r : ρ) : Paced (w.persist r) := by
  rw [World.persist]
  split
  case h_2 => exact h
  case h_1 hstage => exact paced_goto h rfl (by rw [hstage]; exact Nat.le_refl _)

theorem paced_adopt (h : Paced w) (r : ρ) : Paced (w.adopt r) := by
  rw [World.adopt]
  split
  case h_1 hstage => exact paced_transmit h rfl (by rw [hstage]; exact Nat.le_refl _)
  case h_2 hstage =>
    split
    · exact paced_goto h (release_requests { w with rotations := w.rotations + 1 } r)
        (Stage.sent_le _)
    · exact paced_goto h rfl (by rw [hstage]; exact Nat.le_refl 1)
  case h_3 c cause fresh _ hstage =>
    refine paced_goto h rfl ?_
    rw [hstage]
    cases cause <;> exact Nat.le_refl _
  case h_4 => exact h

theorem paced_answer (h : Paced w) (r : ρ) : Paced (w.answer e r) := by
  rw [World.answer]
  split
  case h_2 => exact h
  case h_1 attempt sent hstage =>
    split
    · exact paced_goto h rfl (Stage.sent_le _)
    · cases attempt with
      | first => exact paced_goto h rfl (by rw [hstage]; exact Nat.le_refl 1)
      | second => exact paced_goto h rfl (Stage.sent_le _)

theorem paced_renew (h : Paced w) (r : ρ) : Paced (w.renew e r) := by
  rw [World.renew]
  split
  case h_1 b sent _ hstage =>
    cases sent with
    | none => exact paced_goto h rfl (Stage.sent_le _)
    | some sent =>
      dsimp only
      split
      · exact h
      · split
        · split
          · exact paced_goto h rfl (by rw [hstage]; exact Nat.le_refl 1)
          · exact paced_goto h rfl (Stage.sent_le _)
        · exact paced_goto h rfl (by rw [hstage]; exact Nat.le_refl 1)
  case h_2 hstage =>
    split
    · exact paced_goto h rfl (by rw [hstage]; exact Nat.le_refl 1)
    · exact paced_goto h rfl (Stage.sent_le _)
    · exact h
  case h_3 hstage =>
    split
    · exact paced_goto h rfl (by rw [hstage]; exact Nat.le_refl 0)
    · exact paced_goto h rfl (by rw [hstage]; exact Nat.le_refl 0)
    · exact h
  case h_4 => exact h

theorem paced_expire (h : Paced w) (t : String) : Paced (w.expire e t) := by
  rw [World.expire]
  split <;> exact paced_of_same h rfl

/-- What a request's stage says it has been sent is no less after a step. -/
theorem paced_step (h : Paced w) (label : Label γ ρ) : Paced (step e w label) := by
  cases label with
  | build c => exact paced_build h c
  | begin r => exact paced_begin h r
  | checkExpiry r now => exact paced_checkExpiry h r now
  | take r => exact paced_take h r
  | readSession r now => exact paced_readSession h r now
  | receive r => exact paced_receive h r
  | persist r => exact paced_persist h r
  | adopt r => exact paced_adopt h r
  | answer r => exact paced_answer h r
  | renew r => exact paced_renew h r
  | expire t => exact paced_expire h t

theorem paced_start (cache : Cache) (holders : ρ → Holder β γ) :
    Paced (World.start e cache holders) := fun _ => Nat.le_refl 0

/-! ## What a stage promises -/

/-- What a request that is refreshing its `Bearer`'s session relies on: an unprimed one
    is primed before the first attempt; a primed one replaces the token just refused. -/
def Cause.Fine (s : BearerState ρ) (r : ρ) (refused : Option String → Prop) : Cause → Prop
  | .expired attempt => s.lock = some r ∧ s.primed = false ∧ attempt = .first
  | .rejected sent => s.lock = some r ∧ s.primed = true ∧ refused sent

/-- What a stage of a request of a `Bearer` promises. -/
def BearerFine (alive : String → Prop) (s : BearerState ρ) (r : ρ) : Stage → Prop
  | .ready .second => s.primed = true ∧ ∃ t, s.token = some t ∧ alive t
  | .priming attempt resolved =>
    s.lock = some r ∧ s.primed = false ∧ attempt = .first ∧ resolved.isSome
  | .sending .first sent => s.primed = true ∧ sent.isSome
  | .sending .second sent => s.primed = true ∧ ∃ t, sent = some t ∧ alive t
  | .rejected sent => s.primed = true ∧ sent.isSome
  | .renewing _ _ => s.lock = some r ∧ s.primed = true
  | .refreshing cause auth => cause.Fine s r fun sent => sent = some auth.accessToken
  | .persisting cause fresh => alive fresh.accessToken
      ∧ cause.Fine s r fun sent => some fresh.accessToken ≠ sent
  | .adopting cause fresh => alive fresh.accessToken
      ∧ cause.Fine s r fun sent => some fresh.accessToken ≠ sent
  | .done outcome => outcome = .ok
  | _ => True

def ClientState.token : ClientState → Option String
  | .built bearer _ => bearer
  | _ => none

/-- What a stage of a request of an inference client promises. -/
def ClientFine (alive : String → Prop) (s : ClientState) : Stage → Prop
  | .ready .second => ∃ t, s.token = some t ∧ alive t
  | .sending .second sent => ∃ t, sent = some t ∧ alive t
  | .persisting _ fresh => alive fresh.accessToken
  | .adopting _ fresh => alive fresh.accessToken
  | .done outcome => outcome = .ok
  | _ => True

structure Calm (e : TokenEndpoint) (w : World β γ ρ) : Prop where
  bearer : ∀ r b, (w.requests r).holder = .bearer b →
    BearerFine (w.Alive e) (w.bearers b) r (w.stage r)
  client : ∀ r c, (w.requests r).holder = .client c →
    ClientFine (w.Alive e) (w.clients c) (w.stage r)
  token : ∀ b, (w.bearers b).primed = true → (w.bearers b).token.isSome
  refresh : ∀ c bearer refresh, w.clients c = .built bearer refresh → refresh.isSome
  dead : ∀ t ∈ w.dead, w.Minted e t

/-- No request begun after a rotation ends without success. -/
def Succeeds (w : World β γ ρ) : Prop :=
  ∀ r, (w.requests r).later = true → ∀ outcome, w.stage r = .done outcome → outcome = .ok

theorem Calm.succeeds (h : Calm e w) : Succeeds w := by
  intro r _ outcome hstage
  cases hholder : (w.requests r).holder with
  | bearer b =>
    have hfine := h.bearer r b hholder
    rw [hstage] at hfine
    exact hfine
  | client c =>
    have hfine := h.client r c hholder
    rw [hstage] at hfine
    exact hfine

/-- A token that a request is about to bring home, or to be resent with. -/
def Needed (w : World β γ ρ) (t : String) : Prop :=
  (∃ r cause fresh, (w.stage r = .persisting cause fresh ∨ w.stage r = .adopting cause fresh)
      ∧ fresh.accessToken = t)
    ∨ (∃ r b, (w.requests r).holder = .bearer b ∧ w.stage r = .ready .second
      ∧ (w.bearers b).token = some t)
    ∨ (∃ r c, (w.requests r).holder = .client c ∧ w.stage r = .ready .second
      ∧ (w.clients c).token = some t)
    ∨ ∃ r, w.stage r = .sending .second (some t)

/-- What the two reads of the store and the renewals rely on: the two reads of one
    operation find the same session; a `Bearer` that takes over a session from the
    store, or a token another request left it, finds a live one; and no access token
    dies on its way home or while a request is resent with it. -/
def Steady (e : TokenEndpoint) (w : World β γ ρ) : Label γ ρ → Prop
  | .build c => ∀ bearer, w.clients c = .building bearer →
      bearer = bearerFor e.origin (w.session e)
  | .readSession r _ => ∀ sent resolved, w.stage r = .renewing sent resolved →
      resolved = bearerFor e.origin (w.session e)
        ∧ ∀ auth, w.session e = some auth → auth.accessToken ≠ sent → w.Alive e auth.accessToken
  | .renew r => ∀ b sent t, (w.requests r).holder = .bearer b → w.stage r = .rejected (some sent) →
      (w.bearers b).lock = none → (w.bearers b).token = some t → t ≠ sent → w.Alive e t
  | .expire t => ¬ Needed w t
  | _ => True

/-! ## What other requests of a holder see -/

variable {alive alive' : String → Prop} {stage : Stage}

/-- The token a stage brings home, or resends with; a resend reads it from the holder. -/
def Stage.relied (held : Option String) : Stage → Option String
  | .ready .second => held
  | .sending .second sent => sent
  | .persisting _ fresh => some fresh.accessToken
  | .adopting _ fresh => some fresh.accessToken
  | _ => none

theorem BearerFine.mono {s : BearerState ρ}
    (h : ∀ t, stage.relied s.token = some t → alive t → alive' t)
    (hs : BearerFine alive s r stage) : BearerFine alive' s r stage := by
  cases stage with
  | ready attempt =>
    cases attempt with
    | first => trivial
    | second =>
      obtain ⟨hp, t, ht, ha⟩ := hs
      exact ⟨hp, t, ht, h t ht ha⟩
  | sending attempt sent =>
    cases attempt with
    | first => exact hs
    | second =>
      obtain ⟨hp, t, ht, ha⟩ := hs
      exact ⟨hp, t, ht, h t ht ha⟩
  | persisting cause fresh => exact ⟨h _ rfl hs.1, hs.2⟩
  | adopting cause fresh => exact ⟨h _ rfl hs.1, hs.2⟩
  | _ => exact hs

theorem ClientFine.mono {s : ClientState}
    (h : ∀ t, stage.relied s.token = some t → alive t → alive' t) (hs : ClientFine alive s stage) :
    ClientFine alive' s stage := by
  cases stage with
  | ready attempt =>
    cases attempt with
    | first => trivial
    | second =>
      obtain ⟨t, ht, ha⟩ := hs
      exact ⟨t, ht, h t ht ha⟩
  | sending attempt sent =>
    cases attempt with
    | first => trivial
    | second =>
      obtain ⟨t, ht, ha⟩ := hs
      exact ⟨t, ht, h t ht ha⟩
  | persisting cause fresh => exact h _ rfl hs
  | adopting cause fresh => exact h _ rfl hs
  | _ => exact hs

/-- A request changes its `Bearer` only with the lock free or its own, never back to
    unprimed, and only for a live token once it is primed: the others do not mind. -/
theorem BearerFine.other {alive : String → Prop} {s s' : BearerState ρ} {r r' : ρ} (hr : r' ≠ r)
    (hs : BearerFine alive s r' stage) (hlock : s.lock = none ∨ s.lock = some r)
    (hprimed : s.primed = true → s'.primed = true)
    (htoken : s.primed = true → ∀ t, s.token = some t → alive t → ∃ t', s'.token = some t' ∧ alive t')
    : BearerFine alive s' r' stage := by
  -- whoever is refreshing holds the lock, and it is not this request
  have hfree : ¬ s.lock = some r' := by
    rcases hlock with h | h <;> rw [h]
    · intro heq
      cases heq
    · exact fun heq => hr (Option.some.inj heq).symm
  have hcause : ∀ (cause : Cause) refused, ¬ cause.Fine s r' refused := by
    intro cause refused h
    cases cause with
    | expired attempt => exact hfree h.1
    | rejected sent => exact hfree h.1
  cases stage with
  | ready attempt =>
    cases attempt with
    | first => trivial
    | second =>
      obtain ⟨hp, t, ht, halive⟩ := hs
      exact ⟨hprimed hp, htoken hp t ht halive⟩
  | sending attempt sent =>
    cases attempt with
    | first => exact ⟨hprimed hs.1, hs.2⟩
    | second => exact ⟨hprimed hs.1, hs.2⟩
  | rejected sent => exact ⟨hprimed hs.1, hs.2⟩
  | priming attempt resolved => exact absurd hs.1 hfree
  | renewing sent resolved => exact absurd hs.1 hfree
  | refreshing cause auth => exact absurd hs (hcause cause _)
  | persisting cause fresh => exact absurd hs.2 (hcause cause _)
  | adopting cause fresh => exact absurd hs.2 (hcause cause _)
  | done outcome => exact hs
  | _ => trivial

theorem ClientFine.other {alive : String → Prop} {s s' : ClientState}
    (hs : ClientFine alive s stage)
    (htoken : ∀ t, s.token = some t → alive t → ∃ t', s'.token = some t' ∧ alive t') :
    ClientFine alive s' stage := by
  cases stage with
  | ready attempt =>
    cases attempt with
    | first => trivial
    | second =>
      obtain ⟨t, ht, halive⟩ := hs
      exact htoken t ht halive
  | sending attempt sent =>
    cases attempt with
    | first => trivial
    | second => exact hs
  | persisting cause fresh => exact hs
  | adopting cause fresh => exact hs
  | done outcome => exact hs
  | _ => trivial

/-! ## One request moves -/

/-- Only one request differs, in its stage and in how often it was sent. -/
structure Moved (w w' : World β γ ρ) (r : ρ) (s : Stage) : Prop where
  others : ∀ r', r' ≠ r → w'.requests r' = w.requests r'
  holder : (w'.requests r).holder = (w.requests r).holder
  stage : w'.stage r = s

theorem moved_goto {w w₀ : World β γ ρ} (hrequests : w₀.requests = w.requests) (r : ρ) (s : Stage) :
    Moved w (w₀.goto r s) r s := by
  refine ⟨fun r' hr' => ?_, ?_, ?_⟩
  · simp [World.goto, hrequests, hr']
  · simp [World.goto, hrequests]
  · rw [goto_stage, if_pos rfl]

theorem moved_transmit {w w₀ : World β γ ρ} (hrequests : w₀.requests = w.requests) (r : ρ)
    (attempt : Attempt) (sent : Option String) :
    Moved w (w₀.transmit r attempt sent) r (.sending attempt sent) := by
  refine ⟨fun r' hr' => ?_, ?_, ?_⟩
  · simp [World.transmit, hrequests, hr']
  · simp [World.transmit, hrequests]
  · rw [transmit_stage, if_pos rfl]

theorem moved_setBearer_goto (w : World β γ ρ) (b : β) (state : BearerState ρ) (r : ρ)
    (s : Stage) : Moved w ((w.setBearer b state).goto r s) r s :=
  @moved_goto _ _ _ _ _ _ w (w.setBearer b state) rfl r s

theorem moved_setBearer_transmit (w : World β γ ρ) (b : β) (state : BearerState ρ) (r : ρ)
    (attempt : Attempt) (sent : Option String) :
    Moved w ((w.setBearer b state).transmit r attempt sent) r (.sending attempt sent) :=
  @moved_transmit _ _ _ _ _ _ w (w.setBearer b state) rfl r attempt sent

/-- What is the same in two worlds, but for the holders and the requests. -/
structure SameTokens (e : TokenEndpoint) (w w' : World β γ ρ) : Prop where
  alive : ∀ t, w.Alive e t → w'.Alive e t
  dead : ∀ t ∈ w'.dead, w'.Minted e t

theorem Calm.sameTokens {w w' : World β γ ρ} (h : Calm e w) (hminted : w'.minted = w.minted)
    (hdead : w'.dead = w.dead) : SameTokens e w w' := by
  have hsame : ∀ t, w'.Minted e t ↔ w.Minted e t := by
    intro t
    rw [World.Minted, hminted]
    exact Iff.rfl
  refine ⟨fun t ht => ⟨(hsame t).mpr ht.1, hdead ▸ ht.2⟩, fun t ht => ?_⟩
  rw [hsame]
  exact h.dead t (hdead ▸ ht)

theorem calm_of_bearer {w w' : World β γ ρ} (h : Calm e w) {b : β} {state : BearerState ρ}
    (hholder : (w.requests r).holder = .bearer b) (hmoved : Moved w w' r s)
    (htokens : SameTokens e w w') (hclients : w'.clients = w.clients)
    (hbearers : ∀ b', w'.bearers b' = if b' = b then state else w.bearers b')
    (hother : ∀ r' stage, r' ≠ r → BearerFine (w.Alive e) (w.bearers b) r' stage → BearerFine (w.Alive e) state r' stage)
    (hfine : BearerFine (w'.Alive e) state r s)
    (htoken : state.primed = true → state.token.isSome) : Calm e w' := by
  refine ⟨fun r' b' hb' => ?_, fun r' c hc => ?_, fun b' => ?_, fun c => ?_, htokens.dead⟩
  · by_cases hr : r' = r
    · subst hr
      rw [hmoved.holder, hholder] at hb'
      obtain rfl := Holder.bearer.inj hb'
      rw [hmoved.stage, hbearers, if_pos rfl]
      exact hfine
    · rw [World.stage, hmoved.others r' hr, hbearers]
      rw [hmoved.others r' hr] at hb'
      have hold := h.bearer r' b' hb'
      refine BearerFine.mono (fun t _ => htokens.alive t) ?_
      split
      case isTrue heq =>
        subst heq
        exact hother r' _ hr hold
      case isFalse => exact hold
  · have hr : r' ≠ r := by
      rintro rfl
      rw [hmoved.holder, hholder] at hc
      cases hc
    rw [World.stage, hmoved.others r' hr, hclients]
    rw [hmoved.others r' hr] at hc
    exact (h.client r' c hc).mono (fun t _ => htokens.alive t)
  · rw [hbearers]
    split
    · exact htoken
    · exact h.token b'
  · rw [hclients]
    exact h.refresh c

theorem calm_of_stage {w w' : World β γ ρ} (h : Calm e w) {b : β}
    (hholder : (w.requests r).holder = .bearer b) (hmoved : Moved w w' r s)
    (htokens : SameTokens e w w') (hclients : w'.clients = w.clients)
    (hbearers : w'.bearers = w.bearers)
    (hfine : BearerFine (w'.Alive e) (w.bearers b) r s) : Calm e w' := by
  refine calm_of_bearer h hholder hmoved htokens hclients (fun b' => ?_) (fun _ _ _ hs => hs) hfine
    (h.token b)
  rw [hbearers]
  split
  case isTrue heq => rw [heq]
  case isFalse => rfl

theorem calm_of_client {w w' : World β γ ρ} (h : Calm e w) {c : γ} {state : ClientState}
    (hholder : (w.requests r).holder = .client c) (hmoved : Moved w w' r s)
    (htokens : SameTokens e w w') (hbearers : w'.bearers = w.bearers)
    (hclients : ∀ c', w'.clients c' = if c' = c then state else w.clients c')
    (htoken : ∀ t, (w.clients c).token = some t → w.Alive e t → ∃ t', state.token = some t' ∧ w.Alive e t')
    (hfine : ClientFine (w'.Alive e) state s)
    (hrefresh : ∀ bearer refresh, state = .built bearer refresh → refresh.isSome) : Calm e w' := by
  refine ⟨fun r' b hb => ?_, fun r' c' hc' => ?_, fun b => ?_, fun c' => ?_, htokens.dead⟩
  · have hr : r' ≠ r := by
      rintro rfl
      rw [hmoved.holder, hholder] at hb
      cases hb
    rw [World.stage, hmoved.others r' hr, hbearers]
    rw [hmoved.others r' hr] at hb
    exact (h.bearer r' b hb).mono (fun t _ => htokens.alive t)
  · by_cases hr : r' = r
    · subst hr
      rw [hmoved.holder, hholder] at hc'
      obtain rfl := Holder.client.inj hc'
      rw [hmoved.stage, hclients, if_pos rfl]
      exact hfine
    · rw [World.stage, hmoved.others r' hr, hclients]
      rw [hmoved.others r' hr] at hc'
      have hold := h.client r' c' hc'
      refine ClientFine.mono (fun t _ => htokens.alive t) ?_
      split
      case isTrue heq =>
        subst heq
        exact hold.other htoken
      case isFalse => exact hold
  · rw [hbearers]
    exact h.token b
  · rw [hclients]
    split
    · exact hrefresh
    · exact h.refresh c'

theorem calm_of_client_stage {w w' : World β γ ρ} (h : Calm e w) {c : γ}
    (hholder : (w.requests r).holder = .client c) (hmoved : Moved w w' r s)
    (htokens : SameTokens e w w') (hbearers : w'.bearers = w.bearers)
    (hclients : w'.clients = w.clients) (hfine : ClientFine (w'.Alive e) (w.clients c) s) :
    Calm e w' := by
  refine calm_of_client h hholder hmoved htokens hbearers (fun c' => ?_)
    (fun t ht halive => ⟨t, ht, halive⟩) hfine (h.refresh c)
  rw [hclients]
  split
  case isTrue heq => rw [heq]
  case isFalse => rfl

/-! ## Each step -/

theorem calm_build (h : Calm e w) (hw : Orderly e w) {c : γ}
    (hsteady : Steady e w (.build c : Label γ ρ)) : Calm e (w.build e c) := by
  -- no request of a client that is not built waits for its token
  have hset : ∀ state : ClientState, (w.clients c).token = none →
      (∀ bearer refresh, state = .built bearer refresh → refresh.isSome) →
      Calm e (w.setClient c state) := by
    intro state hnone hstate
    refine ⟨h.bearer, fun r c' hc' => ?_, h.token, fun c' => ?_, h.dead⟩
    · have hold := h.client r c' hc'
      rw [setClient_clients]
      split
      case isTrue heq =>
        subst heq
        exact hold.other fun t ht => by rw [hnone] at ht; cases ht
      case isFalse => exact hold
    · rw [setClient_clients]
      split
      · exact hstate
      · exact h.refresh c'
  rw [World.build]
  split
  case h_1 habsent =>
    exact hset _ (by rw [habsent]; rfl) (fun bearer refresh heq => by cases heq)
  case h_2 bearer hbuilding =>
    refine hset _ (by rw [hbuilding]; rfl) fun bearer' refresh heq => ?_
    obtain ⟨-, rfl⟩ := ClientState.built.inj heq
    obtain ⟨k, hstored, -⟩ := hw.stored
    rw [hsteady bearer hbuilding, hstored, cloudSessionBehind, bearerFor]
    simp [e.accessToken_ne k, e.cloudOrigin_eq k]
  case h_3 => exact h

theorem bearerFor_session (hw : Orderly e w) :
    ∃ k, w.session e = some (e.session k)
      ∧ bearerFor e.origin (w.session e) = some (e.session k).accessToken := by
  obtain ⟨k, hstored, -⟩ := hw.stored
  refine ⟨k, hstored, ?_⟩
  rw [hstored, bearerFor, Option.bind_some, if_pos ⟨e.cloudOrigin_eq k, e.accessToken_ne k⟩]

theorem calm_begin (h : Calm e w) (r : ρ) : Calm e (w.begin r) := by
  rw [World.begin]
  split
  case isFalse => exact h
  case isTrue hidle =>
    refine ⟨fun r' b hb => ?_, fun r' c hc => ?_, h.token, h.refresh, h.dead⟩
    · by_cases hr : r' = r
      · subst hr
        rw [World.stage]
        simp only [Function.update_self]
        rcases opening_cases w r' with ho | ho | ho <;> rw [ho] <;> trivial
      · rw [World.stage]
        simp only [Function.update_of_ne hr] at hb ⊢
        exact h.bearer r' b hb
    · by_cases hr : r' = r
      · subst hr
        rw [World.stage]
        simp only [Function.update_self]
        rcases opening_cases w r' with ho | ho | ho <;> rw [ho] <;> trivial
      · rw [World.stage]
        simp only [Function.update_of_ne hr] at hc ⊢
        exact h.client r' c hc

theorem calm_checkExpiry (h : Calm e w) (r : ρ) (now : Int) : Calm e (w.checkExpiry r now) := by
  rw [World.checkExpiry]
  split
  case h_2 => exact h
  case h_1 c hholder hstage =>
    split
    · split
      · exact calm_of_client_stage h hholder (moved_goto rfl r _) (h.sameTokens rfl rfl) rfl rfl trivial
      · exact calm_of_client_stage h hholder (moved_goto rfl r _) (h.sameTokens rfl rfl) rfl rfl trivial
    · exact h

theorem setBearer_bearers (w : World β γ ρ) (b b' : β) (s : BearerState ρ) :
    (w.setBearer b s).bearers b' = if b' = b then s else w.bearers b' := by
  rw [World.setBearer]
  by_cases h : b' = b
  · subst h
    simp
  · simp [h]

theorem calm_take (h : Calm e w) (hw : Orderly e w) (r : ρ) : Calm e (w.take e r) := by
  rw [World.take]
  split
  case h_1 b attempt hholder hstage =>
    have hfine := h.bearer r b hholder
    rw [hstage] at hfine
    split
    case isTrue => exact h
    case isFalse hfree =>
      rw [not_not] at hfree
      split
      case isTrue hprimed =>
        refine calm_of_stage h hholder (moved_transmit rfl r _ _) (h.sameTokens rfl rfl) rfl rfl ?_
        cases attempt with
        | first => exact ⟨hprimed, h.token b hprimed⟩
        | second => exact hfine
      case isFalse hprimed =>
        -- a request that is resent has a primed `Bearer`
        cases attempt with
        | second => exact absurd hfine.1 hprimed
        | first =>
          obtain ⟨k, -, hbearer⟩ := bearerFor_session hw
          refine calm_of_bearer h hholder (moved_setBearer_goto w b _ r _) (h.sameTokens rfl rfl) rfl
            (fun b' => setBearer_bearers w b b' _) (fun r' stage hr hs => ?_) ?_
            (fun hp => absurd hp hprimed)
          · exact hs.other hr (.inl hfree) id fun _ t ht halive => ⟨t, ht, halive⟩
          · exact ⟨rfl, by simpa using hprimed, rfl, by rw [hbearer]; rfl⟩
  case h_2 c attempt hholder hstage =>
    have hfine := h.client r c hholder
    rw [hstage] at hfine
    split
    case h_1 bearer refresh hclient =>
      refine calm_of_client_stage h hholder (moved_transmit rfl r _ _) (h.sameTokens rfl rfl) rfl rfl ?_
      cases attempt with
      | first => trivial
      | second =>
        rw [hclient] at hfine
        exact hfine
    case h_2 => exact h
  case h_3 => exact h

theorem calm_readSession (h : Calm e w) (hw : Orderly e w) {now : Int}
    (hsteady : Steady e w (.readSession r now : Label γ ρ)) : Calm e (w.readSession e r now) := by
  rw [World.readSession]
  split
  -- priming: an expired session is refreshed, a good one is used
  case h_1 b attempt resolved hholder hstage =>
    have hfine := h.bearer r b hholder
    rw [hstage] at hfine
    obtain ⟨hlock, hprimed, rfl, hresolved⟩ := hfine
    split
    case h_1 auth hauth =>
      exact calm_of_stage h hholder (moved_goto rfl r _) (h.sameTokens rfl rfl) rfl rfl ⟨hlock, hprimed, rfl⟩
    case h_2 =>
      refine calm_of_bearer h hholder (moved_setBearer_transmit w b _ r _ _) (h.sameTokens rfl rfl) rfl
        (fun b' => setBearer_bearers w b b' _) (fun r' stage hr hs => ?_) ⟨rfl, hresolved⟩
        (fun _ => hresolved)
      exact hs.other hr (.inr hlock) (fun _ => rfl) fun hp => by rw [hprimed] at hp; cases hp
  -- renewing: the store may have a newer session than the one refused
  case h_2 b sent resolved hholder hstage =>
    have hfine := h.bearer r b hholder
    rw [hstage] at hfine
    obtain ⟨hlock, hprimed⟩ := hfine
    obtain ⟨hresolved, hlive⟩ := hsteady sent resolved hstage
    obtain ⟨k, hstored, hbearer⟩ := bearerFor_session hw
    have hbehind : cloudSessionBehind (w.session e) resolved = some (e.session k) := by
      rw [hresolved, hbearer, hstored, cloudSessionBehind]
      simp
    rw [hbehind]
    dsimp only
    split
    case isTrue hne =>
      have halive := hlive _ hstored hne
      refine calm_of_bearer h hholder (moved_setBearer_goto w b _ r _) (h.sameTokens rfl rfl) rfl
        (fun b' => setBearer_bearers w b b' _) (fun r' stage hr hs => ?_)
        ⟨hprimed, _, rfl, halive⟩ (fun _ => rfl)
      exact hs.other hr (.inr hlock) id fun _ _ _ _ => ⟨_, rfl, halive⟩
    case isFalse heq =>
      rw [not_not] at heq
      refine calm_of_stage h hholder (moved_goto rfl r _) (h.sameTokens rfl rfl) rfl rfl ⟨hlock, hprimed, ?_⟩
      rw [heq]
  case h_3 => exact h

theorem calm_answer (h : Calm e w) (r : ρ) : Calm e (w.answer e r) := by
  rw [World.answer]
  split
  case h_2 => exact h
  case h_1 attempt sent hstage =>
    cases hholder : (w.requests r).holder with
    | bearer b =>
      have hfine := h.bearer r b hholder
      rw [hstage] at hfine
      split
      case isTrue =>
        exact calm_of_stage h hholder (moved_goto rfl r _) (h.sameTokens rfl rfl) rfl rfl rfl
      case isFalse hrefused =>
        cases attempt with
        | first => exact calm_of_stage h hholder (moved_goto rfl r _) (h.sameTokens rfl rfl) rfl rfl hfine
        | second => exact absurd hfine.2 hrefused
    | client c =>
      have hfine := h.client r c hholder
      rw [hstage] at hfine
      split
      case isTrue =>
        exact calm_of_client_stage h hholder (moved_goto rfl r _) (h.sameTokens rfl rfl) rfl rfl rfl
      case isFalse hrefused =>
        cases attempt with
        | first =>
          exact calm_of_client_stage h hholder (moved_goto rfl r _) (h.sameTokens rfl rfl) rfl rfl trivial
        | second => exact absurd hfine hrefused

theorem calm_renew (h : Calm e w)
    (hsteady : Steady e w (.renew r : Label γ ρ)) : Calm e (w.renew e r) := by
  rw [World.renew]
  split
  case h_1 b sent hholder hstage =>
    have hfine := h.bearer r b hholder
    rw [hstage] at hfine
    obtain ⟨hprimed, hsome⟩ := hfine
    obtain ⟨sent, rfl⟩ := Option.isSome_iff_exists.mp hsome
    dsimp only
    split
    case isTrue => exact h
    case isFalse hfree =>
      rw [not_not] at hfree
      obtain ⟨t, ht⟩ := Option.isSome_iff_exists.mp (h.token b hprimed)
      split
      -- another request has put a new token there; it is resent with that one
      case isTrue hmoved =>
        rw [if_pos (h.token b hprimed)]
        have hne : t ≠ sent := fun heq => hmoved (by rw [ht, heq])
        exact calm_of_stage h hholder (moved_goto rfl r _) (h.sameTokens rfl rfl) rfl rfl
          ⟨hprimed, t, ht, hsteady b sent t hholder hstage hfree ht hne⟩
      case isFalse =>
        refine calm_of_bearer h hholder (moved_setBearer_goto w b _ r _) (h.sameTokens rfl rfl) rfl
          (fun b' => setBearer_bearers w b b' _) (fun r' stage hr hs => ?_) ⟨rfl, hprimed⟩
          (fun _ => h.token b hprimed)
        exact hs.other hr (.inl hfree) id fun _ t ht halive => ⟨t, ht, halive⟩
  case h_2 c sent hholder hstage =>
    split
    case h_1 =>
      exact calm_of_client_stage h hholder (moved_goto rfl r _) (h.sameTokens rfl rfl) rfl rfl trivial
    case h_2 bearer hclient => exact absurd (h.refresh c bearer none hclient) Bool.false_ne_true
    case h_3 => exact h
  case h_3 c hholder hstage =>
    split
    case h_1 =>
      exact calm_of_client_stage h hholder (moved_goto rfl r _) (h.sameTokens rfl rfl) rfl rfl trivial
    case h_2 => exact calm_of_client_stage h hholder (moved_goto rfl r _) (h.sameTokens rfl rfl) rfl rfl trivial
    case h_3 => exact h
  case h_4 => exact h

theorem Cause.Fine.imp {s : BearerState ρ} {refused refused' : Option String → Prop} {cause : Cause}
    (h : cause.Fine s r refused) (himp : ∀ sent, refused sent → refused' sent) :
    cause.Fine s r refused' := by
  cases cause with
  | expired attempt => exact h
  | rejected sent => exact ⟨h.1, h.2.1, himp sent h.2.2⟩

/-- The endpoint mints a live session whose access token is none of those refused. -/
theorem calm_receive (h : Calm e w) (hw : Orderly e w)
    (hfresh : Fresh e w (.receive r : Label γ ρ)) : Calm e (w.receive e r) := by
  rw [World.receive]
  split
  case h_2 => exact h
  case h_1 cause auth hstage =>
    have hunspent := (fresh_receive_iff hw hstage).mp hfresh
    dsimp only
    rw [if_neg hunspent]
    obtain ⟨k, hstored, hknown, hflight⟩ := hw.stored
    obtain ⟨j, hj, rfl⟩ := hknown auth (.inr (.inl ⟨r, by rw [hstage]; rfl⟩))
    have hk : k ≤ w.minted := by
      rcases hflight with ⟨hk, -⟩ | ⟨hk, -⟩ <;> omega
    -- the endpoint mints a token nobody has, so none that is spent or dead
    have hnew : ∀ i ≤ w.minted, (e.session i).accessToken ≠ (e.session (w.minted + 1)).accessToken := by
      intro i hi heq
      have hii := e.accessToken_inj _ _ heq
      omega
    have hminted : ∀ t, w.Minted e t → ∃ i ∈ List.range (w.minted + 1 + 1),
        (e.session i).accessToken = t := by
      rintro t ⟨i, hi, hit⟩
      rw [List.mem_range] at hi
      exact ⟨i, List.mem_range.mpr (by omega), hit⟩
    rw [session_cloudOrigin]
    have hmoved := @moved_goto β γ ρ _ _ _ w
      { w with received := w.received ++ [(e.session j).refreshToken], minted := w.minted + 1 } rfl r
      (.persisting cause (e.session (w.minted + 1)))
    have htokens : SameTokens e w
        ({ w with received := w.received ++ [(e.session j).refreshToken],
                  minted := w.minted + 1 }.goto r (.persisting cause (e.session (w.minted + 1)))) :=
      ⟨fun t ht => ⟨hminted t ht.1, ht.2⟩, fun t ht => hminted t (h.dead t ht)⟩
    have halive : World.Alive e
        ({ w with received := w.received ++ [(e.session j).refreshToken],
                  minted := w.minted + 1 }.goto r (.persisting cause (e.session (w.minted + 1))))
        (e.session (w.minted + 1)).accessToken := by
      refine ⟨⟨w.minted + 1, List.mem_range.mpr (Nat.lt_succ_self _), rfl⟩, fun hdead => ?_⟩
      obtain ⟨i, hi, hit⟩ := h.dead _ hdead
      rw [List.mem_range] at hi
      exact hnew i (by omega) hit
    cases hholder : (w.requests r).holder with
    | bearer b =>
      have hfine := h.bearer r b hholder
      rw [hstage] at hfine
      refine calm_of_stage h hholder hmoved htokens rfl rfl ?_
      refine ⟨halive, Cause.Fine.imp hfine fun sent hsent heq => ?_⟩
      rw [hsent] at heq
      exact hnew j (by omega) (Option.some.inj heq).symm
    | client c =>
      refine calm_of_client_stage h hholder hmoved htokens rfl rfl ?_
      exact halive

theorem calm_persist (h : Calm e w) (r : ρ) : Calm e (w.persist r) := by
  rw [World.persist]
  split
  case h_2 => exact h
  case h_1 cause fresh hstage =>
    have hmoved := @moved_goto β γ ρ _ _ _ w { w with cache := updateInPlace fresh w.cache } rfl r
      (.adopting cause fresh)
    cases hholder : (w.requests r).holder with
    | bearer b =>
      have hfine := h.bearer r b hholder
      rw [hstage] at hfine
      exact calm_of_stage h hholder hmoved (h.sameTokens rfl rfl) rfl rfl hfine
    | client c =>
      have hfine := h.client r c hholder
      rw [hstage] at hfine
      exact calm_of_client_stage h hholder hmoved (h.sameTokens rfl rfl) rfl rfl hfine

theorem calm_adopt (h : Calm e w) (r : ρ) : Calm e (w.adopt r) := by
  have hbearers : ∀ (b b' : β) (state : BearerState ρ),
      ({ w with rotations := w.rotations + 1 }.setBearer b state).bearers b'
        = if b' = b then state else w.bearers b' := by
    intro b b' state
    rw [setBearer_bearers]
  rw [World.adopt]
  split
  -- an unprimed `Bearer`: the token the request goes out with is its first
  case h_1 b attempt fresh hholder hstage =>
    have hfine := h.bearer r b hholder
    rw [hstage] at hfine
    obtain ⟨halive, hlock, hprimed, rfl⟩ := hfine
    have hmoved := @moved_transmit _ _ _ _ _ _ w
      ({ w with rotations := w.rotations + 1 }.setBearer b ⟨some fresh.accessToken, true, none⟩) rfl
      r .first (some fresh.accessToken)
    refine calm_of_bearer h hholder hmoved (h.sameTokens rfl rfl) rfl (fun b' => hbearers b b' _)
      (fun r' stage hr hs => ?_) ?_ (fun _ => rfl)
    · exact hs.other hr (.inr hlock) (fun _ => rfl) fun hp => by rw [hprimed] at hp; cases hp
    · exact ⟨rfl, rfl⟩
  -- a primed one: the refused token is replaced, and the request goes out again
  case h_2 b sent fresh hholder hstage =>
    have hfine := h.bearer r b hholder
    rw [hstage] at hfine
    obtain ⟨halive, hlock, hprimed, hne⟩ := hfine
    rw [if_neg hne]
    have hmoved := @moved_goto _ _ _ _ _ _ w
      ({ w with rotations := w.rotations + 1 }.setBearer b
        ⟨some fresh.accessToken, (w.bearers b).primed, none⟩) rfl r (.ready .second)
    refine calm_of_bearer h hholder hmoved (h.sameTokens rfl rfl) rfl (fun b' => hbearers b b' _)
      (fun r' stage hr hs => ?_) ?_ (fun _ => rfl)
    · exact hs.other hr (.inr hlock) id fun _ _ _ _ => ⟨_, rfl, halive⟩
    · exact ⟨hprimed, _, rfl, halive⟩
  -- an inference client has no lock, only its own copy of the session
  case h_3 c cause fresh hholder hstage =>
    have halive := h.client r c hholder
    rw [hstage] at halive
    have hmoved := @moved_goto _ _ _ _ _ _ w
      ({ w with rotations := w.rotations + 1 }.setClient c
        (.built (some fresh.accessToken) (some fresh))) rfl r (.ready cause.attempt)
    refine calm_of_client h hholder hmoved (h.sameTokens rfl rfl) rfl
      (fun c' => setClient_clients { w with rotations := w.rotations + 1 } c c' _)
      (fun _ _ _ => ⟨_, rfl, halive⟩) ?_ ?_
    · cases cause.attempt with
      | first => trivial
      | second => exact ⟨_, rfl, halive⟩
    · intro bearer refresh heq
      obtain ⟨-, rfl⟩ := ClientState.built.inj heq
      rfl
  case h_4 => exact h

/-- A token that a stage relies on is needed; a resend takes it from the holder. -/
theorem needed_of_relied {held : Option String} {t : String}
    (hheld : w.stage r = .ready .second → held = some t → Needed w t)
    (h : (w.stage r).relied held = some t) : Needed w t := by
  cases hstage : w.stage r with
  | ready attempt =>
    rw [hstage] at h
    cases attempt with
    | first => cases h
    | second => exact hheld hstage h
  | sending attempt sent =>
    rw [hstage] at h
    cases attempt with
    | first => cases h
    | second => exact .inr (.inr (.inr ⟨r, h ▸ hstage⟩))
  | persisting cause fresh =>
    rw [hstage] at h
    exact .inl ⟨r, cause, fresh, .inl hstage, Option.some.inj h⟩
  | adopting cause fresh =>
    rw [hstage] at h
    exact .inl ⟨r, cause, fresh, .inr hstage, Option.some.inj h⟩
  | _ =>
    rw [hstage] at h
    cases h

theorem calm_expire (h : Calm e w) {t : String} (hneeded : ¬ Needed w t) :
    Calm e (w.expire e t) := by
  rw [World.expire]
  split
  case isFalse => exact h
  case isTrue hminted =>
    have halive : ∀ t', Needed w t' → w.Alive e t' →
        World.Alive e { w with dead := t :: w.dead } t' := by
      rintro t' hneed ⟨hm, hdead⟩
      refine ⟨hm, ?_⟩
      rw [List.mem_cons, not_or]
      exact ⟨fun heq => hneeded (heq ▸ hneed), hdead⟩
    refine ⟨fun r b hb => ?_, fun r c hc => ?_, h.token, h.refresh, fun t' ht' => ?_⟩
    · refine (h.bearer r b hb).mono fun t' ht' => halive t' (needed_of_relied ?_ ht')
      exact fun hstage hheld => .inr (.inl ⟨r, b, hb, hstage, hheld⟩)
    · refine (h.client r c hc).mono fun t' ht' => halive t' (needed_of_relied ?_ ht')
      exact fun hstage hheld => .inr (.inr (.inl ⟨r, c, hc, hstage, hheld⟩))
    · rcases List.mem_cons.mp ht' with rfl | hold
      · exact hminted
      · exact h.dead t' hold

theorem calm_step {label : Label γ ρ} (h : Calm e w) (hw : Orderly e w) (hfresh : Fresh e w label)
    (hsteady : Steady e w label) : Calm e (step e w label) := by
  cases label with
  | build c => exact calm_build h hw hsteady
  | begin r => exact calm_begin h r
  | checkExpiry r now => exact calm_checkExpiry h r now
  | take r => exact calm_take h hw r
  | readSession r now => exact calm_readSession h hw hsteady
  | receive r => exact calm_receive h hw hfresh
  | persist r => exact calm_persist h r
  | adopt r => exact calm_adopt h r
  | answer r => exact calm_answer h r
  | renew r => exact calm_renew h hsteady
  | expire t => exact calm_expire h hsteady

theorem calm_start (cache : Cache) (holders : ρ → Holder β γ) :
    Calm e (World.start e cache holders) := by
  refine ⟨fun r b _ => trivial, fun r c _ => trivial, fun b hb => ?_, fun c bearer refresh hc => ?_,
    fun t ht => ?_⟩
  · cases hb
  · cases hc
  · cases ht

/-! ## Runs -/

theorem atMostTwice (cache : Cache) (holders : ρ → Holder β γ) (labels : List (Label γ ρ)) :
    EachState (step e) AtMostTwice (World.start e cache holders) labels := by
  have hpaced : EachState (step e) Paced (World.start e cache holders) labels :=
    eachState_of_inv (fun (w : World β γ ρ) label (h : Paced w) _ => paced_step h label)
      (paced_start cache holders) (eachStep_true _ labels)
  exact hpaced.imp _ fun _ => Paced.atMostTwice

theorem succeeds_of_steady (cache : Cache) (holders : ρ → Holder β γ) {labels : List (Label γ ρ)}
    (h : EachStep (step e) (fun w label => Fresh e w label ∧ Steady e w label)
      (World.start e cache holders) labels) :
    EachState (step e) Succeeds (World.start e cache holders) labels := by
  have hcalm : EachState (step e) (fun w => Orderly e w ∧ Calm e w) (World.start e cache holders)
      labels :=
    eachState_of_inv (fun (w : World β γ ρ) label (hw : Orderly e w ∧ Calm e w) hlabel =>
      ⟨orderly_step hw.1 hlabel.1, calm_step hw.2 hw.1 hlabel.1 hlabel.2⟩)
      ⟨orderly_start cache holders, calm_start cache holders⟩ h
  exact hcalm.imp _ fun _ hw => hw.2.succeeds

/-- Over any interleaving: no refresh token reaches the endpoint twice exactly as long
    as each reaches it while it is stored and no accepted rotation is to be written
    back; no request is sent more than twice; and if besides the two reads agree, what
    is taken over lives, and no token dies while it is needed, no request is sent home. -/
theorem spentOnce_iff (e : TokenEndpoint) (cache : Cache) (holders : ρ → Holder β γ)
    (labels : List (Label γ ρ)) :
    (EachState (step e) SingleUse (World.start e cache holders) labels
        ↔ EachStep (step e) (Fresh e) (World.start e cache holders) labels)
      ∧ EachState (step e) AtMostTwice (World.start e cache holders) labels
      ∧ (EachStep (step e) (fun w label => Fresh e w label ∧ Steady e w label)
          (World.start e cache holders) labels →
        EachState (step e) Succeeds (World.start e cache holders) labels) :=
  ⟨singleUse_iff cache holders labels, atMostTwice cache holders labels,
    succeeds_of_steady cache holders⟩

end Requests

/-! ### A client built before a `Bearer` renews -/

/-- A token of its own for every session. -/
def serialToken (k : Nat) : String := String.ofList ('t' :: List.replicate k 'i')

theorem serialToken_inj {i j : Nat} (h : serialToken i = serialToken j) : i = j := by
  have hlist := congrArg (fun s => s.toList.length) h
  simpa [serialToken] using hlist

def serialEndpoint : TokenEndpoint where
  session k := ⟨serialToken k, serialToken k, 300, "org_a", "https://api.inkentry.com"⟩
  accessToken_inj _ _ := serialToken_inj
  refreshToken_inj _ _ := serialToken_inj
  accessToken_ne k h := by
    have hlist := congrArg (fun s => s.toList.length) h
    simp [serialToken] at hlist
  org := "org_a"
  orgId_eq _ := rfl
  origin := "https://api.inkentry.com"
  cloudOrigin_eq _ := rfl

/-- The first request is the `Bearer`'s, the second the client's. -/
def oneOfEach (r : Bool) : Holder Unit Unit := if r then .client () else .bearer ()

/-- After the session has expired the `Bearer` renews it, request and all; then the
    client's request begins. -/
def renewedRun : List (Label Unit Bool) :=
  [.build (), .build (), .begin false, .take false, .readSession false 400, .receive false,
   .persist false, .adopt false, .answer false, .begin true, .checkExpiry true 400, .renew true,
   .receive true]

/-- The client sends the refresh token it was built with, which the `Bearer` has spent,
    and its request ends with a call to log in. -/
theorem not_spentOnce_of_snapshot :
    ¬ EachState (step serialEndpoint) (fun w => SingleUse w ∧ AtMostTwice w ∧ Succeeds w)
      (World.start serialEndpoint ⟨some "org_a", .empty⟩ oneOfEach) renewedRun := by
  intro h
  have hlast := (EachState.last _ h).1
  have hreceived : (run (step serialEndpoint)
      (World.start serialEndpoint ⟨some "org_a", .empty⟩ oneOfEach) renewedRun).received
        = [serialToken 0, serialToken 0] := by
    decide +kernel
  rw [SingleUse, hreceived] at hlast
  simp at hlast

end CloudSession
end Inkentry
