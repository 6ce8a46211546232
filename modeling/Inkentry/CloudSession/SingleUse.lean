/-
  Inkentry.CloudSession.SingleUse

  When every refresh token is spent once.

  A session is known where it is stored, in the hands of a request, or in the
  snapshot of an inference client; `Effect` says what a step can do to the
  sessions known, and everything else about runs is derived from it.  As long as
  a refresh token reaches the endpoint only while it is the stored one and no
  accepted rotation is still to be written back, the session minted last is the
  stored one or the one on its way to the store, and all others are spent.

  `singleUse_iff` is the exact condition.
-/

import Inkentry.Lib.Runs
import Inkentry.CloudSession.World

set_option linter.unusedSectionVars false

namespace Inkentry
namespace CloudSession

open OrgTokens Runs

/-! ## Sessions known -/

/-- The session a request would refresh, or has refreshed and stored. -/
def Stage.inHand : Stage → Option AuthTokens
  | .refreshing _ auth => some auth
  | .adopting _ fresh => some fresh
  | _ => none

/-- The session a request is to write back. -/
def Stage.toWrite : Stage → Option AuthTokens
  | .persisting _ fresh => some fresh
  | _ => none

def ClientState.snapshot : ClientState → Option AuthTokens
  | .built _ refresh => refresh
  | _ => none

section Sessions

variable {β γ ρ : Type} {e : TokenEndpoint}

/-- A session that a refresh may start from. -/
def Known (e : TokenEndpoint) (w : World β γ ρ) (a : AuthTokens) : Prop :=
  w.session e = some a ∨ (∃ r, (w.stage r).inHand = some a)
    ∨ ∃ c, (w.clients c).snapshot = some a

/-- Each refresh token reached the endpoint at most once. -/
def SingleUse (w : World β γ ρ) : Prop := w.received.Nodup

/-- A refresh token reaches the endpoint while it is the stored one and no accepted
    rotation is still to be written back. -/
def Fresh (e : TokenEndpoint) (w : World β γ ρ) : Label γ ρ → Prop
  | .receive r => ∀ cause auth, w.stage r = .refreshing cause auth →
      (∃ stored, w.session e = some stored ∧ stored.refreshToken = auth.refreshToken)
        ∧ ∀ r' cause' fresh, w.stage r' ≠ .persisting cause' fresh
  | _ => True

/-! ## What a step can do -/

/-- A step that leaves the store and the endpoint alone. -/
structure Quiet (e : TokenEndpoint) (w w' : World β γ ρ) : Prop where
  session : w'.session e = w.session e
  minted : w'.minted = w.minted
  received : w'.received = w.received
  toWrite : ∀ r, (w'.stage r).toWrite = (w.stage r).toWrite
  known : ∀ a, Known e w' a → Known e w a

/-- What a step does to the sessions. -/
inductive Effect (e : TokenEndpoint) (w : World β γ ρ) (label : Label γ ρ) (w' : World β γ ρ) :
    Prop where
  | quiet (h : Quiet e w w')
  /-- The endpoint refuses a token it has had before. -/
  | refused (r : ρ) (cause : Cause) (auth : AuthTokens) (isReceive : label = .receive r)
      (stage : w.stage r = .refreshing cause auth) (spent : auth.refreshToken ∈ w.received)
      (received : w'.received = w.received ++ [auth.refreshToken])
  | accepted (r : ρ) (cause : Cause) (auth : AuthTokens)
      (stage : w.stage r = .refreshing cause auth) (unspent : auth.refreshToken ∉ w.received)
      (received : w'.received = w.received ++ [auth.refreshToken])
      (session : w'.session e = w.session e) (minted : w'.minted = w.minted + 1)
      (toWrite : (w'.stage r).toWrite
        = some { e.session (w.minted + 1) with cloudOrigin := auth.cloudOrigin })
      (others : ∀ r', r' ≠ r → (w'.stage r').toWrite = (w.stage r').toWrite)
      (known : ∀ a, Known e w' a → Known e w a)
  | written (r : ρ) (fresh : AuthTokens) (stage : (w.stage r).toWrite = some fresh)
      (session : w'.session e = resolveSession e.org (updateInPlace fresh w.cache))
      (minted : w'.minted = w.minted) (received : w'.received = w.received)
      (toWrite : (w'.stage r).toWrite = none)
      (others : ∀ r', r' ≠ r → (w'.stage r').toWrite = (w.stage r').toWrite)
      (known : ∀ a, Known e w' a → Known e w a ∨ a = fresh ∨ w'.session e = some a)

theorem Quiet.refl (w : World β γ ρ) : Quiet e w w :=
  ⟨rfl, rfl, rfl, fun _ => rfl, fun _ h => h⟩

/-- Only holders differ, and what a client has a snapshot of is known. -/
structure Near (e : TokenEndpoint) (w w₀ : World β γ ρ) : Prop where
  session : w₀.session e = w.session e
  minted : w₀.minted = w.minted
  received : w₀.received = w.received
  requests : w₀.requests = w.requests
  snapshot : ∀ c a, (w₀.clients c).snapshot = some a → Known e w a

theorem near_of_clients {w w₀ : World β γ ρ} (hsession : w₀.session e = w.session e)
    (hminted : w₀.minted = w.minted) (hreceived : w₀.received = w.received)
    (hrequests : w₀.requests = w.requests) (hclients : w₀.clients = w.clients) : Near e w w₀ := by
  refine ⟨hsession, hminted, hreceived, hrequests, fun c a h => ?_⟩
  rw [hclients] at h
  exact .inr (.inr ⟨c, h⟩)

theorem Near.refl (w : World β γ ρ) : Near e w w := near_of_clients rfl rfl rfl rfl rfl

theorem Near.known {w w₀ : World β γ ρ} (h : Near e w w₀) {a : AuthTokens} (ha : Known e w₀ a) :
    Known e w a := by
  rcases ha with hstored | ⟨r, hr⟩ | ⟨c, hc⟩
  · exact .inl (h.session ▸ hstored)
  · rw [World.stage, h.requests] at hr
    exact .inr (.inl ⟨r, hr⟩)
  · exact h.snapshot c a hc

theorem Near.quiet {w w₀ : World β γ ρ} (h : Near e w w₀) : Quiet e w w₀ := by
  refine ⟨h.session, h.minted, h.received, fun r => ?_, fun a => h.known⟩
  rw [World.stage, World.stage, h.requests]

section Holders

variable [DecidableEq β]

theorem near_setBearer (w : World β γ ρ) (b : β) (s : BearerState ρ) :
    Near e w (w.setBearer b s) := near_of_clients rfl rfl rfl rfl rfl

theorem near_release (w : World β γ ρ) (r : ρ) : Near e w (w.release r) := by
  rw [World.release]
  split
  · exact near_setBearer w _ _
  · exact .refl w

variable [DecidableEq γ]

theorem setClient_clients (w : World β γ ρ) (c c' : γ) (s : ClientState) :
    (w.setClient c s).clients c' = if c' = c then s else w.clients c' := by
  rw [World.setClient]
  by_cases h : c' = c
  · subst h
    simp
  · simp [h]

theorem near_setClient {w w₀ : World β γ ρ} (h : Near e w w₀) (c : γ) {s : ClientState}
    (hs : ∀ a, s.snapshot = some a → Known e w a) : Near e w (w₀.setClient c s) := by
  refine ⟨h.session, h.minted, h.received, h.requests, fun c' a ha => ?_⟩
  rw [setClient_clients] at ha
  split at ha
  · exact hs a ha
  · exact h.snapshot c' a ha

end Holders

section Moves

variable [DecidableEq ρ]

theorem goto_stage (w : World β γ ρ) (r r' : ρ) (s : Stage) :
    (w.goto r s).stage r' = if r' = r then s else w.stage r' := by
  rw [World.stage, World.goto, World.stage]
  by_cases h : r' = r
  · subst h
    simp
  · simp [h]

theorem transmit_stage (w : World β γ ρ) (r r' : ρ) (attempt : Attempt) (sent : Option String) :
    (w.transmit r attempt sent).stage r' = if r' = r then .sending attempt sent else w.stage r' := by
  rw [World.stage, World.transmit, World.stage]
  by_cases h : r' = r
  · subst h
    simp
  · simp [h]

/-- A request moves to a stage in which it has nothing to write back. -/
theorem quiet_of_moved {w w₀ w' : World β γ ρ} (h : Near e w w₀) {r : ρ} {s : Stage}
    (hsession : w'.session e = w₀.session e) (hminted : w'.minted = w₀.minted)
    (hreceived : w'.received = w₀.received) (hclients : w'.clients = w₀.clients)
    (hstage : ∀ r', w'.stage r' = if r' = r then s else w₀.stage r')
    (hw : (w.stage r).toWrite = none) (hs : s.toWrite = none)
    (hknown : ∀ a, s.inHand = some a → Known e w a) : Quiet e w w' := by
  have hsame : ∀ r', w₀.stage r' = w.stage r' := by
    intro r'
    rw [World.stage, World.stage, h.requests]
  refine ⟨hsession.trans h.session, hminted.trans h.minted, hreceived.trans h.received, ?_, ?_⟩
  · intro r'
    rw [hstage]
    split
    case isTrue hr =>
      subst hr
      rw [hs, hw]
    case isFalse => rw [hsame]
  · rintro a (hstored | ⟨r', hr'⟩ | ⟨c, hc⟩)
    · exact .inl (h.session ▸ hsession ▸ hstored)
    · rw [hstage] at hr'
      split at hr'
      · exact hknown a hr'
      · rw [hsame] at hr'
        exact .inr (.inl ⟨r', hr'⟩)
    · rw [hclients] at hc
      exact h.snapshot c a hc

theorem quiet_goto {w w₀ : World β γ ρ} (h : Near e w w₀) {r : ρ} {s : Stage}
    (hw : (w.stage r).toWrite = none) (hs : s.toWrite = none)
    (hknown : ∀ a, s.inHand = some a → Known e w a) : Quiet e w (w₀.goto r s) :=
  quiet_of_moved h rfl rfl rfl rfl (fun r' => goto_stage w₀ r r' s) hw hs hknown

theorem quiet_emptyHanded {w w₀ : World β γ ρ} (h : Near e w w₀) {r : ρ} {s : Stage}
    (hw : (w.stage r).toWrite = none) (hs : s.toWrite = none) (hhand : s.inHand = none) :
    Quiet e w (w₀.goto r s) :=
  quiet_goto h hw hs fun a ha => by rw [hhand] at ha; cases ha

theorem quiet_transmit {w w₀ : World β γ ρ} (h : Near e w w₀) {r : ρ} (attempt : Attempt)
    (sent : Option String) (hw : (w.stage r).toWrite = none) :
    Quiet e w (w₀.transmit r attempt sent) :=
  quiet_of_moved h rfl rfl rfl rfl (fun r' => transmit_stage w₀ r r' attempt sent) hw rfl
    (fun a ha => by cases ha)

end Moves

variable [DecidableEq β] [DecidableEq γ] [DecidableEq ρ]
variable {w : World β γ ρ}

theorem session_of_behind {resolved : Option String} {auth : AuthTokens}
    (h : cloudSessionBehind (w.session e) resolved = some auth) : w.session e = some auth :=
  (Option.filter_eq_some_iff.mp h).1

theorem quiet_build (w : World β γ ρ) (c : γ) : Quiet e w (w.build e c) := by
  rw [World.build]
  split
  · refine (near_setClient (.refl w) c fun a ha => ?_).quiet
    cases ha
  · refine (near_setClient (.refl w) c fun a ha => ?_).quiet
    exact .inl (session_of_behind ha)
  · exact .refl w

theorem opening_cases (w : World β γ ρ) (r : ρ) :
    w.opening r = .ready .first ∨ w.opening r = .starting ∨ w.opening r = .idle := by
  rw [World.opening]
  split
  · exact .inl rfl
  · split
    · exact .inr (.inl rfl)
    · exact .inr (.inr rfl)

theorem quiet_begin (w : World β γ ρ) (r : ρ) : Quiet e w (w.begin r) := by
  rw [World.begin]
  split
  case isFalse => exact .refl w
  case isTrue hidle =>
    refine @quiet_of_moved β γ ρ e _ w w _ (.refl w) r (w.opening r) rfl rfl rfl rfl
      (fun r' => ?_) (by rw [hidle]; rfl) ?_ ?_
    · rw [World.stage, World.stage]
      by_cases h : r' = r
      · subst h
        simp
      · simp [h]
    · rcases opening_cases w r with h | h | h <;> rw [h] <;> rfl
    · intro a ha
      rcases opening_cases w r with h | h | h <;> rw [h] at ha <;> cases ha

theorem quiet_checkExpiry (w : World β γ ρ) (r : ρ) (now : Int) :
    Quiet e w (w.checkExpiry r now) := by
  rw [World.checkExpiry]
  split
  case h_2 => exact .refl w
  case h_1 hstage =>
    have hw : (w.stage r).toWrite = none := by rw [hstage]; rfl
    split
    · split
      · exact quiet_emptyHanded (.refl w) hw rfl rfl
      · exact quiet_emptyHanded (.refl w) hw rfl rfl
    · exact .refl w

theorem quiet_take (w : World β γ ρ) (r : ρ) : Quiet e w (w.take e r) := by
  rw [World.take]
  split
  case h_1 b attempt _ hstage =>
    have hw : (w.stage r).toWrite = none := by rw [hstage]; rfl
    split
    · exact .refl w
    · split
      · exact quiet_transmit (.refl w) _ _ hw
      · exact quiet_emptyHanded (near_setBearer w _ _) hw rfl rfl
  case h_2 c attempt _ hstage =>
    have hw : (w.stage r).toWrite = none := by rw [hstage]; rfl
    split
    · exact quiet_transmit (.refl w) _ _ hw
    · exact .refl w
  case h_3 => exact .refl w

theorem quiet_readSession (w : World β γ ρ) (r : ρ) (now : Int) :
    Quiet e w (w.readSession e r now) := by
  rw [World.readSession]
  split
  case h_1 b attempt resolved _ hstage =>
    have hw : (w.stage r).toWrite = none := by rw [hstage]; rfl
    split
    case h_1 auth hauth =>
      refine quiet_goto (.refl w) hw rfl fun a ha => ?_
      obtain rfl := Option.some.inj ha
      exact .inl (session_of_behind (Option.filter_eq_some_iff.mp hauth).1)
    case h_2 => exact quiet_transmit (near_setBearer w _ _) _ _ hw
  case h_2 b sent resolved _ hstage =>
    have hw : (w.stage r).toWrite = none := by rw [hstage]; rfl
    split
    case h_1 => exact quiet_emptyHanded (near_release w r) hw rfl rfl
    case h_2 auth hauth =>
      split
      · exact quiet_emptyHanded (near_setBearer w _ _) hw rfl rfl
      · refine quiet_goto (.refl w) hw rfl fun a ha => ?_
        obtain rfl := Option.some.inj ha
        exact .inl (session_of_behind hauth)
  case h_3 => exact .refl w

theorem quiet_answer (w : World β γ ρ) (r : ρ) : Quiet e w (w.answer e r) := by
  rw [World.answer]
  split
  case h_1 attempt sent hstage =>
    have hw : (w.stage r).toWrite = none := by rw [hstage]; rfl
    split
    · exact quiet_emptyHanded (.refl w) hw rfl rfl
    · cases attempt with
      | first => exact quiet_emptyHanded (.refl w) hw rfl rfl
      | second => exact quiet_emptyHanded (.refl w) hw rfl rfl
  case h_2 => exact .refl w

theorem quiet_refreshing {c : γ} {token : Option String} {tokens : AuthTokens} {r : ρ}
    {cause : Cause} (hclient : w.clients c = .built token (some tokens))
    (hw : (w.stage r).toWrite = none) : Quiet e w (w.goto r (.refreshing cause tokens)) := by
  refine quiet_goto (.refl w) hw rfl fun a ha => ?_
  obtain rfl := Option.some.inj ha
  exact .inr (.inr ⟨c, by rw [hclient]; rfl⟩)

theorem quiet_renew (w : World β γ ρ) (r : ρ) : Quiet e w (w.renew e r) := by
  rw [World.renew]
  split
  -- only a client takes its refresh token along; a `Bearer` reads the store first
  case h_1 b sent _ hstage =>
    have hw : (w.stage r).toWrite = none := by rw [hstage]; rfl
    cases sent with
    | none => exact quiet_emptyHanded (.refl w) hw rfl rfl
    | some sent =>
      dsimp only
      split
      · exact .refl w
      · split
        · split
          · exact quiet_emptyHanded (.refl w) hw rfl rfl
          · exact quiet_emptyHanded (.refl w) hw rfl rfl
        · exact quiet_emptyHanded (near_setBearer w _ _) hw rfl rfl
  case h_2 c sent _ hstage =>
    have hw : (w.stage r).toWrite = none := by rw [hstage]; rfl
    split
    case h_1 tokens hclient => exact quiet_refreshing hclient hw
    case h_2 => exact quiet_emptyHanded (.refl w) hw rfl rfl
    case h_3 => exact .refl w
  case h_3 c _ hstage =>
    have hw : (w.stage r).toWrite = none := by rw [hstage]; rfl
    split
    case h_1 tokens hclient => exact quiet_refreshing hclient hw
    case h_2 => exact quiet_emptyHanded (.refl w) hw rfl rfl
    case h_3 => exact .refl w
  case h_4 => exact .refl w

theorem quiet_expire (w : World β γ ρ) (t : String) : Quiet e w (w.expire e t) := by
  rw [World.expire]
  split
  · exact (@near_of_clients β γ ρ e w { w with dead := t :: w.dead } rfl rfl rfl rfl rfl).quiet
  · exact .refl w

/-- The session a holder takes over is the one in the request's hands. -/
theorem quiet_adopt (w : World β γ ρ) (r : ρ) : Quiet e w (w.adopt r) := by
  have hnear : Near e w { w with rotations := w.rotations + 1 } :=
    near_of_clients rfl rfl rfl rfl rfl
  have hbearer : ∀ b s, Near e w ({ w with rotations := w.rotations + 1 }.setBearer b s) :=
    fun b s => near_of_clients rfl rfl rfl rfl rfl
  rw [World.adopt]
  split
  case h_1 b attempt fresh _ hstage =>
    have hw : (w.stage r).toWrite = none := by rw [hstage]; rfl
    exact quiet_transmit (hbearer _ _) _ _ hw
  case h_2 b sent fresh _ hstage =>
    have hw : (w.stage r).toWrite = none := by rw [hstage]; rfl
    split
    · refine quiet_emptyHanded ?_ hw rfl rfl
      rw [World.release]
      split
      · exact hbearer _ _
      · exact hnear
    · exact quiet_emptyHanded (hbearer _ _) hw rfl rfl
  case h_3 c cause fresh _ hstage =>
    have hw : (w.stage r).toWrite = none := by rw [hstage]; rfl
    refine quiet_emptyHanded (near_setClient hnear c fun a ha => ?_) hw rfl rfl
    obtain rfl := Option.some.inj ha
    exact .inr (.inl ⟨r, by rw [hstage]; rfl⟩)
  case h_4 => exact .refl w

theorem goto_release_received (w : World β γ ρ) (r : ρ) (s : Stage) :
    ((w.release r).goto r s).received = w.received := by
  rw [World.goto, World.release]
  split <;> rfl

theorem effect_receive (w : World β γ ρ) (r : ρ) : Effect e w (.receive r) (w.receive e r) := by
  rw [World.receive]
  split
  case h_2 => exact .quiet (.refl w)
  case h_1 cause auth hstage =>
    dsimp only
    split
    case isTrue hspent =>
      exact .refused r cause auth rfl hstage hspent (goto_release_received _ _ _)
    case isFalse hunspent =>
      refine .accepted r cause auth hstage hunspent rfl rfl rfl ?_ ?_ ?_
      · rw [goto_stage, if_pos rfl]
        rfl
      · intro r' hr'
        rw [goto_stage, if_neg hr']
        rfl
      · rintro a (hstored | ⟨r', hr'⟩ | ⟨c, hc⟩)
        · exact .inl hstored
        · rw [goto_stage] at hr'
          split at hr'
          · cases hr'
          · exact .inr (.inl ⟨r', hr'⟩)
        · exact .inr (.inr ⟨c, hc⟩)

theorem effect_persist (w : World β γ ρ) (r : ρ) : Effect e w (.persist r) (w.persist r) := by
  rw [World.persist]
  split
  case h_2 => exact .quiet (.refl w)
  case h_1 cause fresh hstage =>
    refine .written r fresh (by rw [hstage]; rfl) rfl rfl rfl ?_ ?_ ?_
    · rw [goto_stage, if_pos rfl]
      rfl
    · intro r' hr'
      rw [goto_stage, if_neg hr']
      rfl
    · rintro a (hstored | ⟨r', hr'⟩ | ⟨c, hc⟩)
      · exact .inr (.inr hstored)
      · rw [goto_stage] at hr'
        split at hr'
        · exact .inr (.inl (Option.some.inj hr').symm)
        · exact .inl (.inr (.inl ⟨r', hr'⟩))
      · exact .inl (.inr (.inr ⟨c, hc⟩))

theorem effect_step (w : World β γ ρ) (label : Label γ ρ) :
    Effect e w label (step e w label) := by
  cases label with
  | build c => exact .quiet (quiet_build w c)
  | begin r => exact .quiet (quiet_begin w r)
  | checkExpiry r now => exact .quiet (quiet_checkExpiry w r now)
  | take r => exact .quiet (quiet_take w r)
  | readSession r now => exact .quiet (quiet_readSession w r now)
  | receive r => exact effect_receive w r
  | persist r => exact effect_persist w r
  | adopt r => exact .quiet (quiet_adopt w r)
  | answer r => exact .quiet (quiet_answer w r)
  | renew r => exact .quiet (quiet_renew w r)
  | expire t => exact .quiet (quiet_expire w t)

/-! ## The invariant -/

/-- No accepted rotation is to be written back: the stored session is the last one minted. -/
def AtRest (w : World β γ ρ) (k : Nat) : Prop :=
  k = w.minted ∧ ∀ r, (w.stage r).toWrite = none

/-- One is, and it is the last one minted. -/
def InFlight (e : TokenEndpoint) (w : World β γ ρ) (k : Nat) : Prop :=
  k + 1 = w.minted ∧ ∃ r, (w.stage r).toWrite = some (e.session w.minted)
    ∧ ∀ r', r' ≠ r → (w.stage r').toWrite = none

/-- The session stored is the `k`-th, nothing later is known, and the tokens of all
    before the last one minted are spent, in order. -/
structure Orderly (e : TokenEndpoint) (w : World β γ ρ) : Prop where
  stored : ∃ k, w.session e = some (e.session k) ∧ (∀ a, Known e w a → ∃ j ≤ k, a = e.session j)
    ∧ (AtRest w k ∨ InFlight e w k)
  received : w.received = (List.range w.minted).map fun k => (e.session k).refreshToken

theorem Orderly.singleUse (h : Orderly e w) : SingleUse w := by
  rw [SingleUse, h.received]
  exact List.nodup_range.map fun i j hij => e.refreshToken_inj i j hij

theorem orderly_start (cache : Cache) (holders : ρ → Holder β γ) :
    Orderly e (World.start e cache holders) := by
  have hsession : (World.start e cache holders).session e = some (e.session 0) :=
    resolveSession_updateInPlace (e.orgId_eq 0) cache
  refine ⟨⟨0, hsession, ?_, .inl ⟨rfl, fun _ => rfl⟩⟩, rfl⟩
  rintro a (hstored | ⟨r, hr⟩ | ⟨c, hc⟩)
  · rw [hsession] at hstored
    exact ⟨0, Nat.le_refl 0, (Option.some.inj hstored).symm⟩
  · cases hr
  · cases hc

theorem session_cloudOrigin (k j : Nat) :
    { e.session k with cloudOrigin := (e.session j).cloudOrigin } = e.session k := by
  rw [e.cloudOrigin_eq j, ← e.cloudOrigin_eq k]

theorem mem_received_iff (h : Orderly e w) (j : Nat) :
    (e.session j).refreshToken ∈ w.received ↔ j < w.minted := by
  rw [h.received, List.mem_map]
  constructor
  · rintro ⟨i, hi, heq⟩
    rw [← e.refreshToken_inj i j heq]
    exact List.mem_range.mp hi
  · exact fun hj => ⟨j, List.mem_range.mpr hj, rfl⟩

theorem toWrite_eq_none_iff {s : Stage} :
    s.toWrite = none ↔ ∀ cause fresh, s ≠ .persisting cause fresh := by
  constructor
  · rintro h cause fresh rfl
    cases h
  · intro h
    cases s
    case persisting cause fresh => exact absurd rfl (h cause fresh)
    all_goals rfl

/-- A token reaches the endpoint at the right time exactly when it is unspent. -/
theorem fresh_receive_iff (h : Orderly e w) {r : ρ} {cause : Cause} {auth : AuthTokens}
    (hstage : w.stage r = .refreshing cause auth) :
    Fresh e w (.receive r : Label γ ρ) ↔ auth.refreshToken ∉ w.received := by
  obtain ⟨k, hstored, hknown, hflight⟩ := h.stored
  obtain ⟨j, hj, rfl⟩ := hknown auth (.inr (.inl ⟨r, by rw [hstage]; rfl⟩))
  rw [mem_received_iff h]
  constructor
  · intro hfresh
    obtain ⟨⟨stored, hstored', htoken⟩, hrest⟩ := hfresh cause _ hstage
    rw [hstored] at hstored'
    obtain rfl := Option.some.inj hstored'
    have hkj : k = j := e.refreshToken_inj k j htoken
    rcases hflight with ⟨hk, -⟩ | ⟨-, r', hr', -⟩
    · omega
    · rw [toWrite_eq_none_iff.mpr fun cause' fresh => hrest r' cause' fresh] at hr'
      cases hr'
  · intro hunspent cause' auth' hstage'
    rw [hstage] at hstage'
    obtain ⟨rfl, rfl⟩ := Stage.refreshing.inj hstage'
    rcases hflight with ⟨hk, hnone⟩ | ⟨hk, -⟩
    · refine ⟨⟨_, hstored, ?_⟩, fun r' => toWrite_eq_none_iff.mp (hnone r')⟩
      have hkj : k = j := by omega
      rw [hkj]
    · omega

theorem orderly_of_quiet {w w' : World β γ ρ} (h : Orderly e w) (hquiet : Quiet e w w') :
    Orderly e w' := by
  obtain ⟨k, hstored, hknown, hflight⟩ := h.stored
  refine ⟨⟨k, hquiet.session.trans hstored, fun a ha => hknown a (hquiet.known a ha), ?_⟩, ?_⟩
  · simpa only [AtRest, InFlight, hquiet.minted, hquiet.toWrite] using hflight
  · rw [hquiet.received, hquiet.minted, h.received]

theorem orderly_step {label : Label γ ρ} (h : Orderly e w)
    (hfresh : Fresh e w label) : Orderly e (step e w label) := by
  cases @effect_step β γ ρ e _ _ _ w label with
  | quiet hquiet => exact orderly_of_quiet h hquiet
  | refused r cause auth isReceive stage spent received =>
    subst isReceive
    exact absurd spent ((fresh_receive_iff h stage).mp hfresh)
  | accepted r cause auth stage unspent received session minted toWrite others known =>
    obtain ⟨k, hstored, hknown, hflight⟩ := h.stored
    obtain ⟨j, hj, rfl⟩ := hknown auth (.inr (.inl ⟨r, by rw [stage]; rfl⟩))
    rw [mem_received_iff h] at unspent
    -- only the stored session is unspent, and it is the last one minted
    rcases hflight with ⟨hk, hnone⟩ | ⟨hk, -⟩
    · have hjk : j = w.minted := by omega
      subst hjk
      rw [session_cloudOrigin] at toWrite
      refine ⟨⟨k, session.trans hstored, fun a ha => hknown a (known a ha), .inr ⟨?_, r, ?_, ?_⟩⟩,
        ?_⟩
      · rw [minted, hk]
      · rw [toWrite, minted]
      · intro r' hr'
        rw [others r' hr', hnone r']
      · rw [received, minted, List.range_succ, List.map_append, List.map_singleton, h.received]
    · omega
  | written r fresh stage session minted received toWrite others known =>
    obtain ⟨k, hstored, hknown, hflight⟩ := h.stored
    rcases hflight with ⟨-, hnone⟩ | ⟨hk, r₀, hr₀, honly⟩
    · rw [hnone r] at stage
      cases stage
    · obtain rfl : r = r₀ := by
        by_contra hne
        rw [honly r hne] at stage
        cases stage
      rw [hr₀] at stage
      obtain rfl := Option.some.inj stage
      rw [resolveSession_updateInPlace (e.orgId_eq w.minted)] at session
      refine ⟨⟨w.minted, session, ?_, .inl ⟨minted.symm, ?_⟩⟩, ?_⟩
      · intro a ha
        rcases known a ha with hold | rfl | hstored'
        · obtain ⟨j, hj, rfl⟩ := hknown a hold
          exact ⟨j, by omega, rfl⟩
        · exact ⟨w.minted, Nat.le_refl _, rfl⟩
        · rw [session] at hstored'
          exact ⟨w.minted, Nat.le_refl _, (Option.some.inj hstored').symm⟩
      · intro r'
        by_cases hr' : r' = r
        · rw [hr', toWrite]
        · rw [others r' hr', honly r' hr']
      · rw [received, minted, h.received]

/-- A token that reaches the endpoint at the wrong time reaches it a second time. -/
theorem not_singleUse_of_not_fresh {label : Label γ ρ} (h : Orderly e w)
    (hfresh : ¬ Fresh e w label) : ¬ SingleUse (step e w label) := by
  cases label with
  | receive r =>
    cases hstage : w.stage r with
    | refreshing cause auth =>
      rw [fresh_receive_iff h hstage, not_not] at hfresh
      have hreceived : (w.receive e r).received = w.received ++ [auth.refreshToken] := by
        simp only [World.receive, hstage, if_pos hfresh]
        exact goto_release_received _ _ _
      rw [SingleUse]
      show ¬ (w.receive e r).received.Nodup
      rw [hreceived, List.nodup_append]
      exact fun hnodup => hnodup.2.2 _ hfresh _ (List.mem_singleton_self _) rfl
    | _ => exact absurd (fun cause auth heq => by rw [hstage] at heq; cases heq) hfresh
  | _ => exact absurd trivial hfresh

/-- No refresh token reaches the endpoint twice exactly as long as each one reaches it
    while it is stored and no accepted rotation is to be written back. -/
theorem singleUse_iff (cache : Cache) (holders : ρ → Holder β γ) (labels : List (Label γ ρ)) :
    EachState (step e) SingleUse (World.start e cache holders) labels
      ↔ EachStep (step e) (Fresh e) (World.start e cache holders) labels :=
  eachState_iff_eachStep (Orderly e) (fun _ _ h => orderly_step h) (fun _ => Orderly.singleUse)
    (fun _ _ h => not_singleUse_of_not_fresh h) (orderly_start cache holders)

end Sessions

end CloudSession
end Inkentry
