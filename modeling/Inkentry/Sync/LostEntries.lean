/-
  Inkentry.Sync.LostEntries

  What a round that went through has brought to its store.

  A pull delivers every entry that is active throughout it and sorts after the
  cursor it began with, however many pages and other clients' writes come
  between (`PullSound`); one that starts over delivers all of them.  What lies at
  or below the cursor is never asked for again, and the cursor is the largest
  remote id of any row, the rows a push has stamped included.  When the pull that
  was to follow such a push does not happen, the entries other clients stored in
  between stay shadowed, until the totals give them away or for good.
-/

import Mathlib.Data.Fintype.Basic
import Inkentry.Sync.Round

namespace Inkentry
namespace Sync

open Server Memory Cursor Runs

section

variable {Clients : Type} [DecidableEq Clients] (env : StoreEnv)

/-! ## The property -/

/-- After a round that went through: the store has every entry that was active when
    the round began and still is. -/
def HasWatched (sha : String → String) (f : Feed) (s : Store) : Phase → Prop
  | .completed watched => ∀ e ∈ f.entries, e.active = true → e.id ∈ watched →
      s.Holds sha e.toRemote
  | _ => True

instance (sha : String → String) (f : Feed) (s : Store) (phase : Phase) :
    Decidable (HasWatched sha f s phase) :=
  match phase with
  | .completed watched => inferInstanceAs (Decidable (∀ e ∈ f.entries, e.active = true →
      e.id ∈ watched → s.Holds sha e.toRemote))
  | .idle => isTrue trivial
  | .running _ => isTrue trivial

/-- No client whose last round went through is missing an entry that was active
    throughout it. -/
def NoLostEntry (w : World Clients) : Prop :=
  ∀ c, HasWatched env.sha w.server (w.clients c).store (w.clients c).phase

instance [Fintype Clients] (w : World Clients) : Decidable (NoLostEntry env w) :=
  inferInstanceAs (Decidable (∀ c,
    HasWatched env.sha w.server (w.clients c).store (w.clients c).phase))

/-- The step ends a round none of whose pulls has started over. -/
def EndsWithoutRestart (w : World Clients) (c : Clients) (r : Round) : Prop :=
  w.round c = some r ∧ r.redrained = false
    ∧ ∃ total, r.leg = .pulling true (.drained false total)
      ∧ total ≤ (w.clients c).store.count

/-- A round that ends without having started over began with nothing shadowed. -/
def RestartsOrClear (w : World Clients) : Label Clients → Prop
  | .compare c => ∀ r, EndsWithoutRestart w c r → r.shadowed = []
  | _ => True

/-- Of what was shadowed when such a round began, what is still active has reached the
    store by another way. -/
def RestartsOrRecovered (w : World Clients) : Label Clients → Prop
  | .compare c => ∀ r, EndsWithoutRestart w c r → ∀ e ∈ w.server.entries, e.active = true →
      e.id ∈ r.shadowed → (w.clients c).store.Holds env.sha e.toRemote
  | _ => True

/-! ## What a pull has delivered -/

/-- The entries a pull is to deliver: active when the round began and still, and after
    the round's cursor unless the pull starts over. -/
def Target (f : Feed) (r : Round) (restart : Bool) (id : String) : Prop :=
  f.Live id ∧ id ∈ r.watched ∧ (restart = true ∨ ¬ Passed r.cursor id)

/-- How much of its target a pull has delivered. -/
def PullSound (sha : String → String) (f : Feed) (s : Store) (r : Round) : Pull → Prop
  | .asking restart cursor => Covers (Target f r restart) (f.HeldBy sha s) cursor
  | .applying restart page rest _ =>
    (∀ e ∈ rest, f.Sends e)
    ∧ (∀ id, Target f r restart id → ∀ last ∈ page.getLast?, id ≤ last.id →
        f.HeldBy sha s id ∨ id ∈ rest.map RemoteEntry.id)
    ∧ ((page.length : Int) < memorySincePullLimit → ∀ id, Target f r restart id →
        f.HeldBy sha s id ∨ id ∈ rest.map RemoteEntry.id)
  | .drained restart _ => ∀ id, Target f r restart id → f.HeldBy sha s id

/-- What holds of a round at every step. -/
structure RoundSound (sha : String → String) (f : Feed) (s : Store) (r : Round) : Prop where
  known : ∀ id ∈ r.watched, id ∈ f.entries.map ServerEntry.id
  shadowed : ∀ id ∈ r.shadowed, id ∈ r.watched
  passed : ∀ id ∈ r.watched, f.Live id → Passed r.cursor id →
    id ∈ r.shadowed ∨ f.HeldBy sha s id
  redrained : r.redrained = true → ∀ id ∈ r.watched, f.Live id → f.HeldBy sha s id
  pull : ∀ second pull, r.leg = .pulling second pull → PullSound sha f s r pull

def PhaseSound (sha : String → String) (f : Feed) (s : Store) : Phase → Prop
  | .idle => True
  | .running r => RoundSound sha f s r
  | .completed watched => ∀ id ∈ watched, id ∈ f.entries.map ServerEntry.id

def Sound (w : World Clients) : Prop :=
  ∀ c, PhaseSound env.sha w.server (w.clients c).store (w.clients c).phase

/-! ## Other clients' steps -/

section Mono

variable {sha : String → String} {f f' : Feed} {s s' : Store} {r : Round}

/-- What was a target stays one only if it was live, and targets do not come back. -/
theorem Target.of_follows (hf : f.Follows f')
    (hknown : ∀ id ∈ r.watched, id ∈ f.entries.map ServerEntry.id) {restart : Bool} {id : String}
    (h : Target f' r restart id) : Target f r restart id :=
  ⟨hf.live id (hknown id h.2.1) h.1, h.2⟩

theorem PullSound.mono {pull : Pull} (h : PullSound sha f s r pull) (hf : f.Follows f')
    (hs : s.Keeps s') (hknown : ∀ id ∈ r.watched, id ∈ f.entries.map ServerEntry.id) :
    PullSound sha f' s' r pull := by
  cases pull with
  | asking restart cursor =>
    exact fun id hid c hc hle => (h id (hid.of_follows hf hknown) c hc hle).mono hf.ext hs
  | applying restart page rest total =>
    obtain ⟨hsent, hcovers, hshort⟩ := h
    refine ⟨fun e he => hf.ext.sends (hsent e he), ?_, ?_⟩
    · exact fun id hid last hlast hle =>
        (hcovers id (hid.of_follows hf hknown) last hlast hle).imp_left fun hheld =>
          hheld.mono hf.ext hs
    · exact fun hlen id hid =>
        (hshort hlen id (hid.of_follows hf hknown)).imp_left fun hheld => hheld.mono hf.ext hs
  | drained restart total =>
    exact fun id hid => (h id (hid.of_follows hf hknown)).mono hf.ext hs

theorem RoundSound.mono (h : RoundSound sha f s r) (hf : f.Follows f') (hs : s.Keeps s') :
    RoundSound sha f' s' r where
  known id hid := hf.ext.mem_ids (h.known id hid)
  shadowed := h.shadowed
  passed id hid hlive hpassed :=
    (h.passed id hid (hf.live id (h.known id hid) hlive) hpassed).imp_right fun hheld =>
      hheld.mono hf.ext hs
  redrained hred id hid hlive :=
    (h.redrained hred id hid (hf.live id (h.known id hid) hlive)).mono hf.ext hs
  pull second pull hleg := (h.pull second pull hleg).mono hf hs h.known

theorem PhaseSound.mono {phase : Phase} (h : PhaseSound sha f s phase) (hf : f.Follows f')
    (hs : s.Keeps s') : PhaseSound sha f' s' phase := by
  cases phase with
  | idle => trivial
  | running r => exact RoundSound.mono h hf hs
  | completed watched => exact fun id hid => hf.ext.mem_ids (h id hid)

end Mono

/-! ## A client's own steps -/

section Own

variable {sha : String → String} {f : Feed} {s : Store} {r : Round}
variable {total : Nat}

/-- A round that moves on to another leg only has its pull to answer for. -/
theorem RoundSound.setLeg (h : RoundSound sha f s r) {leg : Leg}
    (hleg : ∀ second pull, leg = .pulling second pull → PullSound sha f s r pull) :
    RoundSound sha f s { r with leg := leg } where
  known := h.known
  shadowed := h.shadowed
  passed := h.passed
  redrained := h.redrained
  pull second pull heq := by
    have hpull := hleg second pull heq
    cases pull <;> exact hpull

/-- A pull that has just begun owes everything after its cursor. -/
theorem covers_begin : Covers (Target f r false) (f.HeldBy sha s) r.cursor := by
  rintro id ⟨-, -, hscope⟩ c hc hle
  rcases hscope with hfalse | hahead
  · exact absurd hfalse (by simp)
  · exact absurd ⟨c, hc, hle⟩ hahead

theorem RoundSound.confirm (h : RoundSound sha f s r) : RoundSound sha f s r.confirm := by
  refine h.setLeg fun second pull heq => ?_
  obtain ⟨-, rfl⟩ := Leg.pulling.inj heq
  exact covers_begin

theorem roundSound_begin (sha : String → String) (f : Feed) (s : Store) :
    RoundSound sha f s (beginRound sha f s) where
  known id hid := by
    obtain ⟨e, he, rfl⟩ := List.mem_map.mp hid
    exact List.mem_map_of_mem (List.mem_filter.mp he).1
  shadowed id hid := by
    obtain ⟨e, he, rfl⟩ := List.mem_map.mp hid
    obtain ⟨hmem, hprop⟩ := List.mem_filter.mp he
    simp only [Bool.and_eq_true] at hprop
    exact List.mem_map_of_mem (List.mem_filter.mpr ⟨hmem, hprop.1.1⟩)
  passed id _ hlive hpassed := by
    obtain ⟨e, he, hact, rfl⟩ := hlive
    by_cases hholds : s.Holds sha e.toRemote
    · exact .inr ⟨e, he, rfl, hholds⟩
    · have hpassed' : Passed s.maxRemoteId e.id := hpassed
      exact .inl (List.mem_map_of_mem (List.mem_filter.mpr ⟨he, by simp [hact, hholds, hpassed']⟩))
  redrained hred := absurd hred (by simp [beginRound])
  pull second pull heq := by
    unfold beginRound at heq
    dsimp only at heq
    split at heq
    · exact absurd heq (by simp)
    · obtain ⟨-, rfl⟩ := Leg.pulling.inj heq
      exact covers_begin

/-- The server answers: the page holds all of the target up to its end, and all of it
    when it is short. -/
theorem pullSound_request {restart : Bool} {cursor : Option String} (total : Nat)
    (h : PullSound sha f s r (.asking restart cursor)) :
    PullSound sha f s r (.applying restart (f.pullSince cursor) (f.pullSince cursor) total) := by
  have hgap := f.gapFree_pullSince (fun _ hid => hid.1) h
  refine ⟨fun e he => mem_pullSince he, fun id hid last hlast hle => ?_, fun hshort id hid => ?_⟩
  · exact hgap id hid last.id (List.mem_map_of_mem (List.mem_of_getLast? hlast)) hle
  · by_cases hpassed : Passed cursor id
    · obtain ⟨c, hc, hle⟩ := hpassed
      exact .inl (h id hid c hc hle)
    · exact .inr (f.mem_pullSince_of_short hshort hid.1 hpassed)

/-- The next entry of the page is applied. -/
theorem pullSound_apply {env : StoreEnv} {s' : Store} {uuid : NoteId} {restart inserted : Bool}
    {page rest : List RemoteEntry} {e : RemoteEntry}
    (h : PullSound env.sha f s r (.applying restart page (e :: rest) total))
    (hs' : s.applyRemoteNote env uuid e = some (inserted, s')) :
    PullSound env.sha f s' r (.applying restart page rest total) := by
  obtain ⟨hsent, hcovers, hshort⟩ := h
  have hkeep := Store.keeps_applyRemoteNote hs'
  have hheld : f.HeldBy env.sha s' e.id :=
    (hsent e List.mem_cons_self).heldBy (Store.holds_applyRemoteNote hs')
  -- what was held stays held, and the entry just applied is held now
  have hnext {id : String} (hid : f.HeldBy env.sha s id ∨ id ∈ (e :: rest).map RemoteEntry.id) :
      f.HeldBy env.sha s' id ∨ id ∈ rest.map RemoteEntry.id := by
    rcases hid with hold | hmem
    · exact .inl (hold.mono (.refl f) hkeep)
    · rcases List.mem_cons.mp hmem with rfl | htail
      · exact .inl hheld
      · exact .inr htail
  exact ⟨fun e' he' => hsent e' (List.mem_cons_of_mem _ he'),
    fun id hid last hlast hle => hnext (hcovers id hid last hlast hle),
    fun hlen id hid => hnext (hshort hlen id hid)⟩

/-- The page is done: it was the last one, or the pull goes on after its end. -/
theorem pullSound_turnPage {restart : Bool} {page : List RemoteEntry}
    (h : PullSound sha f s r (.applying restart page [] total)) :
    PullSound sha f s r
      (if (page.length : Int) < memorySincePullLimit then .drained restart total
        else .asking restart (page.getLast?.map RemoteEntry.id)) := by
  obtain ⟨-, hcovers, hshort⟩ := h
  split
  case isTrue hlen => exact fun id hid => (hshort hlen id hid).resolve_right (by simp)
  case isFalse =>
    intro id hid c hc hle
    obtain ⟨last, hlast, rfl⟩ := Option.map_eq_some_iff.mp hc
    exact (hcovers id hid last hlast hle).resolve_right (by simp)

theorem phaseSound_endPull {second restart : Bool} (h : RoundSound sha f s r)
    (hdrained : PullSound sha f s r (.drained restart total)) (count : Nat) :
    PhaseSound sha f s (endPull r count second restart total) := by
  unfold endPull
  split
  · refine h.setLeg fun second' pull heq => ?_
    obtain ⟨-, rfl⟩ := Leg.pulling.inj heq
    exact covers_none
  · split
    · exact h.known
    · refine ⟨h.known, h.shadowed, h.passed, fun hred id hid hlive => ?_, by simp⟩
      rcases Bool.or_eq_true _ _ ▸ hred with hold | hrestart
      · exact h.redrained hold id hid hlive
      · exact hdrained id ⟨hlive, hid, .inl hrestart⟩

end Own

/-! ## Every run keeps rounds sound -/

variable {env}
variable {w : World Clients}
variable {c : Clients}

omit [DecidableEq Clients] in
theorem phase_of_round {r : Round} (h : w.round c = some r) : (w.clients c).phase = .running r := by
  unfold World.round at h
  split at h
  case h_1 r' hphase => rw [hphase, Option.some.inj h]
  case h_2 => exact absurd h (by simp)

theorem Sound.round (h : Sound env w) {r : Round}
    (hr : w.round c = some r) : RoundSound env.sha w.server (w.clients c).store r := by
  have hphase := h c
  rw [phase_of_round hr] at hphase
  exact hphase

omit [DecidableEq Clients] in
theorem Sound.server (h : Sound env w) {f : Feed} (hf : w.server.Follows f) :
    Sound env { w with server := f } := fun c => (h c).mono hf (.refl _)

theorem Sound.set (h : Sound env w) {client : Client}
    (hc : PhaseSound env.sha w.server client.store client.phase) : Sound env (w.set c client) := by
  intro c'
  by_cases hcc : c' = c
  · subst hcc
    simpa [World.set] using hc
  · simpa [World.set, hcc] using h c'

theorem Sound.setPhase (h : Sound env w) {phase : Phase}
    (hc : PhaseSound env.sha w.server (w.clients c).store phase) : Sound env (w.setPhase c phase) :=
  h.set hc

theorem keeps_stampResult {s s' : Store} {chunk : List Note} {result : BatchItemResult}
    (h : stampResult s chunk result = some s') : s.Keeps s' := by
  unfold stampResult at h
  split at h
  · split at h
    · exact Store.keeps_setRemoteId h
    · rw [Option.some.inj h]
      exact .refl s'
  · rw [Option.some.inj h]
    exact .refl s'

theorem sound_request (h : Sound env w) (c : Clients) : Sound env (w.request c) := by
  unfold World.request
  split
  case h_1 r hr =>
    split
    case h_1 second restart cursor hleg =>
      refine h.setPhase ((h.round hr).setLeg fun second' pull heq => ?_)
      obtain ⟨-, rfl⟩ := Leg.pulling.inj heq
      exact pullSound_request _ ((h.round hr).pull second _ hleg)
    case h_2 => exact h
  case h_2 => exact h

theorem sound_apply (h : Sound env w) (c : Clients) (uuid : NoteId) :
    Sound env (w.apply env c uuid) := by
  unfold World.apply
  split
  case h_1 r hr =>
    split
    case h_1 second restart page e rest total hleg =>
      split
      case h_1 inserted s' hs' =>
        have hround := (h.round hr).mono (.refl _) (Store.keeps_applyRemoteNote hs')
        refine h.set (hround.setLeg fun second' pull heq => ?_)
        obtain ⟨-, rfl⟩ := Leg.pulling.inj heq
        exact pullSound_apply ((h.round hr).pull second _ hleg) hs'
      case h_2 => exact h.setPhase trivial
    case h_2 => exact h
  case h_2 => exact h

theorem sound_turnPage (h : Sound env w) (c : Clients) : Sound env (w.turnPage c) := by
  unfold World.turnPage
  split
  case h_1 r hr =>
    split
    case h_1 second restart page total hleg =>
      refine h.setPhase ((h.round hr).setLeg fun second' pull heq => ?_)
      obtain ⟨-, rfl⟩ := Leg.pulling.inj heq
      exact pullSound_turnPage ((h.round hr).pull second _ hleg)
    case h_2 => exact h
  case h_2 => exact h

theorem sound_compare (h : Sound env w) (c : Clients) : Sound env (w.compare c) := by
  unfold World.compare
  split
  case h_1 r hr =>
    split
    case h_1 second restart total hleg =>
      exact h.setPhase (phaseSound_endPull (h.round hr) ((h.round hr).pull second _ hleg) _)
    case h_2 => exact h
  case h_2 => exact h

theorem sound_push (h : Sound env w) {r : Round} (hr : w.round c = some r) {leg : Leg}
    (hleg : ∀ second pull, leg ≠ .pulling second pull) :
    Sound env (w.setPhase c (.running { r with leg := leg })) :=
  h.setPhase ((h.round hr).setLeg fun second pull heq => absurd heq (hleg second pull))

theorem sound_confirm (h : Sound env w) {r : Round}
    (hr : w.round c = some r) : Sound env (w.setPhase c (.running r.confirm)) :=
  h.setPhase (h.round hr).confirm

theorem sound_send (h : Sound env w) (c : Clients) (now : Int) (minted : Nat → SyncId)
    (answered : Bool) : Sound env (w.send c now minted answered) := by
  unfold World.send
  split
  case h_1 r hr =>
    split
    case h_1 chunk chunks _ =>
      have hserver := h.server (w.server.follows_pushMemoryBatch now
        (chunk.mapIdx fun i n => (minted i, pushedRow n)))
      dsimp only
      split
      · exact sound_push hserver hr (by simp)
      · exact sound_confirm hserver hr
    case h_2 => exact h
  case h_2 => exact h

theorem sound_stamp (h : Sound env w) (c : Clients) : Sound env (w.stamp c) := by
  unfold World.stamp
  split
  case h_1 r hr =>
    split
    · split
      case h_1 s' hs' =>
        have hround := (h.round hr).mono (.refl _) (keeps_stampResult hs')
        exact h.set (hround.setLeg fun second pull heq => absurd heq (by simp))
      case h_2 => exact h.setPhase trivial
    · exact sound_push h hr (by simp)
    · exact h
  case h_2 => exact h

theorem sound_step (h : Sound env w) (l : Label Clients) : Sound env (step env w l) := by
  -- the steps of a round that need an argument have a lemma of their own
  cases l with
  | arrive e =>
    show Sound env { w with server := (w.server.insert e).getD w.server }
    cases hins : w.server.insert e with
    | none => exact h
    | some f => exact h.server (Feed.follows_insert hins)
  | archiveRemote id => exact h.server (w.server.follows_archive id)
  | write c op => exact h.set ((h c).mono (.refl _) (keeps_applyWrite env _ op))
  | begin c =>
    show Sound env (w.begin env c)
    unfold World.begin
    split
    · exact h
    · exact h.setPhase (roundSound_begin _ _ _)
  | request c => exact sound_request h c
  | apply c uuid => exact sound_apply h c uuid
  | turnPage c => exact sound_turnPage h c
  | compare c => exact sound_compare h c
  | readRows c =>
    show Sound env (w.readRows c)
    unfold World.readRows
    split
    case h_1 r hr =>
      split
      · exact sound_push h hr (by simp)
      · exact h
    case h_2 => exact h
  | send c now minted answered => exact sound_send h c now minted answered
  | sendLost c =>
    show Sound env (w.sendLost c)
    unfold World.sendLost
    split
    case h_1 r hr =>
      split
      · exact sound_confirm h hr
      · exact h
    case h_2 => exact h
  | stamp c => exact sound_stamp h c
  | endPush c =>
    show Sound env (w.endPush c)
    unfold World.endPush
    split
    case h_1 r hr =>
      split
      · exact sound_confirm h hr
      · exact h
    case h_2 => exact h
  | cutOff c => exact h.setPhase trivial

/-! ## Where a round ends -/

variable {l : Label Clients}

theorem clients_set (w : World Clients) (c c' : Clients) (client : Client) :
    (w.set c client).clients c' = if c' = c then client else w.clients c' := by
  by_cases hcc : c' = c
  · subst hcc
    simp [World.set]
  · simp [World.set, hcc]

/-- What a step does to a client: its store keeps what it has, and its phase stays,
    is not that of a round that went through, or is the end of a pull. -/
structure ClientFollows (w : World Clients) (l : Label Clients) (c : Clients)
    (client : Client) : Prop where
  keeps : (w.clients c).store.Keeps client.store
  phase : client.phase = (w.clients c).phase ∨ (∀ watched, client.phase ≠ .completed watched)
    ∨ l = .compare c ∧ client.store = (w.clients c).store ∧ ∃ r second restart total,
        w.round c = some r ∧ r.leg = .pulling second (.drained restart total)
          ∧ client.phase = endPull r (w.clients c).store.count second restart total

omit [DecidableEq Clients] in
theorem ClientFollows.refl (w : World Clients) (l : Label Clients) (c : Clients) :
    ClientFollows w l c (w.clients c) := ⟨.refl _, .inl rfl⟩

/-- A client that a step sets: itself as described, the others as they were. -/
theorem ClientFollows.set {w w₁ : World Clients} {c c' : Clients} {client : Client}
    (hw : w₁.clients = w.clients) (h : ClientFollows w l c client) :
    ClientFollows w l c' ((w₁.set c client).clients c') := by
  rw [clients_set, hw]
  split
  case isTrue hcc => rwa [hcc]
  case isFalse => exact .refl w l c'

theorem ClientFollows.running {w w₁ : World Clients} {c c' : Clients} {s : Store} {r : Round}
    (hw : w₁.clients = w.clients) (hs : (w.clients c).store.Keeps s) :
    ClientFollows w l c' ((w₁.set c ⟨s, .running r⟩).clients c') :=
  .set hw ⟨hs, .inr (.inl (by simp))⟩

theorem ClientFollows.idle {c c' : Clients} :
    ClientFollows w l c' ((w.setPhase c .idle).clients c') :=
  .set rfl ⟨.refl _, .inr (.inl (by simp))⟩

theorem client_step (env : StoreEnv) (w : World Clients) (l : Label Clients) (c : Clients) :
    ClientFollows w l c ((step env w l).clients c) := by
  -- a step moves one client; only the end of a pull can complete its round
  cases l with
  | arrive e => exact .refl w _ c
  | archiveRemote id => exact .refl w _ c
  | write c' op => exact .set rfl ⟨keeps_applyWrite env _ op, .inl rfl⟩
  | begin c' =>
    show ClientFollows w _ c ((w.begin env c').clients c)
    unfold World.begin
    split
    · exact .refl w _ c
    · exact .running rfl (.refl _)
  | request c' =>
    show ClientFollows w _ c ((w.request c').clients c)
    unfold World.request
    split
    · split
      · exact .running rfl (.refl _)
      · exact .refl w _ c
    · exact .refl w _ c
  | apply c' uuid =>
    show ClientFollows w _ c ((w.apply env c' uuid).clients c)
    unfold World.apply
    split
    · split
      · split
        case h_1 hs' => exact .running rfl (Store.keeps_applyRemoteNote hs')
        case h_2 => exact .idle
      · exact .refl w _ c
    · exact .refl w _ c
  | turnPage c' =>
    show ClientFollows w _ c ((w.turnPage c').clients c)
    unfold World.turnPage
    split
    · split
      · exact .running rfl (.refl _)
      · exact .refl w _ c
    · exact .refl w _ c
  -- the one step that may complete a round
  | compare c' =>
    show ClientFollows w _ c ((w.compare c').clients c)
    unfold World.compare
    split
    case h_1 r hr =>
      split
      case h_1 second restart total hleg =>
        rw [World.setPhase, clients_set]
        split
        case isTrue hcc =>
          subst hcc
          exact ⟨.refl _, .inr (.inr ⟨rfl, rfl, r, second, restart, total, hr, hleg, rfl⟩)⟩
        case isFalse => exact .refl w _ c
      case h_2 => exact .refl w _ c
    case h_2 => exact .refl w _ c
  | readRows c' =>
    show ClientFollows w _ c ((w.readRows c').clients c)
    unfold World.readRows
    split
    · split
      · exact .running rfl (.refl _)
      · exact .refl w _ c
    · exact .refl w _ c
  | send c' now minted answered =>
    show ClientFollows w _ c ((w.send c' now minted answered).clients c)
    unfold World.send
    split
    · split
      · dsimp only
        split
        · exact .running rfl (.refl _)
        · exact .running rfl (.refl _)
      · exact .refl w _ c
    · exact .refl w _ c
  | sendLost c' =>
    show ClientFollows w _ c ((w.sendLost c').clients c)
    unfold World.sendLost
    split
    · split
      · exact .running rfl (.refl _)
      · exact .refl w _ c
    · exact .refl w _ c
  | stamp c' =>
    show ClientFollows w _ c ((w.stamp c').clients c)
    unfold World.stamp
    split
    · split
      · split
        case h_1 hs' => exact .running rfl (keeps_stampResult hs')
        case h_2 => exact .idle
      · exact .running rfl (.refl _)
      · exact .refl w _ c
    · exact .refl w _ c
  | endPush c' =>
    show ClientFollows w _ c ((w.endPush c').clients c)
    unfold World.endPush
    split
    · split
      · exact .running rfl (.refl _)
      · exact .refl w _ c
    · exact .refl w _ c
  | cutOff c' => exact .idle

theorem server_eq (harrive : ∀ e, l ≠ .arrive e) (harchive : ∀ id, l ≠ .archiveRemote id)
    (hsend : ∀ c now minted answered, l ≠ .send c now minted answered) :
    (step env w l).server = w.server := by
  -- every other step writes a client only
  cases l with
  | arrive e => exact absurd rfl (harrive e)
  | archiveRemote id => exact absurd rfl (harchive id)
  | send c now minted answered => exact absurd rfl (hsend c now minted answered)
  | write c op => rfl
  | cutOff c => rfl
  | begin c => simp only [step]; unfold World.begin; split <;> rfl
  | request c => simp only [step]; unfold World.request; split <;> (try split) <;> rfl
  | apply c uuid =>
    simp only [step]
    unfold World.apply
    split
    · split
      · split <;> rfl
      · rfl
    · rfl
  | turnPage c => simp only [step]; unfold World.turnPage; split <;> (try split) <;> rfl
  | compare c => simp only [step]; unfold World.compare; split <;> (try split) <;> rfl
  | readRows c => simp only [step]; unfold World.readRows; split <;> (try split) <;> rfl
  | sendLost c => simp only [step]; unfold World.sendLost; split <;> (try split) <;> rfl
  | stamp c =>
    simp only [step]
    unfold World.stamp
    split
    · split
      · split <;> rfl
      · rfl
      · rfl
    · rfl
  | endPush c => simp only [step]; unfold World.endPush; split <;> (try split) <;> rfl

theorem server_follows (w : World Clients) (l : Label Clients) :
    w.server.Follows (step env w l).server := by
  cases l with
  | arrive e =>
    show w.server.Follows ((w.server.insert e).getD w.server)
    cases hins : w.server.insert e with
    | none => exact .refl _
    | some f => exact Feed.follows_insert hins
  | archiveRemote id => exact w.server.follows_archive id
  | send c now minted answered =>
    simp only [step]
    unfold World.send
    split
    · split
      · dsimp only
        split <;> exact w.server.follows_pushMemoryBatch now _
      · exact .refl _
    · exact .refl _
  | _ =>
    rw [server_eq (by simp) (by simp) (by simp)]
    exact .refl _

/-! ## What a finished round has -/

theorem HasWatched.mono {sha : String → String} {f f' : Feed} {s s' : Store} {phase : Phase}
    (h : HasWatched sha f s phase) (hsound : PhaseSound sha f s phase) (hf : f.Follows f')
    (hs : s.Keeps s') : HasWatched sha f' s' phase := by
  cases phase with
  | idle => trivial
  | running r => trivial
  | completed watched =>
    intro e he hact hwatched
    obtain ⟨e₀, he₀, hact₀, hid⟩ := hf.live e.id (hsound e.id hwatched) ⟨e, he, hact, rfl⟩
    have hholds := h e₀ he₀ hact₀ (hid ▸ hwatched)
    have hheld : f.HeldBy sha s e.id := ⟨e₀, he₀, hid, hholds⟩
    exact (hheld.mono hf.ext hs).holds he

/-- The end of a pull, when it ends the round: the store has all that the round
    watched exactly when the round started over, or what was shadowed has reached the
    store by another way. -/
theorem hasWatched_endPull {sha : String → String} {f : Feed} {s : Store} {r : Round}
    {second restart : Bool} {total : Nat} (h : RoundSound sha f s r)
    (hdrained : PullSound sha f s r (.drained restart total))
    (hrecovered : second = true → restart = false → total ≤ s.count → r.redrained = false →
      ∀ e ∈ f.entries, e.active = true → e.id ∈ r.shadowed → s.Holds sha e.toRemote) :
    HasWatched sha f s (endPull r s.count second restart total) := by
  unfold endPull
  split
  case isTrue => trivial
  case isFalse hgo =>
    split
    case isFalse => trivial
    case isTrue hsecond =>
      intro e he hact hwatched
      have hlive : f.Live e.id := ⟨e, he, hact, rfl⟩
      cases hrestart : restart with
      | true => exact (hdrained e.id ⟨hlive, hwatched, .inl hrestart⟩).holds he
      | false =>
        cases hred : r.redrained with
        | true => exact (h.redrained hred e.id hwatched hlive).holds he
        | false =>
          by_cases hpassed : Passed r.cursor e.id
          · rcases h.passed e.id hwatched hlive hpassed with hshadowed | hheld
            · have htotal : total ≤ s.count := by
                rw [hrestart] at hgo
                simpa using hgo
              exact hrecovered hsecond hrestart htotal hred e he hact hshadowed
            · exact hheld.holds he
          · exact (hdrained e.id ⟨hlive, hwatched, .inr hpassed⟩).holds he

/-- A step keeps every finished round complete, unless it ends one that has neither
    started over nor recovered what was shadowed. -/
theorem noLostEntry_step_iff (h : Sound env w) (hlost : NoLostEntry env w) :
    NoLostEntry env (step env w l) ↔ RestartsOrRecovered env w l := by
  constructor
  · intro hlost'
    cases l with
    -- the step that completes a round: a count that fits hides what was passed by
    | compare c =>
      rintro r ⟨hr, hred, total, hleg, htotal⟩ e he hact hshadowed
      have hend : (step env w (.compare c)).clients c
          = ⟨(w.clients c).store, .completed r.watched⟩ := by
        have hgo : ¬ (w.clients c).store.count < total := by omega
        simp only [step, World.compare, hr, hleg, World.setPhase, clients_set, endPull, true_and,
          if_neg hgo, if_true]
      have hserver : (step env w (.compare c)).server = w.server :=
        server_eq (by simp) (by simp) (by simp)
      have hwatched := hlost' c
      rw [hend, hserver] at hwatched
      exact hwatched e he hact ((h.round hr).shadowed e.id hshadowed)
    | _ => trivial
  · intro hgood c
    obtain ⟨hkeeps, hphase⟩ := client_step env w l c
    rcases hphase with hsame | hnot | ⟨rfl, hstore, r, second, restart, total, hr, hleg, hphase⟩
    · rw [hsame]
      exact (hlost c).mono (h c) (server_follows w l) hkeeps
    · unfold HasWatched
      split
      case h_1 watched hcompleted => exact absurd hcompleted (hnot watched)
      case h_2 => trivial
    · have hserver : (step env w (.compare c)).server = w.server :=
        server_eq (by simp) (by simp) (by simp)
      rw [hserver, hstore, hphase]
      refine hasWatched_endPull (h.round hr) ((h.round hr).pull second _ hleg) ?_
      rintro rfl rfl htotal hred
      exact hgood r ⟨hr, hred, total, hleg, htotal⟩

/-! ## Over runs -/

/-- No round under way; the server and the stores as they may be. -/
def World.start (server : Feed) (stores : Clients → Store) : World Clients :=
  ⟨server, fun c => ⟨stores c, .idle⟩⟩

/-- Over a run of any number of clients, no round that goes through loses an entry when
    every one of them starts over or began with nothing shadowed; and it loses none
    exactly when every one of them starts over or has what was shadowed and is still
    active by the time it ends. -/
theorem noLostEntry_iff (server : Feed) (stores : Clients → Store) (labels : List (Label Clients)) :
    (EachStep (step env) RestartsOrClear (World.start server stores) labels →
      EachState (step env) (NoLostEntry env) (World.start server stores) labels)
    ∧ (EachState (step env) (NoLostEntry env) (World.start server stores) labels
      ↔ EachStep (step env) (RestartsOrRecovered env) (World.start server stores) labels) := by
  have hiff : EachState (step env) (NoLostEntry env) (World.start server stores) labels
      ↔ EachStep (step env) (RestartsOrRecovered env) (World.start server stores) labels := by
    refine eachState_iff_eachStep (fun w => Sound env w ∧ NoLostEntry env w) ?_ ?_ ?_ ?_
    · exact fun w l hw hgood => ⟨sound_step hw.1 l, (noLostEntry_step_iff hw.1 hw.2).mpr hgood⟩
    · exact fun w hw => hw.2
    · exact fun w l hw hbad hlost => hbad ((noLostEntry_step_iff hw.1 hw.2).mp hlost)
    · exact ⟨fun c => trivial, fun c => trivial⟩
  refine ⟨fun hclear => hiff.mpr (hclear.imp _ fun w l hl => ?_), hiff⟩
  cases l with
  | compare c =>
    intro r hr e he hact hshadowed
    rw [hl r hr] at hshadowed
    exact absurd hshadowed (by simp)
  | _ => trivial

end

/-! ## A confirmation pull that did not happen -/

/-- The ids the server mints, in order of arrival. -/
def firstId : SyncId := ⟨"01890000-0000-7000-8000-000000000011", by decide⟩

def secondId : SyncId := ⟨"01890000-0000-7000-8000-000000000012", by decide⟩

def thirdId : SyncId := ⟨"01890000-0000-7000-8000-000000000013", by decide⟩

/-- A row a client adds. -/
def addRow (uuid : String) : LocalWrite := .add ⟨uuid⟩ 0 ⟨"decision", uuid, "", [], [], none, none⟩

/-- The first client syncs a row; its next round pulls, the second client pushes, the
    first pushes and is cut off before it has pulled again.  The first row is then
    archived on the server, which evens the totals out, and the first client's next
    round goes through. -/
def pushedInBetween : List (Label Bool) :=
  [.write true (addRow "a1"), .begin true, .readRows true, .send true 1 (fun _ => firstId) true,
    .stamp true, .stamp true, .endPush true, .request true, .apply true ⟨"x"⟩, .turnPage true,
    .compare true,
    .write true (addRow "a2"), .begin true, .request true, .turnPage true, .compare true,
    .write false (addRow "b1"), .begin false, .readRows false,
    .send false 2 (fun _ => secondId) true, .cutOff false,
    .readRows true, .send true 3 (fun _ => thirdId) true, .stamp true, .cutOff true,
    .archiveRemote firstId.token,
    .begin true, .request true, .turnPage true, .compare true, .readRows true, .endPush true,
    .request true, .turnPage true, .compare true]

/-- The server and two clients, with nothing on them. -/
def twoClients : World Bool := .start Feed.empty fun _ => Store.empty

theorem not_noLostEntry_of_cutOff :
    ¬ EachState (step plainEnv) (NoLostEntry plainEnv) twoClients pushedInBetween := by
  have hnot : ¬ NoLostEntry plainEnv (run (step plainEnv) twoClients pushedInBetween) := by
    decide +kernel
  intro h
  exact hnot (@EachState.last _ _ (step plainEnv) (NoLostEntry plainEnv) twoClients _ h)

end Sync
end Inkentry
