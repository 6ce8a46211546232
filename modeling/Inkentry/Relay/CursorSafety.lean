/-
  Inkentry.Relay.CursorSafety

  What the session's cursor has passed is buffered, or a local store has it.

  Two things move the cursor.  A catch-up moves it past entries it has just
  buffered, whatever arrives meanwhile (`Sound`, which every run keeps).  A
  registration moves it to the largest remote id of the registering store, and
  that store also learned ids by pushing: between the last entry it pulled and
  the last it pushed there may be entries of other machines that neither the
  session nor any store ever saw.  So the cursor is safe exactly as long as no
  registration carries it past such an entry (`cursorSafe_iff`).
-/

import Mathlib.Data.Fintype.Basic
import Inkentry.Lib.Cursor
import Inkentry.Relay.World

namespace Inkentry
namespace Relay

open Server Memory Runs Cursor

section

variable {Proc Db : Type} [DecidableEq Proc] [DecidableEq Db] (env : StoreEnv) (db : Proc → Db)

/-! ## The property -/

/-- Every active entry at or below the cursor is buffered, or a local store has it. -/
def CursorSafe (w : World Proc Db) : Prop :=
  ∀ s ∈ w.session, ∀ e ∈ w.server.entries, e.active = true → Passed s.cursor e.id →
    s.Buffers e.id ∨ ∃ d, (w.stores d).Holds env.sha e.toRemote

/-- The cursor of the session, if there is one. -/
def World.cursor (w : World Proc Db) : Option String := w.session.bind RelayInner.cursor

/-- The active entries a step's cursor moves past are in the buffer then. -/
def PassesOnlyPulled (w w' : World Proc Db) : Prop :=
  ∀ s' ∈ w'.session, ∀ e ∈ w'.server.entries, e.active = true → Passed s'.cursor e.id →
    ¬ Passed w.cursor e.id → s'.Buffers e.id

/-- An active entry lies between the session's cursor and the one a process is
    about to register. -/
def SeedPasses (w : World Proc Db) (p : Proc) (e : ServerEntry) : Prop :=
  e.active = true ∧ ¬ Passed w.cursor e.id ∧ Passed (w.clis p).sinceCursor e.id

/-- A registration carries the cursor past buffered entries only. -/
def SeedPulled (w : World Proc Db) : Label Proc Db → Prop
  | .register p => ∀ e ∈ w.server.entries, SeedPasses w p e →
      (w.session.getD .new).Buffers e.id
  | _ => True

/-- A registration carries the cursor past nothing that is neither buffered nor
    applied. -/
def SeedCovered (w : World Proc Db) : Label Proc Db → Prop
  | .register p => ∀ e ∈ w.server.entries, SeedPasses w p e →
      (w.session.getD .new).Buffers e.id ∨ ∃ d, (w.stores d).Holds env.sha e.toRemote
  | _ => True

/-- The page a catch-up is about to buffer. -/
def RelayInner.page (s : RelayInner) : List RemoteEntry :=
  match s.catchUp with
  | .answered page => page
  | _ => []

/-- An id sorts after the cursor and after the page in flight. -/
def RelayInner.Ahead (s : RelayInner) (id : String) : Prop :=
  (∀ c ∈ s.cursor, c < id) ∧ ∀ e ∈ s.page, e.id < id

/-- Entries that become active on the server sort ahead of the session, as freshly
    minted ids do. -/
def ArrivesAhead (w : World Proc Db) (l : Label Proc Db) : Prop :=
  ∀ e ∈ (step env db w l).server.entries, e.active = true →
    e ∈ w.server.entries ∨ ∀ s ∈ w.session, s.Ahead e.id

/-! ## The session's own catch-ups -/

variable {s : RelayInner}
variable {since : Option String} {e : ServerEntry}
variable {f : Feed}

/-- What the session has buffered, and is about to buffer, comes from the server,
    and a page skips nothing but what the cursor has passed. -/
structure SessionSound (f : Feed) (s : RelayInner) : Prop where
  pulledSent : ∀ e ∈ s.pulled, f.Sends e
  pageSent : ∀ e ∈ s.page, f.Sends e
  pageSorted : s.page.Pairwise fun a b => a.id < b.id
  pageGapFree : GapFree f.Live (Passed s.cursor) (s.page.map RemoteEntry.id)
  askedPassed : ∀ c, s.catchUp = .asked (some c) → Passed s.cursor c

/-- What the processes hold comes from the server, and what they are about to
    acknowledge is applied. -/
structure CliSound (w : World Proc Db) (p : Proc) : Prop where
  pullsSent : ∀ e ∈ (w.clis p).pulls, w.server.Sends e
  ackedHeld : ∀ id ∈ (w.clis p).ackedPullIds, w.Has env (db p) id

structure Sound (w : World Proc Db) : Prop where
  session : ∀ s ∈ w.session, SessionSound w.server s
  clis : ∀ p, CliSound env db w p

theorem page_of_catchUp {s s' : RelayInner} (h : s'.catchUp = s.catchUp) : s'.page = s.page := by
  simp only [RelayInner.page, h]

theorem page_eq_nil (h : ∀ page, s.catchUp ≠ .answered page) : s.page = [] := by
  unfold RelayInner.page
  split
  case h_1 page hpage => exact absurd hpage (h page)
  case h_2 => rfl

theorem sessionSound_of_page_nil (hpulled : ∀ e ∈ s.pulled, f.Sends e) (hpage : s.page = [])
    (hasked : ∀ c, s.catchUp = .asked (some c) → Passed s.cursor c) :
    SessionSound f s where
  pulledSent := hpulled
  pageSent := by simp [hpage]
  pageSorted := by simp [hpage]
  pageGapFree := by
    intro x _ y hy
    simp [hpage] at hy
  askedPassed := hasked

theorem SessionSound.arrive {f f' : Feed} (h : SessionSound f s) (hext : f.Extends f')
    (hnew : ∀ e ∈ f'.entries, e.active = true → e ∈ f.entries ∨ s.Ahead e.id) :
    SessionSound f' s where
  pulledSent e he := hext.sends (h.pulledSent e he)
  pageSent e he := hext.sends (h.pageSent e he)
  pageSorted := h.pageSorted
  pageGapFree := by
    refine h.pageGapFree.arrive ?_
    rintro x ⟨e, he, hact, rfl⟩
    rcases hnew e he hact with hold | hahead
    · exact .inl ⟨e, hold, hact, rfl⟩
    · refine .inr (.inr fun y hy => ?_)
      obtain ⟨r, hr, rfl⟩ := List.mem_map.mp hy
      exact hahead.2 r hr
  askedPassed := h.askedPassed

theorem SessionSound.mono {s s' : RelayInner} (h : SessionSound f s)
    (hcursor : ∀ x, Passed s.cursor x → Passed s'.cursor x)
    (hpulled : ∀ e ∈ s'.pulled, e ∈ s.pulled) (hcatch : s'.catchUp = s.catchUp) :
    SessionSound f s' where
  pulledSent e he := h.pulledSent e (hpulled e he)
  pageSent := by
    rw [page_of_catchUp hcatch]
    exact h.pageSent
  pageSorted := by
    rw [page_of_catchUp hcatch]
    exact h.pageSorted
  pageGapFree := by
    rw [page_of_catchUp hcatch]
    exact h.pageGapFree.mono fun x _ => hcursor x
  askedPassed c hc := hcursor c (h.askedPassed c (hcatch ▸ hc))

theorem SessionSound.quiet {s s' : RelayInner} (h : SessionSound f s)
    (hq : s.Quiet f s') : SessionSound f s' := by
  have hpulled : ∀ e ∈ s'.pulled, f.Sends e := hq.pulled ▸ h.pulledSent
  rcases hq.catchUp with hc | hc | hc | ⟨c, hasked, hc⟩
  · exact h.mono (fun x hx => hq.cursor ▸ hx) (fun e he => hq.pulled ▸ he) hc
  · exact sessionSound_of_page_nil hpulled (page_eq_nil (by simp [hc])) (by simp [hc])
  · refine sessionSound_of_page_nil hpulled (page_eq_nil (by simp [hc])) fun c hc' => ?_
    have hcur : s.cursor = some c := by simpa [hc] using hc'
    exact ⟨c, hq.cursor.trans hcur, le_refl c⟩
  · have hpage : s'.page = f.pullSince c := by simp only [RelayInner.page, hc]
    refine ⟨hpulled, ?_, ?_, ?_, by simp [hc]⟩
    · rw [hpage]
      exact fun e he => mem_pullSince he
    · rw [hpage]
      exact f.pullSince_pairwise c
    · rw [hpage, hq.cursor]
      refine f.gapFree_pullSince (fun _ hlive => hlive) fun x _ c' hc' hle => ?_
      obtain rfl := hc'
      obtain ⟨c₀, hc₀, hle'⟩ := h.askedPassed c' hasked
      exact ⟨c₀, hc₀, le_trans hle hle'⟩

/-- Buffering a page: what is new comes from the page, and the ids the cursor has
    moved past are in the buffer. -/
structure BufferedPage (live : String → Prop) (has : String → Prop) (page : List RemoteEntry)
    (s s' : RelayInner) : Prop where
  pulled : ∀ e ∈ s'.pulled, e ∈ s.pulled ∨ e ∈ page
  passed : ∀ x, Passed s.cursor x → Passed s'.cursor x
  covers : Covers live (fun x => has x ∨ s'.Buffers x) s'.cursor

theorem bufferedPage_bufferPage {live has : String → Prop} {page : List RemoteEntry}
    (hsorted : page.Pairwise fun a b => a.id < b.id)
    (hcovers : Covers live (fun x => has x ∨ s.Buffers x) s.cursor)
    (hgap : GapFree live (fun x => has x ∨ s.Buffers x) (page.map RemoteEntry.id)) :
    BufferedPage live has page s (s.bufferPage page).2 := by
  -- along the page: the cursor covers what it has passed, and the rest skips nothing
  induction page generalizing s with
  | nil => exact ⟨fun e he => .inl he, fun x hx => hx, hcovers⟩
  | cons e page ih =>
    obtain ⟨hlt, hsorted'⟩ := List.pairwise_cons.mp hsorted
    have hlt' : ∀ z ∈ page.map RemoteEntry.id, e.id < z := by
      intro z hz
      obtain ⟨r, hr, rfl⟩ := List.mem_map.mp hz
      exact hlt r hr
    rw [RelayInner.bufferPage]
    split
    case isTrue hbuf =>
      have hnext := ih (s := { s with cursor := advance s.cursor e.id }) hsorted'
        (hcovers.advance hgap hlt' (.inr hbuf)) (hgap.tail (.inr hbuf))
      exact ⟨fun r hr => (hnext.pulled r hr).imp_right (List.mem_cons_of_mem _),
        fun x hx => hnext.passed x (hx.advance e.id), hnext.covers⟩
    case isFalse =>
      split
      case isTrue => exact ⟨fun e he => .inl he, fun x hx => hx, hcovers⟩
      case isFalse =>
        have hgrow (x : String) (hx : s.Buffers x) :
            x ∈ (s.pulled ++ [e]).map RemoteEntry.id := by
          rw [List.map_append]
          exact List.mem_append_left _ hx
        have hnew : e.id ∈ (s.pulled ++ [e]).map RemoteEntry.id := by simp
        have hcovers' : Covers live (fun x => has x ∨ x ∈ (s.pulled ++ [e]).map RemoteEntry.id)
            s.cursor := hcovers.mono fun x _ hx => hx.imp_right (hgrow x)
        have hgap' : GapFree live (fun x => has x ∨ x ∈ (s.pulled ++ [e]).map RemoteEntry.id)
            ((e :: page).map RemoteEntry.id) := hgap.mono fun x _ hx => hx.imp_right (hgrow x)
        have hnext := ih (s := { s with
            pulled := s.pulled ++ [e]
            cursor := advance s.cursor e.id }) hsorted'
          (hcovers'.advance hgap' hlt' (.inr hnew)) (hgap'.tail (.inr hnew))
        refine ⟨fun r hr => ?_, fun x hx => hnext.passed x (hx.advance e.id), hnext.covers⟩
        rcases hnext.pulled r hr with hold | htail
        · rcases List.mem_append.mp hold with hold | hlast
          · exact .inl hold
          · exact .inr (List.mem_cons.mpr (.inl (List.mem_singleton.mp hlast)))
        · exact .inr (List.mem_cons_of_mem _ htail)

theorem bufferedPage_finishCatchUp {page : List RemoteEntry} (now : Int) (h : SessionSound f s)
    (hpage : s.catchUp = .answered page) :
    BufferedPage f.Live (Passed s.cursor) page s (s.finishCatchUp now page)
      ∧ (s.finishCatchUp now page).catchUp = .idle := by
  have hs : s.page = page := by simp only [RelayInner.page, hpage]
  have hcovers : Covers f.Live (fun x => Passed s.cursor x ∨ s.Buffers x) s.cursor :=
    covers_passed.mono fun x _ hx => .inl hx
  have hgap : GapFree f.Live (fun x => Passed s.cursor x ∨ s.Buffers x)
      (page.map RemoteEntry.id) := (hs ▸ h.pageGapFree).mono fun x _ hx => .inl hx
  have hbuf := bufferedPage_bufferPage (hs ▸ h.pageSorted) hcovers hgap
  unfold RelayInner.finishCatchUp
  split
  · exact ⟨⟨fun e he => .inl he, fun x hx => hx, hcovers⟩, rfl⟩
  · exact ⟨⟨hbuf.pulled, hbuf.passed, hbuf.covers⟩, rfl⟩

theorem passed_seedCursor (s : RelayInner) (since : Option String) {x : String}
    (h : Passed s.cursor x) : Passed (s.seedCursor since).cursor x := by
  rcases s.seedCursor_cases since with heq | ⟨c, rfl, hlt, heq⟩
  · rwa [heq]
  · obtain ⟨c₀, hc₀, hle⟩ := h
    have hlt' : c₀ < c := by simpa [Option.mem_def.mp hc₀] using hlt
    exact ⟨c, by rw [heq]; rfl, le_trans hle (le_of_lt hlt')⟩

theorem passed_of_seedCursor {x : String}
    (h : Passed (s.seedCursor since).cursor x) : Passed s.cursor x ∨ Passed since x := by
  rcases s.seedCursor_cases since with heq | ⟨c, rfl, -, heq⟩
  · exact .inl (heq ▸ h)
  · rw [heq] at h
    exact .inr h

/-- And all of that is passed, the ids of entries being after the nil id. -/
theorem passed_seedCursor_of_passed (s : RelayInner)
    (h : Passed since e.id) : Passed (s.seedCursor since).cursor e.id := by
  obtain ⟨c, rfl, hle⟩ := h
  show Passed (if s.cursor.getD "" < c then { s with cursor := some c } else s).cursor e.id
  split
  case isTrue => exact ⟨c, rfl, hle⟩
  case isFalse hge =>
    have hle' : e.id ≤ s.cursor.getD "" := le_trans hle (not_lt.mp hge)
    cases hc : s.cursor with
    | some c₀ => exact ⟨c₀, rfl, by simpa [hc] using hle'⟩
    | none =>
      rw [hc] at hle'
      have hnil : nilUuid < "" := lt_of_lt_of_le e.syncId.afterNil hle'
      exact absurd hnil (by decide)

/-! ## Every run keeps catch-ups sound -/

variable {env db}
variable {w : World Proc Db}
variable {l : Label Proc Db}

theorem cliSound_step (h : Sound env db w) (l : Label Proc Db) (p : Proc) :
    CliSound env db (step env db w l) p := by
  have hext := server_extends env db w l
  obtain ⟨hpulls, hacked⟩ := clis_step env db w l p
  constructor
  · intro e he
    rcases hpulls e he with hold | ⟨s, hs, hmem⟩
    · exact hext.sends ((h.clis p).pullsSent e hold)
    · exact hext.sends ((h.session s hs).pulledSent e hmem)
  · intro id hid
    rcases hacked id hid with hold | ⟨e, he, rfl, hholds⟩
    · exact ((h.clis p).ackedHeld id hold).step l
    · exact (hext.sends ((h.clis p).pullsSent e he)).heldBy hholds

theorem sessionSound_step (h : Sound env db w) (hahead : ArrivesAhead env db w l) {s' : RelayInner}
    (hs' : s' ∈ (step env db w l).session) : SessionSound (step env db w l).server s' := by
  -- a quiet step, a registration, a page that arrived, or an acknowledgement
  rcases session_step hs' with ⟨s, hs, hq, hserver⟩ | ⟨p, since, entries, rfl, hcli, rfl⟩
    | ⟨now, page, rfl, s, hs, hpage, rfl⟩ | ⟨p, pushIds, pullIds, rfl, hcli, s, hs, rfl⟩
  · have hsound := (h.session s hs).quiet hq
    rcases hserver with hserver | hcatch
    · rwa [hserver]
    · refine hsound.arrive (server_extends env db w l) fun e he hact => ?_
      refine (hahead e he hact).imp_right fun hall => ?_
      have hs'' := hall s hs
      refine ⟨hq.cursor ▸ hs''.1, ?_⟩
      rw [page_of_catchUp hcatch]
      exact hs''.2
  · rw [step, (register_frame w p).1]
    have hbase : SessionSound w.server (w.session.getD .new) := by
      cases hs : w.session with
      | some s => exact h.session s hs
      | none => exact sessionSound_of_page_nil (by simp [RelayInner.new]) rfl (by simp [RelayInner.new])
    refine hbase.mono (fun x hx => ?_) (fun e he => ?_) (RelayInner.register_catchUp _ _ _)
    · rw [RelayInner.register_cursor]
      exact passed_seedCursor _ since hx
    · simpa using he
  · obtain ⟨hbuf, hidle⟩ := bufferedPage_finishCatchUp now (h.session s hs) hpage
    refine sessionSound_of_page_nil (fun e he => ?_) (page_eq_nil (by simp [hidle]))
      (by simp [hidle])
    rcases hbuf.pulled e he with hold | hnew
    · exact (h.session s hs).pulledSent e hold
    · have hs : s.page = page := by simp only [RelayInner.page, hpage]
      exact (h.session s ‹_›).pageSent e (hs ▸ hnew)
  · rw [step, (ack_frame w p).1]
    exact (h.session s hs).mono (fun x hx => hx) (fun e he => (List.mem_filter.mp he).1) rfl

theorem sound_step (h : Sound env db w)
    (hahead : ArrivesAhead env db w l) : Sound env db (step env db w l) :=
  ⟨fun _ hs' => sessionSound_step h hahead hs', cliSound_step h l⟩

/-! ## What moves the cursor too far -/

variable {entries : List RelayPushEntry} {p : Proc}

theorem World.cursor_of_session (hs : s ∈ w.session) : w.cursor = s.cursor := by
  rw [World.cursor, Option.mem_def.mp hs]
  rfl

theorem World.cursor_getD (w : World Proc Db) : (w.session.getD .new).cursor = w.cursor := by
  unfold World.cursor
  cases w.session <;> rfl

theorem register_session (hcli : w.clis p = .registering since entries) :
    (step env db w (.register p)).session
      = some ((w.session.getD .new).register since entries) := by
  simp only [step, World.register, hcli]

/-- What a registration's seed passes, the registered session has passed. -/
theorem SeedPasses.registering
    (h : SeedPasses w p e) : ∃ since entries, w.clis p = .registering since entries
      ∧ Passed ((w.session.getD .new).register since entries).cursor e.id := by
  obtain ⟨-, -, hpassed⟩ := h
  unfold Cli.sinceCursor at hpassed
  split at hpassed
  case h_1 since entries hcli =>
    refine ⟨since, entries, hcli, ?_⟩
    rw [RelayInner.register_cursor]
    exact passed_seedCursor_of_passed _ hpassed
  case h_2 =>
    obtain ⟨c, hc, -⟩ := hpassed
    exact absurd hc (by simp)

theorem seedPasses_of_passed (hcli : w.clis p = .registering since entries) (hact : e.active = true)
    (hpassed : Passed ((w.session.getD .new).register since entries).cursor e.id)
    (hnew : ¬ Passed w.cursor e.id) : SeedPasses w p e := by
  rw [RelayInner.register_cursor] at hpassed
  refine ⟨hact, hnew, ?_⟩
  rw [hcli]
  rcases passed_of_seedCursor hpassed with hold | hsince
  · exact absurd (w.cursor_getD ▸ hold) hnew
  · exact hsince

/-- A step moves the cursor past buffered entries only, unless it is a
    registration that does not. -/
theorem passesOnlyPulled_iff (h : Sound env db w) :
    PassesOnlyPulled w (step env db w l) ↔ SeedPulled w l := by
  constructor
  · intro hpasses
    cases l with
    | register p =>
      intro e he hseed
      obtain ⟨since, entries, hcli, hpassed⟩ := hseed.registering
      have hbuf := hpasses _ (register_session hcli) e
        (by rw [step, (register_frame w p).1]; exact he) hseed.1 hpassed hseed.2.1
      simpa [RelayInner.Buffers] using hbuf
    | _ => trivial
  · intro hseed s' hs' e he hact hpassed hnew
    rcases session_step hs' with ⟨s, hs, hq, -⟩ | ⟨p, since, entries, rfl, hcli, rfl⟩
      | ⟨now, page, rfl, s, hs, hpage, rfl⟩ | ⟨p, pushIds, pullIds, rfl, hcli, s, hs, rfl⟩
    · exact absurd (World.cursor_of_session hs ▸ hq.cursor ▸ hpassed) hnew
    · rw [step, (register_frame w p).1] at he
      have hbuf := hseed e he (seedPasses_of_passed hcli hact hpassed hnew)
      simpa [RelayInner.Buffers] using hbuf
    · obtain ⟨hbuf, -⟩ := bufferedPage_finishCatchUp now (h.session s hs) hpage
      obtain ⟨c, hc, hle⟩ := hpassed
      refine (hbuf.covers e.id ⟨e, he, hact, rfl⟩ c hc hle).resolve_left fun hold => hnew ?_
      rwa [World.cursor_of_session hs]
    · exact absurd (World.cursor_of_session hs ▸ hpassed) hnew

theorem buffers_ack (h : Sound env db w) {pushIds pullIds : List String}
    (hcli : w.clis p = .applying [] [] pushIds pullIds) (he : e ∈ w.server.entries)
    (hbuf : s.Buffers e.id) :
    (s.ack pushIds pullIds).Buffers e.id ∨ ∃ d, (w.stores d).Holds env.sha e.toRemote := by
  by_cases hmem : e.id ∈ pullIds
  · have hheld := (h.clis p).ackedHeld e.id (by rw [hcli]; exact hmem)
    exact .inr ⟨db p, hheld.holds he⟩
  · obtain ⟨r, hr, hid⟩ := List.mem_map.mp hbuf
    exact .inl (List.mem_map.mpr ⟨r, List.mem_filter.mpr ⟨hr, by simpa [hid] using hmem⟩, hid⟩)

/-- A step keeps the cursor safe, unless it is a registration that does not. -/
theorem cursorSafe_step_iff (h : Sound env db w) (hsafe : CursorSafe env w)
    (hahead : ArrivesAhead env db w l) :
    CursorSafe env (step env db w l) ↔ SeedCovered env w l := by
  constructor
  · intro hsafe'
    cases l with
    | register p =>
      intro e he hseed
      obtain ⟨since, entries, hcli, hpassed⟩ := hseed.registering
      have hcase := hsafe' _ (register_session hcli) e
        (by rw [step, (register_frame w p).1]; exact he) hseed.1 hpassed
      rw [step, (register_frame w p).2] at hcase
      simpa [RelayInner.Buffers] using hcase
    | _ => trivial
  · intro hseed s' hs' e he hact hpassed
    -- what was safe before stays safe: buffered entries stay, and so do applied ones
    have hkeep {s : RelayInner} (hs : s ∈ w.session) (he : e ∈ w.server.entries)
        (hold : Passed s.cursor e.id)
        (hbuf : s.Buffers e.id → s'.Buffers e.id ∨ ∃ d, (w.stores d).Holds env.sha e.toRemote) :
        s'.Buffers e.id ∨ ∃ d, ((step env db w l).stores d).Holds env.sha e.toRemote := by
      have hholds (hd : ∃ d, (w.stores d).Holds env.sha e.toRemote) :
          ∃ d, ((step env db w l).stores d).Holds env.sha e.toRemote := by
        obtain ⟨d, hd⟩ := hd
        exact ⟨d, (stores_keep w l d).holds hd⟩
      rcases hsafe s hs e he hact hold with hb | hd
      · exact (hbuf hb).imp_right hholds
      · exact .inr (hholds hd)
    rcases session_step hs' with ⟨s, hs, hq, -⟩ | ⟨p, since, entries, rfl, hcli, rfl⟩
      | ⟨now, page, rfl, s, hs, hpage, rfl⟩ | ⟨p, pushIds, pullIds, rfl, hcli, s, hs, rfl⟩
    · have hold : Passed s.cursor e.id := hq.cursor ▸ hpassed
      rcases hahead e he hact with he' | hall
      · refine hkeep hs he' hold fun hb => .inl ?_
        rwa [RelayInner.Buffers, hq.pulled]
      · obtain ⟨c, hc, hle⟩ := hold
        exact absurd hle (not_le.mpr ((hall s hs).1 c hc))
    · have hserver : (step env db w (.register p)).server = w.server := (register_frame w p).1
      rw [hserver] at he
      by_cases hold : Passed w.cursor e.id
      · rcases Option.eq_none_or_eq_some w.session with hs | ⟨s, hs⟩
        · obtain ⟨c, hc, -⟩ := hold
          simp [World.cursor, hs] at hc
        · refine hkeep hs he (World.cursor_of_session hs ▸ hold) fun hb => .inl ?_
          simpa [RelayInner.Buffers, hs] using hb
      · have hcase := hseed e he (seedPasses_of_passed hcli hact hpassed hold)
        rw [step, (register_frame w p).2]
        simpa [RelayInner.Buffers] using hcase
    · obtain ⟨hbuf, -⟩ := bufferedPage_finishCatchUp now (h.session s hs) hpage
      obtain ⟨c, hc, hle⟩ := hpassed
      rcases hbuf.covers e.id ⟨e, he, hact, rfl⟩ c hc hle with hold | hb
      · exact hkeep hs he hold fun hb => .inl (s.buffers_finishCatchUp now page hb)
      · exact .inl hb
    · have hserver : (step env db w (.ack p)).server = w.server := (ack_frame w p).1
      rw [hserver] at he
      exact hkeep hs he hpassed fun hb => buffers_ack h hcli he hb

/-! ## Over runs -/

/-- No session yet, and no process at work; the server and the stores as they may be. -/
def World.start (server : Feed) (stores : Db → Store) : World Proc Db :=
  ⟨server, none, stores, fun _ => .idle⟩

omit [DecidableEq Proc] [DecidableEq Db] in
theorem sound_start (server : Feed) (stores : Db → Store) :
    Sound env db (World.start server stores) :=
  ⟨by simp [World.start], fun _ => ⟨by simp [World.start, Cli.pulls],
    by simp [World.start, Cli.ackedPullIds]⟩⟩

omit [DecidableEq Proc] [DecidableEq Db] in
theorem cursorSafe_start (server : Feed) (stores : Db → Store) :
    CursorSafe env (World.start server stores : World Proc Db) := by
  intro s hs
  simp [World.start] at hs

/-- Where entries arrive ahead of the session, its cursor is safe throughout a run,
    and passes only entries that are in the buffer, exactly when every registration
    carries it past buffered entries only; it is safe, entries that were applied
    already being passed too, exactly when every registration carries it past
    buffered or applied ones only. -/
theorem cursorSafe_iff (server : Feed) (stores : Db → Store) (labels : List (Label Proc Db))
    (hahead : EachStep (step env db) (ArrivesAhead env db) (World.start server stores) labels) :
    ((EachState (step env db) (CursorSafe env) (World.start server stores) labels
        ∧ EachStep (step env db) (fun w l => PassesOnlyPulled w (step env db w l))
          (World.start server stores) labels)
      ↔ EachStep (step env db) SeedPulled (World.start server stores) labels)
    ∧ (EachState (step env db) (CursorSafe env) (World.start server stores) labels
      ↔ EachStep (step env db) (SeedCovered env) (World.start server stores) labels) := by
  have hsound : Sound env db (World.start server stores) := sound_start server stores
  have hpasses : EachStep (step env db) (fun w l => PassesOnlyPulled w (step env db w l))
      (World.start server stores) labels
        ↔ EachStep (step env db) SeedPulled (World.start server stores) labels :=
    eachStep_congr (fun w l hw hl => sound_step hw hl) (fun w l hw _ => passesOnlyPulled_iff hw)
      hsound hahead
  have hsafe : EachState (step env db) (CursorSafe env) (World.start server stores) labels
      ↔ EachStep (step env db) (SeedCovered env) (World.start server stores) labels :=
    eachState_iff_eachStep_of_legal (fun w => Sound env db w ∧ CursorSafe env w)
      (fun w l hw hl hgood => ⟨sound_step hw.1 hl, (cursorSafe_step_iff hw.1 hw.2 hl).mpr hgood⟩)
      (fun w hw => hw.2)
      (fun w l hw hl hbad hP => hbad ((cursorSafe_step_iff hw.1 hw.2 hl).mp hP))
      ⟨hsound, cursorSafe_start server stores⟩ hahead
  have hweaken : ∀ (w : World Proc Db) (l : Label Proc Db), SeedPulled w l → SeedCovered env w l := by
    intro w l hl
    cases l with
    | register p => exact fun e he hseed => .inl (hl e he hseed)
    | _ => trivial
  refine ⟨⟨fun h => hpasses.mp h.2, fun h => ⟨hsafe.mpr (h.imp _ hweaken), hpasses.mpr h⟩⟩, hsafe⟩

instance [Fintype Db] (w : World Proc Db) : Decidable (CursorSafe env w) :=
  inferInstanceAs (Decidable (∀ s ∈ w.session, ∀ e ∈ w.server.entries, e.active = true →
    Passed s.cursor e.id → s.Buffers e.id ∨ ∃ d, (w.stores d).Holds env.sha e.toRemote))

instance (w : World Proc Db) (p : Proc) (e : ServerEntry) : Decidable (SeedPasses w p e) :=
  inferInstanceAs (Decidable (_ ∧ ¬ _ ∧ _))

instance (w : World Proc Db) (l : Label Proc Db) : Decidable (SeedPulled w l) :=
  match l with
  | .register p => inferInstanceAs (Decidable (∀ e ∈ w.server.entries, SeedPasses w p e →
      (w.session.getD .new).Buffers e.id))
  | .arrive _ | .archiveRemote _ | .write _ _ | .prepare _ | .pushArrive _ _ _ | .pushLost _
  | .pushFinish _ _ | .connect | .frame _ _ | .catchUpAnswer | .catchUpFail | .catchUpFinish _
  | .poll _ | .applyPush _ | .applyPull _ _ | .ack _ | .abandon _ | .retire => isTrue trivial

instance (w : World Proc Db) (l : Label Proc Db) : Decidable (ArrivesAhead env db w l) :=
  inferInstanceAs (Decidable (∀ e ∈ (step env db w l).server.entries, e.active = true →
    e ∈ w.server.entries ∨ ∀ s ∈ w.session, (∀ c ∈ s.cursor, c < e.id) ∧ ∀ r ∈ s.page, r.id < e.id))

end

/-! ## A registration after a push -/

/-- One store and one process, a server with nothing on it. -/
def oneStore : World Unit Unit := .start Feed.empty fun _ => Store.empty

/-- Another machine's entry. -/
def theirs : ServerEntry where
  syncId := ⟨"01890000-0000-7000-8000-000000000005", by decide⟩
  kind := "decision"
  title := "theirs"
  body := ""
  sourceCommit := none
  createdAt := 5
  externalId := some "b"
  active := true

/-- The id the server gives the row this machine pushes next. -/
def ownSyncId : SyncId := ⟨"01890000-0000-7000-8000-000000000006", by decide⟩

/-- Another machine's entry arrives, a row of this one is relayed and stamped before
    the session has caught up, and the next command registers. -/
def pushThenRegister : List (Label Unit Unit) :=
  [.arrive theirs, .write () (.add ⟨"a"⟩ 6 ⟨"decision", "ours", "", [], [], none, none⟩),
    .prepare (), .register (), .pushArrive 0 6 fun _ => ownSyncId, .pushFinish 0 6, .poll (),
    .applyPush (), .ack (), .prepare (), .register ()]

theorem not_cursorSafe_of_push :
    EachStep (step plainEnv id) (ArrivesAhead plainEnv id) oneStore pushThenRegister
      ∧ ¬ EachState (step plainEnv id) (CursorSafe plainEnv) oneStore pushThenRegister := by
  refine ⟨by decide +kernel, fun h => ?_⟩
  have hlast : ¬ CursorSafe plainEnv (run (step plainEnv id) oneStore pushThenRegister) := by
    decide +kernel
  exact hlast (h.last _)

/-- A catch-up after a first registration keeps the cursor safe. -/
theorem cursorSafe_of_catchUp :
    EachState (step plainEnv id) (CursorSafe plainEnv) oneStore
        [.arrive theirs, .prepare (), .register (), .connect, .catchUpAnswer, .catchUpFinish 7]
      ∧ EachStep (step plainEnv id) (fun w l => PassesOnlyPulled w (step plainEnv id w l)) oneStore
        [.arrive theirs, .prepare (), .register (), .connect, .catchUpAnswer,
          .catchUpFinish 7] :=
  (cursorSafe_iff Feed.empty (fun _ => Store.empty) _ (by decide +kernel)).1.mpr
    (by decide +kernel)

end Relay
end Inkentry
