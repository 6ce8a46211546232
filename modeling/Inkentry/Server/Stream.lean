/-
  Inkentry.Server.Stream

  The live stream (`GET memory/stream`): once a second the handler reads the
  active rows created after a watermark, fifty at most, sends each, and moves
  the watermark to the latest second it has sent.

  The watermark counts whole seconds and several rows may share one.  A page
  that ends inside a second, and a row written into a second the watermark has
  reached, leave rows behind it that no later poll asks for.
-/

import Inkentry.Lib.Runs
import Inkentry.Server.Feed

namespace Inkentry
namespace Server

open OrderLimit Runs

/-! ## The poll -/

/-- The order in which a query visits rows that its `ORDER BY` does not tell apart. -/
structure Scan where
  order : List ServerEntry → List ServerEntry
  perm : ∀ rows, (order rows).Perm rows

/-- The active rows created after a second. -/
def Feed.createdAfter (f : Feed) (sinceSecs : Int) : List ServerEntry :=
  f.entries.filter fun e => e.active && sinceSecs < e.createdAt

/-- The first of them by creation time. -/
def Feed.notesSince (f : Feed) (scan : Scan) (sinceSecs limit : Int) : List ServerEntry :=
  orderLimit ServerEntry.createdAt (max 1 (min limit 500)).toNat
    (scan.order (f.createdAfter sinceSecs))

/-- What a poll asks for. -/
def streamPageLimit : Int := 50

/-- A stream over a project's rows, with the events sent so far.  `owed` are the
    rows the subscriber is to get: those created after the start, and those
    written while the stream is open. -/
structure Stream where
  feed : Feed
  lastSeen : Int
  events : List ServerEntry
  owed : List String

/-- The stream as it opens, with the start it was asked for. -/
def Stream.opened (f : Feed) (startT : Int) : Stream where
  feed := f
  lastSeen := startT
  events := []
  owed := (f.entries.filter fun e => startT < e.createdAt).map ServerEntry.id

/-- Sends one row. -/
def Stream.send (s : Stream) (e : ServerEntry) : Stream :=
  { s with
    lastSeen := if e.createdAt > s.lastSeen then e.createdAt else s.lastSeen
    events := s.events ++ [e] }

/-- The page of a poll. -/
def Stream.page (s : Stream) (scan : Scan) : List ServerEntry :=
  s.feed.notesSince scan s.lastSeen streamPageLimit

/-- One turn of the polling loop.  The page is one query, so what is written while it
    is being sent counts as written after it. -/
def Stream.poll (s : Stream) (scan : Scan) : Stream := (s.page scan).foldl Stream.send s

/-- A row written while the stream is open; `none` when a unique index refuses it. -/
def Stream.written (s : Stream) (e : ServerEntry) : Stream :=
  match s.feed.insert e with
  | none => s
  | some f => { s with feed := f, owed := s.owed ++ [e.id] }

inductive StreamLabel where
  | insert (e : ServerEntry)
  | archive (id : String)
  | poll (scan : Scan)
  /-- A turn on which the project or its rows could not be read. -/
  | skip

def Stream.step (s : Stream) : StreamLabel → Stream
  | .insert e => s.written e
  | .archive id => { s with feed := s.feed.archive id }
  | .poll scan => s.poll scan
  | .skip => s

/-! ## What a subscriber is promised -/

def Stream.Sent (s : Stream) (id : String) : Prop := id ∈ s.events.map ServerEntry.id

/-- The watermark has reached the row's second. -/
def Stream.Behind (s : Stream) (e : ServerEntry) : Prop := e.createdAt ≤ s.lastSeen

/-- No row is sent twice, and every active row the stream owes is sent or still
    ahead of the watermark. -/
structure Stream.Delivers (s : Stream) : Prop where
  once : (s.events.map ServerEntry.id).Nodup
  sent : ∀ e ∈ s.feed.entries, e.active = true → e.id ∈ s.owed → s.Behind e → s.Sent e.id

/-- The rows a poll can still send. -/
def Stream.pending (s : Stream) : List ServerEntry := s.feed.createdAfter s.lastSeen

/-- No second begins on the next page and ends after it. -/
def Stream.WholeSeconds (s : Stream) : Prop :=
  ∀ e ∈ s.pending, s.pending.countP (fun p => p.createdAt ≤ e.createdAt) ≤ streamPageLimit.toNat
    ∨ streamPageLimit.toNat ≤ s.pending.countP fun p => p.createdAt < e.createdAt

/-- A step that leaves nothing behind: a row is written into a second the watermark
    has not reached, and a page takes its seconds whole. -/
def Stream.Admits (s : Stream) : StreamLabel → Prop
  | .insert e => e.active = true → s.feed.insert e ≠ none → s.lastSeen < e.createdAt
  | .poll _ => s.WholeSeconds
  | .archive _ | .skip => True

/-! ## Sending a page -/

variable {s : Stream} {e : ServerEntry}
variable {f : Feed}

@[simp] theorem foldl_send_feed (page : List ServerEntry) (s : Stream) :
    (page.foldl Stream.send s).feed = s.feed := by
  induction page generalizing s with
  | nil => rfl
  | cons e page ih => exact ih (s.send e)

@[simp] theorem foldl_send_owed (page : List ServerEntry) (s : Stream) :
    (page.foldl Stream.send s).owed = s.owed := by
  induction page generalizing s with
  | nil => rfl
  | cons e page ih => exact ih (s.send e)

@[simp] theorem foldl_send_events (page : List ServerEntry) (s : Stream) :
    (page.foldl Stream.send s).events = s.events ++ page := by
  induction page generalizing s with
  | nil => simp
  | cons e page ih =>
    show (page.foldl Stream.send (s.send e)).events = _
    rw [ih]
    show (s.events ++ [e]) ++ page = _
    rw [List.append_assoc, List.singleton_append]

theorem send_lastSeen (s : Stream) (e : ServerEntry) :
    (s.send e).lastSeen = max s.lastSeen e.createdAt := by
  show (if e.createdAt > s.lastSeen then e.createdAt else s.lastSeen) = _
  split <;> omega

/-- A second is at or before the watermark exactly when it was, or something on the
    page is as late. -/
theorem le_foldl_send_lastSeen {page : List ServerEntry} {t : Int} :
    t ≤ (page.foldl Stream.send s).lastSeen
      ↔ t ≤ s.lastSeen ∨ ∃ e ∈ page, t ≤ e.createdAt := by
  induction page generalizing s with
  | nil => simp
  | cons e page ih =>
    show t ≤ (page.foldl Stream.send (s.send e)).lastSeen ↔ _
    rw [ih, send_lastSeen, le_max_iff]
    simp [or_assoc]

theorem mem_createdAfter {t : Int} :
    e ∈ f.createdAfter t ↔ e ∈ f.entries ∧ e.active = true ∧ t < e.createdAt := by
  simp [Feed.createdAfter]

theorem nodup_createdAfter (f : Feed) (t : Int) : (f.createdAfter t).Nodup :=
  (List.Nodup.of_map _ f.idUnique).filter _

theorem page_eq (s : Stream) (scan : Scan) :
    s.page scan = orderLimit ServerEntry.createdAt 50 (scan.order s.pending) := rfl

theorem mem_pending_of_mem_page {scan : Scan} (he : e ∈ s.page scan) : e ∈ s.pending :=
  (scan.perm _).mem_iff.mp (mem_of_mem_orderLimit _ he)

theorem nodup_page (s : Stream) (scan : Scan) : (s.page scan).Nodup := by
  have hnodup := (scan.perm s.pending).nodup_iff.mpr (nodup_createdAfter s.feed s.lastSeen)
  exact ((sortBy_perm _ _).nodup_iff.mpr hnodup).sublist (List.take_sublist _ _)

/-- A page takes its seconds whole, whatever order the query visits the rows in,
    exactly when the counts of the seconds say so. -/
theorem wholeSeconds_iff (s : Stream) (scan : Scan) :
    s.WholeSeconds
      ↔ ∀ e ∈ s.pending, e ∉ s.page scan → ∀ p ∈ s.page scan, p.createdAt < e.createdAt := by
  have hperm := scan.perm s.pending
  have hnodup := hperm.nodup_iff.mpr (nodup_createdAfter s.feed s.lastSeen)
  have hcut := lt_of_not_mem_orderLimit_iff ServerEntry.createdAt (k := 50) hnodup
  simp only [hperm.mem_iff, hperm.countP_eq] at hcut
  exact hcut.symm

/-- A poll that finds anything to send sends fifty rows or all there are. -/
theorem length_page (s : Stream) (scan : Scan) :
    (s.page scan).length = min 50 s.pending.length := by
  rw [page_eq, length_orderLimit, (scan.perm s.pending).length_eq]

/-! ## What a step does to a row -/

/-- What holds of every stream: a sent row is behind the watermark and still there,
    no row was sent twice, and every row ahead is owed. -/
structure Stream.Sound (s : Stream) : Prop where
  sentRows : ∀ x ∈ s.events, s.Behind x
    ∧ ∃ e ∈ s.feed.entries, e.id = x.id ∧ e.createdAt = x.createdAt
  once : (s.events.map ServerEntry.id).Nodup
  owedAhead : ∀ e ∈ s.feed.entries, s.lastSeen < e.createdAt → e.id ∈ s.owed

theorem Feed.eq_of_id {e e' : ServerEntry} (he : e ∈ f.entries) (he' : e' ∈ f.entries)
    (hid : e.id = e'.id) : e = e' := List.inj_on_of_nodup_map f.idUnique he he' hid

theorem Stream.Sound.behind_of_sent (h : s.Sound) (he : e ∈ s.feed.entries)
    (hsent : s.Sent e.id) : s.Behind e := by
  obtain ⟨x, hx, hxid⟩ := List.mem_map.mp hsent
  obtain ⟨hbehind, e', he', hid, hat⟩ := h.sentRows x hx
  have heq : e' = e := Feed.eq_of_id he' he (hid.trans hxid)
  show e.createdAt ≤ s.lastSeen
  rw [← heq, hat]
  exact hbehind

theorem Stream.Sound.not_sent_of_fresh (h : s.Sound) {id : String}
    (hfresh : id ∉ s.feed.entries.map ServerEntry.id) : ¬ s.Sent id := by
  intro hsent
  obtain ⟨x, hx, rfl⟩ := List.mem_map.mp hsent
  obtain ⟨-, e, he, hid, -⟩ := h.sentRows x hx
  exact hfresh (hid ▸ List.mem_map_of_mem he)

theorem sound_opened (f : Feed) (startT : Int) : (Stream.opened f startT).Sound where
  sentRows := fun x hx => absurd hx (List.not_mem_nil)
  once := List.nodup_nil
  owedAhead := by
    intro e he hlt
    exact List.mem_map_of_mem (List.mem_filter.mpr ⟨he, decide_eq_true hlt⟩)

theorem Feed.mem_archive {id : String} (he : e ∈ (f.archive id).entries) :
    ∃ e' ∈ f.entries, e'.id = e.id ∧ e'.createdAt = e.createdAt := by
  obtain ⟨e', he', rfl⟩ := List.mem_map.mp he
  refine ⟨e', he', ?_⟩
  by_cases hid : e'.id = id
  · rw [if_pos hid]
    exact ⟨rfl, rfl⟩
  · rw [if_neg hid]
    exact ⟨rfl, rfl⟩

theorem Feed.exists_mem_archive (id : String) (he : e ∈ f.entries) :
    ∃ e' ∈ (f.archive id).entries, e'.id = e.id ∧ e'.createdAt = e.createdAt := by
  refine ⟨_, List.mem_map_of_mem he, ?_⟩
  by_cases hid : e.id = id
  · rw [if_pos hid]
    exact ⟨rfl, rfl⟩
  · rw [if_neg hid]
    exact ⟨rfl, rfl⟩

theorem written_eq_self (h : s.feed.insert e = none) : s.written e = s := by
  unfold Stream.written
  rw [h]

theorem written_eq (h : s.feed.insert e = some f) :
    s.written e = { s with feed := f, owed := s.owed ++ [e.id] } := by
  unfold Stream.written
  rw [h]

theorem Stream.Sound.not_sent_of_mem_page (h : s.Sound) {scan : Scan}
    (he : e ∈ s.page scan) : ¬ s.Sent e.id := by
  intro hsent
  obtain ⟨hmem, -, hahead⟩ := mem_createdAfter.mp (mem_pending_of_mem_page he)
  exact absurd (h.behind_of_sent hmem hsent) (not_le.mpr hahead)

theorem Stream.Sound.poll (h : s.Sound) (scan : Scan) : (s.poll scan).Sound where
  sentRows := by
    intro x hx
    rw [Stream.poll, foldl_send_events] at hx
    rw [Stream.poll, foldl_send_feed]
    rcases List.mem_append.mp hx with hold | hnew
    · obtain ⟨hbehind, hrow⟩ := h.sentRows x hold
      exact ⟨le_foldl_send_lastSeen.mpr (.inl hbehind), hrow⟩
    · have hmem := (mem_createdAfter.mp (mem_pending_of_mem_page hnew)).1
      exact ⟨le_foldl_send_lastSeen.mpr (.inr ⟨x, hnew, le_rfl⟩), x, hmem, rfl, rfl⟩
  once := by
    rw [Stream.poll, foldl_send_events, List.map_append]
    refine h.once.append ?_ ?_
    · refine List.Nodup.map_on ?_ (nodup_page s scan)
      intro a ha b hb hid
      exact Feed.eq_of_id (mem_createdAfter.mp (mem_pending_of_mem_page ha)).1
        (mem_createdAfter.mp (mem_pending_of_mem_page hb)).1 hid
    · intro id hsent hpage
      obtain ⟨e, he, rfl⟩ := List.mem_map.mp hpage
      exact h.not_sent_of_mem_page he hsent
  owedAhead := by
    intro e he hahead
    rw [Stream.poll, foldl_send_feed] at he
    rw [Stream.poll, foldl_send_owed]
    refine h.owedAhead e he (lt_of_not_ge fun hle => ?_)
    exact absurd (le_foldl_send_lastSeen.mpr (.inl hle)) (not_le.mpr hahead)

theorem Stream.Sound.written (h : s.Sound) (e : ServerEntry) : (s.written e).Sound := by
  cases hins : s.feed.insert e with
  | none => rwa [written_eq_self hins]
  | some f =>
    obtain ⟨hentries, -⟩ := Feed.insert_eq_some hins
    rw [written_eq hins]
    refine ⟨fun x hx => ?_, h.once, fun e' he' hahead => ?_⟩
    · obtain ⟨hbehind, e', he', hrow⟩ := h.sentRows x hx
      exact ⟨hbehind, e', hentries ▸ List.mem_append_left _ he', hrow⟩
    · rw [hentries] at he'
      rcases List.mem_append.mp he' with hold | hnew
      · exact List.mem_append_left _ (h.owedAhead e' hold hahead)
      · rw [List.mem_singleton.mp hnew]
        exact List.mem_append_right _ (List.mem_singleton_self _)

theorem Stream.Sound.archive (h : s.Sound) (id : String) :
    Stream.Sound { s with feed := s.feed.archive id } where
  sentRows := by
    intro x hx
    obtain ⟨hbehind, e, he, hid, hat⟩ := h.sentRows x hx
    obtain ⟨e', he', hid', hat'⟩ := Feed.exists_mem_archive id he
    exact ⟨hbehind, e', he', hid'.trans hid, hat'.trans hat⟩
  once := h.once
  owedAhead := by
    intro e he hahead
    obtain ⟨e', he', hid, hat⟩ := Feed.mem_archive he
    exact hid ▸ h.owedAhead e' he' (hat ▸ hahead)

theorem Stream.Sound.step (h : s.Sound) (label : StreamLabel) : (s.step label).Sound := by
  cases label with
  | insert e => exact h.written e
  | archive id => exact h.archive id
  | poll scan => exact h.poll scan
  | skip => exact h

/-! ## One step -/

theorem Stream.Delivers.step (hs : s.Sound) (h : s.Delivers) {label : StreamLabel}
    (hadm : s.Admits label) : (s.step label).Delivers := by
  refine ⟨(hs.step label).once, ?_⟩
  cases label with
  | insert e =>
    show ∀ e' ∈ (s.written e).feed.entries, e'.active = true → e'.id ∈ (s.written e).owed →
      (s.written e).Behind e' → (s.written e).Sent e'.id
    cases hins : s.feed.insert e with
    | none =>
      rw [written_eq_self hins]
      exact h.sent
    | some f =>
      obtain ⟨hentries, hfresh⟩ := Feed.insert_eq_some hins
      rw [written_eq hins]
      intro e' he' hact howed hbehind
      rw [hentries] at he'
      rcases List.mem_append.mp he' with hold | hnew
      · rcases List.mem_append.mp howed with howed | hid
        · exact h.sent e' hold hact howed hbehind
        · exact absurd (List.mem_singleton.mp hid ▸ List.mem_map_of_mem hold) hfresh
      · obtain rfl := List.mem_singleton.mp hnew
        have hahead : s.lastSeen < e'.createdAt := hadm hact (by simp [hins])
        exact absurd hbehind (not_le.mpr hahead)
  | archive id =>
    intro e he hact howed hbehind
    exact h.sent e (Feed.mem_archive_of_active he hact) hact howed hbehind
  | poll scan =>
    intro e he hact howed hbehind
    show e.id ∈ (s.poll scan).events.map ServerEntry.id
    rw [Stream.poll, foldl_send_events, List.map_append]
    rw [show s.step (.poll scan) = s.poll scan from rfl, Stream.poll] at he howed hbehind
    rw [foldl_send_feed] at he
    rw [foldl_send_owed] at howed
    rcases le_foldl_send_lastSeen.mp hbehind with hold | ⟨p, hp, hle⟩
    · exact List.mem_append_left _ (h.sent e he hact howed hold)
    · by_cases hpast : e.createdAt ≤ s.lastSeen
      · exact List.mem_append_left _ (h.sent e he hact howed hpast)
      · -- the row was pending, and its second was taken whole
        have hpend : e ∈ s.pending := mem_createdAfter.mpr ⟨he, hact, not_le.mp hpast⟩
        refine List.mem_append_right _ (List.mem_map_of_mem ?_)
        by_contra hout
        exact absurd ((wholeSeconds_iff s scan).mp hadm e hpend hout p hp) (not_lt.mpr hle)
  | skip => exact h.sent

theorem not_delivers_step (hs : s.Sound) {label : StreamLabel}
    (hadm : ¬ s.Admits label) : ¬ (s.step label).Delivers := by
  intro h
  cases label with
  -- an entry that comes in behind the watermark is never sent
  | insert e =>
    simp only [Stream.Admits, not_forall, not_lt] at hadm
    obtain ⟨hact, hins, hle⟩ := hadm
    obtain ⟨f, hins⟩ := Option.ne_none_iff_exists'.mp hins
    obtain ⟨hentries, hfresh⟩ := Feed.insert_eq_some hins
    have hsent := h.sent
    rw [show s.step (.insert e) = s.written e from rfl, written_eq hins] at hsent
    refine hs.not_sent_of_fresh hfresh (hsent e ?_ hact ?_ hle)
    · exact hentries ▸ List.mem_append_right _ (List.mem_singleton_self _)
    · exact List.mem_append_right _ (List.mem_singleton_self _)
  | archive id => exact hadm trivial
  | poll scan =>
    have hcut := mt (wholeSeconds_iff s scan).mpr hadm
    push Not at hcut
    -- the page was cut inside a second, and the watermark is past what it left
    obtain ⟨e, hpend, hout, p, hp, hle⟩ := hcut
    obtain ⟨he, hact, hahead⟩ := mem_createdAfter.mp hpend
    have hsent := h.sent
    rw [show s.step (.poll scan) = s.poll scan from rfl, Stream.poll] at hsent
    have hin := hsent e (by rwa [foldl_send_feed])
      hact (by rw [foldl_send_owed]; exact hs.owedAhead e he hahead)
      (le_foldl_send_lastSeen.mpr (.inr ⟨p, hp, hle⟩))
    rw [Stream.Sent, foldl_send_events, List.map_append] at hin
    rcases List.mem_append.mp hin with hold | hnew
    · exact absurd (hs.behind_of_sent he hold) (not_le.mpr hahead)
    · obtain ⟨e', he', hid⟩ := List.mem_map.mp hnew
      have heq := Feed.eq_of_id (mem_createdAfter.mp (mem_pending_of_mem_page he')).1 he hid
      exact hout (heq ▸ he')
  | skip => exact hadm trivial

/-! ## Runs -/

theorem lastSeen_le_step (s : Stream) (label : StreamLabel) :
    s.lastSeen ≤ (s.step label).lastSeen := by
  cases label with
  | insert e =>
    show s.lastSeen ≤ (s.written e).lastSeen
    cases hins : s.feed.insert e with
    | none => rw [written_eq_self hins]
    | some f => rw [written_eq hins]
  | archive id => exact le_rfl
  | poll scan => exact le_foldl_send_lastSeen.mpr (.inl le_rfl)
  | skip => exact le_rfl

/-- A row that is behind the watermark, and was not sent. -/
def Stream.PassedOver (s : Stream) (e : ServerEntry) : Prop :=
  (∃ e' ∈ s.feed.entries, e'.id = e.id ∧ e'.createdAt = e.createdAt) ∧ s.Behind e ∧ ¬ s.Sent e.id

theorem Stream.PassedOver.step (h : s.PassedOver e)
    (label : StreamLabel) : (s.step label).PassedOver e := by
  obtain ⟨⟨e', he', hid, hat⟩, hbehind, hnot⟩ := h
  have hbehind' : (s.step label).Behind e := le_trans hbehind (lastSeen_le_step s label)
  cases label with
  | insert x =>
    show (s.written x).PassedOver e
    cases hins : s.feed.insert x with
    | none =>
      rw [written_eq_self hins]
      exact ⟨⟨e', he', hid, hat⟩, hbehind, hnot⟩
    | some f =>
      rw [written_eq hins]
      have hmem : e' ∈ f.entries :=
        (Feed.insert_eq_some hins).1 ▸ List.mem_append_left _ he'
      exact ⟨⟨e', hmem, hid, hat⟩, hbehind, hnot⟩
  | archive id =>
    obtain ⟨e'', he'', hid', hat'⟩ := Feed.exists_mem_archive id he'
    exact ⟨⟨e'', he'', hid'.trans hid, hat'.trans hat⟩, hbehind, hnot⟩
  | poll scan =>
    refine ⟨?_, hbehind', ?_⟩
    · show ∃ e' ∈ (s.poll scan).feed.entries, _
      rw [Stream.poll, foldl_send_feed]
      exact ⟨e', he', hid, hat⟩
    · show e.id ∉ (s.poll scan).events.map ServerEntry.id
      rw [Stream.poll, foldl_send_events, List.map_append, List.mem_append]
      -- a poll sends only what is ahead of the watermark
      rintro (hold | hnew)
      · exact hnot hold
      · obtain ⟨p, hp, hpid⟩ := List.mem_map.mp hnew
        obtain ⟨hmem, -, hahead⟩ := mem_createdAfter.mp (mem_pending_of_mem_page hp)
        rw [Feed.eq_of_id hmem he' (hpid.trans hid.symm), hat] at hahead
        exact absurd hbehind (not_le.mpr hahead)
  | skip => exact ⟨⟨e', he', hid, hat⟩, hbehind, hnot⟩

theorem not_sent_of_passedOver (h : s.PassedOver e)
    (labels : List StreamLabel) : ¬ (run Stream.step s labels).Sent e.id := by
  have hlast : (run Stream.step s labels).PassedOver e :=
    run_inv (fun (t : Stream) label (h : t.PassedOver e) _ => h.step label) h
      (eachStep_true s labels)
  exact hlast.2.2

theorem length_pending_poll (s : Stream) (scan : Scan) :
    (s.poll scan).pending.length + (s.page scan).length ≤ s.pending.length := by
  have hnext : (s.poll scan).pending.Nodup := nodup_createdAfter _ _
  have hdisj : ((s.poll scan).pending).Disjoint (s.page scan) := by
    intro e he hpage
    have hahead := (mem_createdAfter.mp he).2.2
    exact absurd (le_foldl_send_lastSeen.mpr (.inr ⟨e, hpage, le_rfl⟩)) (not_le.mpr hahead)
  have hsub : ((s.poll scan).pending ++ s.page scan).Subperm s.pending := by
    refine List.subperm_of_subset (hnext.append (nodup_page s scan) hdisj) fun e he => ?_
    rcases List.mem_append.mp he with hpend | hpage
    · obtain ⟨hmem, hact, hahead⟩ := mem_createdAfter.mp hpend
      rw [Stream.poll, foldl_send_feed] at hmem
      refine mem_createdAfter.mpr ⟨hmem, hact, lt_of_not_ge fun hle => ?_⟩
      exact absurd (le_foldl_send_lastSeen.mpr (.inl hle)) (not_le.mpr hahead)
    · exact mem_pending_of_mem_page hpage
  have hlen := hsub.length_le
  rwa [List.length_append] at hlen

/-- Enough polls with nothing written between them leave nothing pending. -/
theorem pending_eq_nil_of_polls {scans : List Scan}
    (henough : s.pending.length ≤ 50 * scans.length) :
    (run Stream.step s (scans.map .poll)).pending = [] := by
  induction scans generalizing s with
  | nil => exact List.length_eq_zero_iff.mp (Nat.le_zero.mp henough)
  | cons scan scans ih =>
    refine ih ?_
    show (s.poll scan).pending.length ≤ 50 * scans.length
    have hdrop := length_pending_poll s scan
    rw [length_page] at hdrop
    rw [List.length_cons] at henough
    omega

/-- Every active row the stream owes has been sent exactly once. -/
def Stream.Delivered (s : Stream) : Prop :=
  ∀ e ∈ s.feed.entries, e.active = true → e.id ∈ s.owed → (s.events.map ServerEntry.id).count e.id = 1

theorem Stream.Delivers.delivered (h : s.Delivers) (hdone : s.pending = []) : s.Delivered := by
  intro e he hact howed
  refine List.count_eq_one_of_mem h.once (h.sent e he hact howed ?_)
  by_contra hahead
  have hpend : e ∈ s.pending := mem_createdAfter.mpr ⟨he, hact, not_le.mp hahead⟩
  rw [hdone] at hpend
  exact List.not_mem_nil hpend

theorem delivers_opened (f : Feed) (startT : Int) : (Stream.opened f startT).Delivers where
  once := List.nodup_nil
  sent := by
    intro e he _ howed hbehind
    obtain ⟨e', he', hid⟩ := List.mem_map.mp howed
    obtain ⟨hmem, hlt⟩ := List.mem_filter.mp he'
    rw [Feed.eq_of_id hmem he hid] at hlt
    exact absurd hbehind (not_le.mpr (of_decide_eq_true hlt))

/-- A stream keeps its promise in every state of a run exactly when each step of the
    run leaves nothing behind; enough polls then deliver every row, and a row that is
    ever passed over is never sent. -/
theorem delivers_iff (f : Feed) (startT : Int) (labels : List StreamLabel) :
    (EachState Stream.step Stream.Delivers (.opened f startT) labels
        ↔ EachStep Stream.step Stream.Admits (.opened f startT) labels)
      ∧ (∀ scans : List Scan,
          EachStep Stream.step Stream.Admits (.opened f startT) (labels ++ scans.map .poll) →
          (run Stream.step (.opened f startT) labels).pending.length ≤ 50 * scans.length →
          (run Stream.step (.opened f startT) (labels ++ scans.map .poll)).Delivered)
      ∧ ∀ e ∈ (run Stream.step (.opened f startT) labels).feed.entries,
          (run Stream.step (.opened f startT) labels).Behind e →
          ¬ (run Stream.step (.opened f startT) labels).Sent e.id →
          ∀ more, ¬ (run Stream.step (.opened f startT) (labels ++ more)).Sent e.id := by
  have hrun (labels' : List StreamLabel) :
      EachState Stream.step Stream.Delivers (.opened f startT) labels'
        ↔ EachStep Stream.step Stream.Admits (.opened f startT) labels' :=
    eachState_iff_eachStep (fun s : Stream => s.Sound ∧ s.Delivers)
      (fun s label h hadm => ⟨h.1.step label, h.2.step h.1 hadm⟩) (fun s h => h.2)
      (fun s label h hadm => not_delivers_step h.1 hadm)
      ⟨sound_opened f startT, delivers_opened f startT⟩
  refine ⟨hrun labels, fun scans hadm henough => ?_, fun e he hbehind hnot more => ?_⟩
  · have hlast := EachState.last _ ((hrun _).mpr hadm)
    refine hlast.delivered ?_
    rw [run_append]
    exact pending_eq_nil_of_polls henough
  · rw [run_append]
    exact not_sent_of_passedOver ⟨⟨e, he, rfl, rfl⟩, hbehind, hnot⟩ more

/-- Two decisions recorded in one second. -/
def retryDecision : ServerEntry where
  syncId := ⟨"01926f3e-0000-7000-8000-000000000001", by decide⟩
  kind := "decision"
  title := "Retry uploads"
  body := ""
  sourceCommit := none
  createdAt := 1700000000
  externalId := none
  active := true

def backoffDecision : ServerEntry :=
  { retryDecision with
    syncId := ⟨"01926f3e-0000-7000-8000-000000000002", by decide⟩
    title := "Back off between uploads" }

/-- The table's own order. -/
def Scan.rowid : Scan := ⟨id, fun rows => .refl rows⟩

/-- A row written after a poll, in the second that poll has just sent, is never sent. -/
theorem not_delivers_of_same_second :
    ¬ ∃ more, (run Stream.step (.opened .empty 1699999999)
        ([.insert retryDecision, .poll .rowid, .insert backoffDecision] ++ more)).Sent
      backoffDecision.id := by
  rw [not_exists]
  intro more
  rw [run_append]
  refine not_sent_of_passedOver ⟨⟨backoffDecision, ?_, rfl, rfl⟩, ?_, ?_⟩ more
  · decide +kernel
  · show backoffDecision.createdAt ≤ _
    decide +kernel
  · show backoffDecision.id ∉ _
    decide +kernel

end Server
end Inkentry
