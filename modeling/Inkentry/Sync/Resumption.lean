/-
  Inkentry.Sync.Resumption

  Pushing again after a push that failed or was cut off.  Whatever becomes of
  the requests of any number of runs, the server has at most one row of a local
  row at a time, a row is stamped only with an id the server answered for it as
  stored, and a run that ends with no failures leaves nothing to push.

  What a run counts is what it was answered: all it attempted exactly when it
  was not interrupted.
-/

import Mathlib.Data.List.Forall2
import Inkentry.Sync.PushLocal

namespace Inkentry
namespace Sync

open Memory Server Lifetimes SplitQueue Runs

/-! ## What is to hold -/

/-- The server answered the row as stored, with the id. -/
def Reported (heard : List BatchItemResult) (id : NoteId) (remoteId : String) : Prop :=
  ∃ r ∈ heard, (r.status = "created" ∨ r.status = "skipped") ∧ r.externalId = id.token
    ∧ r.id = some remoteId

/-- The row is as it was, or it had no remote id and has one the server answered. -/
def StampedBy (heard : List BatchItemResult) (n n' : Note) : Prop :=
  n' = n ∨ n.remoteId = none
    ∧ ∃ remoteId, n' = { n with remoteId := some remoteId } ∧ Reported heard n.id remoteId

/-- The store is as it was but for such stamps. -/
def Stamps (heard : List BatchItemResult) (s s' : Store) : Prop :=
  List.Forall₂ (StampedBy heard) s.rows s'.rows

/-- The journal has one life of a row at a time, and what is alive is on the server.  No row
    went where nothing may be deleted. -/
structure Remote.Sound (mayDelete : Prop) (srv : Remote) : Prop where
  once : OneAtATime srv.log
  kept : ¬ mayDelete → ∀ x, .gone x ∉ srv.log
  there : ∀ x, Alive srv.log x → x ∈ srv.feed.entries.filterMap ServerEntry.externalId

/-- The row with an id carries a remote id. -/
def Synced (s : Store) (id : NoteId) : Prop := ∀ n ∈ s.rows, n.id = id → n.remoteId.isSome

/-- No active row is left to push. -/
def AllPushed (s : Store) : Prop := ∀ n ∈ s.rows, n.status = "active" → n.remoteId.isSome

def PushSummary.counted (summary : PushSummary) : ℕ :=
  summary.created + summary.skipped + summary.failed

/-! ## Stamps -/

section Stamps

variable {heard heard' : List BatchItemResult} {s s' s'' : Store}
variable {n n' : Note}

theorem Stamps.refl (heard : List BatchItemResult) (s : Store) : Stamps heard s s :=
  List.forall₂_same.mpr fun _ _ => .inl rfl

theorem StampedBy.id_eq (h : StampedBy heard n n') : n'.id = n.id := by
  rcases h with rfl | ⟨-, remoteId, rfl, -⟩ <;> rfl

theorem StampedBy.status_eq (h : StampedBy heard n n') : n'.status = n.status := by
  rcases h with rfl | ⟨-, remoteId, rfl, -⟩ <;> rfl

theorem StampedBy.isSome (h : StampedBy heard n n') (hn : n.remoteId.isSome) :
    n'.remoteId.isSome := by
  rcases h with rfl | ⟨-, remoteId, rfl, -⟩
  · exact hn
  · rfl

theorem StampedBy.trans {n n' n'' : Note} (h : StampedBy heard n n')
    (h' : StampedBy heard n' n'') : StampedBy heard n n'' := by
  rcases h with rfl | ⟨hnone, remoteId, rfl, hreported⟩
  · exact h'
  · -- a row that was stamped is not stamped again
    rcases h' with rfl | ⟨hnone', -⟩
    · exact .inr ⟨hnone, remoteId, rfl, hreported⟩
    · exact absurd hnone' (by simp)

theorem StampedBy.mono (hsub : heard ⊆ heard') (h : StampedBy heard n n') :
    StampedBy heard' n n' := by
  rcases h with rfl | ⟨hnone, remoteId, rfl, r, hr, hstored⟩
  · exact .inl rfl
  · exact .inr ⟨hnone, remoteId, rfl, r, hsub hr, hstored⟩

theorem Stamps.mono (hsub : heard ⊆ heard') (h : Stamps heard s s') : Stamps heard' s s' :=
  List.Forall₂.imp (fun _ _ => StampedBy.mono hsub) h

theorem Stamps.trans (h : Stamps heard s s') (h' : Stamps heard s' s'') : Stamps heard s s'' := by
  unfold Stamps at *
  generalize s.rows = l at h
  generalize s'.rows = l' at h h'
  generalize s''.rows = l'' at h'
  induction h generalizing l'' with
  | nil => cases h'; exact .nil
  | cons hhead _ ih =>
    cases h' with
    | cons hhead' htail' => exact .cons (hhead.trans hhead') (ih _ htail')

theorem Stamps.exists_left (h : Stamps heard s s') {n' : Note} (hn' : n' ∈ s'.rows) :
    ∃ n ∈ s.rows, StampedBy heard n n' := by
  obtain ⟨i, hi, rfl⟩ := List.getElem_of_mem hn'
  have hlen := h.length_eq
  exact ⟨s.rows[i], List.getElem_mem _, h.get (hlen ▸ hi) hi⟩

theorem Stamps.synced (h : Stamps heard s s') {id : NoteId} (hsynced : Synced s id) :
    Synced s' id := by
  intro n' hn' hid
  obtain ⟨n, hn, hstamp⟩ := h.exists_left hn'
  exact hstamp.isSome (hsynced n hn (hstamp.id_eq.symm.trans hid))

end Stamps

/-! ## Stamping a chunk -/

variable {results : List BatchItemResult} {r : BatchItemResult} {chunk : List Note}

theorem stamps_stampResult {heard : List BatchItemResult} {s s' : Store} (hr : r ∈ heard)
    (h : stampResult s chunk r = some s') : Stamps heard s s' := by
  unfold stampResult at h
  split at h
  case isFalse =>
    obtain rfl := Option.some.inj h
    exact .refl heard s
  case isTrue hstored =>
    split at h
    case h_1 remoteId n hid hfind =>
      have hext : n.id.token = r.externalId := by simpa using List.find?_some hfind
      rw [Stamps, Store.setRemoteId_eq_some h, stampRows, List.forall₂_map_right_iff]
      refine List.forall₂_same.mpr fun m _ => ?_
      by_cases hm : m.id = n.id ∧ m.remoteId = none
      · rw [if_pos hm]
        exact .inr ⟨hm.2, remoteId, rfl, r, hr, hstored, by rw [hm.1, hext], hid⟩
      · rw [if_neg hm]
        exact .inl rfl
    case h_2 =>
      obtain rfl := Option.some.inj h
      exact .refl heard s

/-- A result that names a row of the chunk as stored leaves it synced. -/
theorem synced_stampResult {s s' : Store} {n : Note} (hn : n ∈ chunk)
    (hext : r.externalId = n.id.token) (hstored : r.status = "created" ∨ r.status = "skipped")
    (hid : r.id.isSome) (h : stampResult s chunk r = some s') : Synced s' n.id := by
  obtain ⟨remoteId, hremote⟩ := Option.isSome_iff_exists.mp hid
  have hsome : (chunk.find? fun m => m.id.token = r.externalId).isSome :=
    List.find?_isSome.mpr ⟨n, hn, by simp [hext]⟩
  obtain ⟨m, hfind⟩ := Option.isSome_iff_exists.mp hsome
  have hm : m.id = n.id := by
    have htoken : m.id.token = r.externalId := by simpa using List.find?_some hfind
    rw [hext] at htoken
    cases hmid : m.id
    cases hnid : n.id
    rw [hmid, hnid] at htoken
    exact congrArg NoteId.mk htoken
  simp only [stampResult, if_pos hstored, hremote, hfind] at h
  intro n' hn' hid'
  rw [Store.setRemoteId_eq_some h, stampRows] at hn'
  obtain ⟨n₀, -, rfl⟩ := List.mem_map.mp hn'
  by_cases hstamp : n₀.id = m.id ∧ n₀.remoteId = none
  · rw [if_pos hstamp]
    rfl
  · rw [if_neg hstamp] at hid' ⊢
    rw [Option.isSome_iff_ne_none]
    exact fun hnone => hstamp ⟨hid'.trans hm.symm, hnone⟩

theorem stamps_stampResults {heard results : List BatchItemResult} (hsub : results ⊆ heard)
    (chunk : List Note) (s : Store) : Stamps heard s (stampResults chunk s results).1 := by
  induction results generalizing s with
  | nil => exact .refl heard s
  | cons r rest ih =>
    rw [stampResults]
    cases hstamp : stampResult s chunk r with
    | none => exact .refl heard s
    | some s' =>
      exact (stamps_stampResult (hsub List.mem_cons_self) hstamp).trans
        (ih (fun r' hr' => hsub (List.mem_cons_of_mem r hr')) s')

theorem synced_stampResults {s : Store} (hall : (stampResults chunk s results).2 = true)
    (hr : r ∈ results) {n : Note} (hn : n ∈ chunk) (hext : r.externalId = n.id.token)
    (hstored : r.status = "created" ∨ r.status = "skipped") (hid : r.id.isSome) :
    Synced (stampResults chunk s results).1 n.id := by
  induction results generalizing s with
  | nil => exact absurd hr List.not_mem_nil
  | cons r₀ rest ih =>
    rw [stampResults] at hall ⊢
    cases hstamp : stampResult s chunk r₀ with
    | none => rw [hstamp] at hall; exact absurd hall (by simp)
    | some s' =>
      rw [hstamp] at hall
      rcases List.mem_cons.mp hr with rfl | hmem
      · exact (stamps_stampResults (List.Subset.refl rest) chunk s').synced
          (synced_stampResult hn hext hstored hid hstamp)
      · exact ih hall hmem

/-! ## The server -/

section Server

variable {now : Int} {srv : Remote} {mayDelete : Prop}
variable {log : List (Event String)} {item : BatchPushItem}

/-- What pushing one entry answers, and does. -/
theorem pushItem_cases {f f' : Feed} {minted : SyncId} {r : BatchItemResult}
    (h : f.pushItem now minted item = some (r, f')) :
    r.externalId = item.externalId ∧ r.id.isSome
      ∧ (r.status = "skipped" ∧ f' = f
        ∨ r.status = "created" ∧ item.externalId ∉ f.entries.filterMap ServerEntry.externalId
          ∧ f'.entries = f.entries ++ [item.toEntry minted now]) := by
  unfold Feed.pushItem at h
  split at h
  case h_1 existing _ =>
    obtain ⟨rfl, rfl⟩ := Prod.mk.inj (Option.some.inj h)
    exact ⟨rfl, rfl, .inl ⟨rfl, rfl⟩⟩
  case h_2 =>
    obtain ⟨f₁, hins, heq⟩ := Option.map_eq_some_iff.mp h
    obtain ⟨rfl, rfl⟩ := Prod.mk.inj heq
    refine ⟨rfl, rfl, .inr ⟨rfl, ?_, (Feed.insert_eq_some hins).1⟩⟩
    unfold Feed.insert at hins
    split at hins
    case isTrue hfresh => exact hfresh.2 _ rfl
    case isFalse => exact absurd hins (by simp)

/-- A row that is created was not there, so its life begins. -/
theorem Remote.Sound.pushItem (h : srv.Sound mayDelete) {f : Feed} {minted : SyncId}
    {r : BatchItemResult} (hpush : srv.feed.pushItem now minted item = some (r, f)) :
    Remote.Sound mayDelete ⟨f, if r.status = "created" then srv.log ++ [.born item.externalId]
      else srv.log⟩ := by
  obtain ⟨-, -, ⟨hstatus, rfl⟩ | ⟨hstatus, hfresh, hentries⟩⟩ := pushItem_cases hpush
  · rw [if_neg (by rw [hstatus]; decide)]
    exact ⟨h.once, h.kept, h.there⟩
  · rw [if_pos hstatus]
    refine ⟨h.once.append_born fun halive => hfresh (h.there _ halive), fun hkept x hx => ?_,
      fun x halive => ?_⟩
    · exact h.kept hkept x (by simpa using hx)
    have hmem : x ∈ srv.feed.entries.filterMap ServerEntry.externalId
        ∨ x = item.externalId := by
      rcases alive_append_singleton_iff.mp halive with hborn | ⟨hold, -⟩
      · exact .inr (Event.born.inj hborn).symm
      · exact .inl (h.there x hold)
    have happend : f.entries.filterMap ServerEntry.externalId
        = srv.feed.entries.filterMap ServerEntry.externalId ++ [item.externalId] := by
      rw [hentries, List.filterMap_append]
      rfl
    show x ∈ f.entries.filterMap ServerEntry.externalId
    rw [happend, List.mem_append, List.mem_singleton]
    exact hmem

theorem Remote.Sound.handleBatch (h : srv.Sound mayDelete) (slots : List PushSlot) :
    (handleBatch now slots srv).2.Sound mayDelete := by
  induction slots generalizing srv with
  | nil => exact h
  | cons slot rest ih =>
    rw [Sync.handleBatch]
    cases slot.refusal with
    | some refusal => exact ih h
    | none =>
      dsimp only
      cases hpush : srv.feed.pushItem now slot.minted slot.item with
      | none => exact h
      | some stored => exact ih (h.pushItem hpush)

/-- The rows that are left after the rows of some keys have gone are alive still. -/
theorem oneAtATime_append_gone (h : OneAtATime log)
    (gone : List String) : OneAtATime (log ++ gone.map .gone) := by
  induction gone generalizing log with
  | nil => rwa [List.map_nil, List.append_nil]
  | cons x gone ih =>
    rw [List.map_cons, List.append_cons]
    exact ih (h.append_gone x)

theorem alive_append_gone_iff {gone : List String} {x : String} :
    Alive (log ++ gone.map .gone) x ↔ Alive log x ∧ x ∉ gone := by
  induction gone generalizing log with
  | nil => simp
  | cons y gone ih =>
    rw [List.map_cons, List.append_cons, ih, alive_append_singleton_iff]
    simp only [reduceCtorEq, false_or, ne_eq, Event.gone.injEq, List.mem_cons, not_or, and_assoc]
    exact and_congr_right fun _ => and_congr_left fun _ => not_congr eq_comm

theorem Remote.Sound.deleteNote (h : srv.Sound mayDelete) (hmay : mayDelete) (id : String) :
    (srv.deleteNote id).Sound mayDelete := by
  refine ⟨oneAtATime_append_gone h.once _, fun hnot => absurd hmay hnot, fun x halive => ?_⟩
  obtain ⟨hold, hgone⟩ := alive_append_gone_iff.mp halive
  obtain ⟨e, he, hext⟩ := List.mem_filterMap.mp (h.there x hold)
  refine List.mem_filterMap.mpr ⟨e, List.mem_filter.mpr ⟨he, ?_⟩, hext⟩
  by_contra hid
  exact hgone (List.mem_filterMap.mpr ⟨e, List.mem_filter.mpr ⟨he, by simpa using hid⟩, hext⟩)

theorem Remote.Sound.deleteRemotes (h : srv.Sound mayDelete) (hmay : mayDelete)
    (deletions : ℕ → Deletion) (i : ℕ) (ids : List String) :
    (deleteRemotes deletions i ids srv).1.Sound mayDelete := by
  induction ids generalizing srv i with
  | nil => exact h
  | cons id rest ih =>
    rw [Sync.deleteRemotes]
    cases deletions i with
    | done => exact ih (h.deleteNote hmay id) (i + 1)
    | failed handled => cases handled; exacts [h, h.deleteNote hmay id]

/-- The results are those of the entries, in order; one that is stored carries an id. -/
theorem handleBatch_results {slots : List PushSlot} {results : List BatchItemResult}
    (h : (handleBatch now slots srv).1 = some results) :
    List.Forall₂ (fun slot r => r.externalId = slot.item.externalId
      ∧ (r.status = "created" ∨ r.status = "skipped" → r.id.isSome)) slots results := by
  induction slots generalizing srv results with
  | nil =>
    obtain rfl := Option.some.inj h
    exact .nil
  | cons slot rest ih =>
    rw [handleBatch] at h
    cases hrefusal : slot.refusal with
    | some refusal =>
      simp only [hrefusal] at h
      obtain ⟨tail, htail, rfl⟩ := Option.map_eq_some_iff.mp h
      exact .cons ⟨rfl, fun hstored => hstored.elim (absurd · refusal.notStored.1)
        (absurd · refusal.notStored.2)⟩ (ih htail)
    | none =>
      simp only [hrefusal] at h
      cases hpush : srv.feed.pushItem now slot.minted slot.item with
      | none => rw [hpush] at h; exact absurd h (by simp)
      | some stored =>
        obtain ⟨r, f⟩ := stored
        rw [hpush] at h
        obtain ⟨tail, htail, rfl⟩ := Option.map_eq_some_iff.mp h
        obtain ⟨hext, hid, -⟩ := pushItem_cases hpush
        exact .cons ⟨hext, fun _ => hid⟩ (ih htail)

end Server

/-! ## Counting -/

theorem Tally.foldl_count (t : Tally) (results : List BatchItemResult) :
    (results.foldl Tally.count t).total = t.total + results.length
      ∧ (results.foldl Tally.count t).failed
        = t.failed + results.countP fun r => ¬ (r.status = "created" ∨ r.status = "skipped") := by
  induction results generalizing t with
  | nil => exact ⟨rfl, rfl⟩
  | cons r rest ih =>
    obtain ⟨htotal, hfailed⟩ := ih (t.count r)
    rw [List.foldl_cons, List.length_cons, List.countP_cons, htotal, hfailed]
    unfold Tally.count Tally.total
    by_cases hc : r.status = "created"
    · simp [hc]
      omega
    · by_cases hs : r.status = "skipped"
      · simp [hs]
        omega
      · simp [hc, hs]
        omega

theorem Tally.add_of_ne_nil (t : Tally) (h : results ≠ []) :
    t.add (batchPushResponse results) = results.foldl Tally.count t := by
  have hempty : results.isEmpty = false := by simpa using h
  simp [Tally.add, batchPushResponse, hempty]

/-! ## Chunks -/

section Chunks

variable {mayDelete : Prop}
variable {chunk : List Note} {items : List BatchPushItem}

/-- What any part of a run leaves: a journal that is in order, more that was heard, and
    stamps that were answered. -/
structure Advances (mayDelete : Prop) (w w' : PushState) : Prop where
  sound : w.remote.Sound mayDelete → w'.remote.Sound mayDelete
  heard : ∃ more, w'.heard = w.heard ++ more
  stamps : Stamps w'.heard w.store w'.store

theorem Advances.refl (w : PushState) : Advances mayDelete w w :=
  ⟨id, ⟨[], (List.append_nil _).symm⟩, .refl _ _⟩

theorem Advances.trans {w w' w'' : PushState} (h : Advances mayDelete w w')
    (h' : Advances mayDelete w' w'') : Advances mayDelete w w'' := by
  obtain ⟨more, hmore⟩ := h.heard
  obtain ⟨more', hmore'⟩ := h'.heard
  have hsub : w'.heard ⊆ w''.heard := by
    rw [hmore']
    exact List.subset_append_left _ _
  exact ⟨fun hw => h'.sound (h.sound hw), ⟨more ++ more', by rw [hmore', hmore, List.append_assoc]⟩,
    (h.stamps.mono hsub).trans h'.stamps⟩

theorem chunkItems_eq_some {force : Bool} (h : chunkItems force chunk = some items) :
    List.Forall₂ (fun n item => item.externalId = n.id.token) chunk items := by
  induction chunk generalizing items with
  | nil =>
    obtain rfl := Option.some.inj h
    exact .nil
  | cons n chunk ih =>
    rw [chunkItems, List.mapM_cons] at h
    obtain ⟨item, hitem, h⟩ := Option.bind_eq_some_iff.mp h
    obtain ⟨tail, htail, h⟩ := Option.bind_eq_some_iff.mp h
    obtain rfl := Option.some.inj h
    obtain ⟨id, -, rfl⟩ := Option.map_eq_some_iff.mp hitem
    exact .cons rfl (ih htail)

/-- An answer counts every row of the chunk; when all were stored they are synced. -/
structure Answered (chunk : List Note) (w w' : PushState) (res : BatchPushResponse) : Prop where
  response : ∃ results, res = batchPushResponse results ∧ results.length = chunk.length
    ∧ w'.heard = w.heard ++ results
  synced : (∀ r ∈ res.results, r.status = "created" ∨ r.status = "skipped") →
    ∀ n ∈ chunk, Synced w'.store n.id

/-- What sending a chunk does: it dies, it is interrupted and has heard nothing, or it is
    answered. -/
def ChunkSpec (mayDelete : Prop) (chunk : List Note) (w : PushState) (r : PushState × ChunkEnd) : Prop :=
  Advances mayDelete w r.1 ∧
    match r.2 with
    | .died => True
    | .interrupted _ => r.1.heard = w.heard
    | .answered res => Answered chunk w r.1 res

theorem chunkSpec_interrupted {w : PushState} {remote : Remote}
    (hsound : w.remote.Sound mayDelete → remote.Sound mayDelete) (reason : String) :
    ChunkSpec mayDelete chunk w ({ w with remote := remote }, .interrupted reason) :=
  ⟨⟨hsound, ⟨[], (List.append_nil _).symm⟩, .refl _ _⟩, rfl⟩

/-- The rows, the entries sent and the results are in one order, so an answer in which
    everything was stored syncs the chunk. -/
theorem synced_of_results {force : Bool} (hitems : chunkItems force chunk = some items) {now : Int}
    {slot : ℕ → BatchPushItem → PushSlot} (hslot : ∀ i item, (slot i item).item = item)
    {srv remote : Remote} {results : List BatchItemResult}
    (hbatch : handleBatch now (items.mapIdx slot) srv = (some results, remote)) {s s' : Store}
    (hstamped : stampResults chunk s results = (s', true)) :
    results.length = chunk.length
      ∧ ((∀ r ∈ results, r.status = "created" ∨ r.status = "skipped") →
        ∀ n ∈ chunk, Synced s' n.id) := by
  have hresults := handleBatch_results (congrArg Prod.fst hbatch)
  have hrows := chunkItems_eq_some hitems
  have hlen : results.length = chunk.length := by
    rw [← hresults.length_eq, List.length_mapIdx, hrows.length_eq]
  refine ⟨hlen, fun hall n hn => ?_⟩
  obtain ⟨i, hi, rfl⟩ := List.getElem_of_mem hn
  have hi' : i < items.length := hrows.length_eq ▸ hi
  have hanswer := hresults.get (List.length_mapIdx ▸ hi') (hlen ▸ hi)
  have hrow := hrows.get hi hi'
  simp only [List.get_eq_getElem, List.getElem_mapIdx, hslot] at hanswer hrow
  have hmem : results[i] ∈ results := List.getElem_mem _
  have hdone := synced_stampResults (congrArg Prod.snd hstamped) hmem hn
    (hanswer.1.trans hrow) (hall _ hmem) (hanswer.2 (hall _ hmem))
  rwa [hstamped] at hdone

theorem sendChunk_spec (mayDelete : Prop) (force : Bool) (chunk : List Note) (d : Delivery) (w : PushState) :
    ChunkSpec mayDelete chunk w (sendChunk force chunk d w) := by
  cases d with
  | unsent => exact ⟨.refl w, trivial⟩
  | rejected reason => exact ⟨.refl w, rfl⟩
  | handled now minted refused answered reason dies =>
    rw [sendChunk]
    cases hitems : chunkItems force chunk with
    | none => exact ⟨.refl w, rfl⟩
    | some items =>
      dsimp only
      have hsound (hw : w.remote.Sound mayDelete) : Remote.Sound mayDelete (handleBatch now
          (items.mapIdx fun i item => ⟨refused i, minted i, item⟩) w.remote).2 :=
        hw.handleBatch _
      cases hbatch : handleBatch now
        (items.mapIdx fun i item => ⟨refused i, minted i, item⟩) w.remote
      rename_i answer remote
      rw [hbatch] at hsound
      -- the server may have the chunk although the client never hears so
      cases answer with
      | none => exact chunkSpec_interrupted hsound reason
      | some results =>
        cases answered with
        | false => exact chunkSpec_interrupted hsound reason
        | true =>
          have hsub : results ⊆ w.heard ++ results := List.subset_append_right _ _
          -- a process that dies among the stamps has stamped the first results only
          cases dies with
          | some k =>
            exact ⟨⟨hsound, ⟨results, rfl⟩, stamps_stampResults
              (fun r hr => hsub (List.mem_of_mem_take hr)) chunk w.store⟩, trivial⟩
          | none =>
            have hstamps := stamps_stampResults hsub chunk w.store
            obtain ⟨s, all, hstamped⟩ : ∃ s all, stampResults chunk w.store results = (s, all) :=
              ⟨_, _, rfl⟩
            dsimp only
            rw [hstamped] at hstamps ⊢
            cases all with
            | false => exact ⟨⟨hsound, ⟨results, rfl⟩, hstamps⟩, trivial⟩
            | true =>
              obtain ⟨hlen, hsynced⟩ := synced_of_results hitems (fun _ _ => rfl) hbatch hstamped
              exact ⟨⟨hsound, ⟨results, rfl⟩, hstamps⟩, ⟨results, rfl, hlen, rfl⟩, hsynced⟩

/-! ## Runs -/

variable {o : PushOptions}

/-- How a run of chunks ended, against the rows it was given. -/
structure ChunksEnd (rows : List Note) (w w' : PushState) (t t' : Tally)
    (interrupted : Option String) : Prop where
  counted : t'.total + w.heard.length = t.total + w'.heard.length
  whole : interrupted = none → t'.total = t.total + rows.length
  short : interrupted ≠ none → t'.total < t.total + rows.length
  failed_le : t.failed ≤ t'.failed
  synced : interrupted = none → t'.failed = t.failed → ∀ n ∈ rows, Synced w'.store n.id

theorem pushChunks_spec (mayDelete : Prop) (force : Bool) (deliveries : ℕ → Delivery) (i : ℕ)
    {rest : List (List Note)} (hne : ∀ chunk ∈ rest, chunk ≠ []) (w : PushState) (t : Tally) :
    Advances mayDelete w (pushChunks force deliveries i rest w t).1
      ∧ ∀ p ∈ (pushChunks force deliveries i rest w t).2,
        ChunksEnd rest.flatten w (pushChunks force deliveries i rest w t).1 t p.1 p.2 := by
  induction rest generalizing i w t with
  | nil =>
    refine ⟨.refl w, fun p hp => ?_⟩
    obtain rfl := Option.some.inj hp
    exact ⟨rfl, fun _ => rfl, fun h => absurd rfl h, le_rfl, fun _ _ _ h => absurd h List.not_mem_nil⟩
  | cons chunk rest ih =>
    have hchunk : chunk ≠ [] := hne chunk List.mem_cons_self
    have hpos := List.length_pos_iff.mpr hchunk
    have hlen : (chunk :: rest).flatten.length = chunk.length + rest.flatten.length := by
      rw [List.flatten_cons, List.length_append]
    obtain ⟨hadv, hend⟩ := sendChunk_spec mayDelete force chunk (deliveries i) w
    rw [pushChunks]
    cases hsend : sendChunk force chunk (deliveries i) w
    rename_i w₁ chunkEnd
    rw [hsend] at hadv hend
    cases chunkEnd with
    | died => exact ⟨hadv, fun _ h => by cases h⟩
    | interrupted reason =>
      refine ⟨hadv, fun p hp => ?_⟩
      obtain rfl := Option.some.inj hp
      have hless : t.total < t.total + (chunk :: rest).flatten.length := by omega
      have hheard : w₁.heard = w.heard := hend
      exact ⟨by rw [hheard], fun h => absurd h (by simp), fun _ => hless, le_rfl,
        fun h => absurd h (by simp)⟩
    | answered res =>
      obtain ⟨⟨results, rfl, hresults, hheard⟩, hsynced⟩ := hend
      have hadd := Tally.add_of_ne_nil t (List.length_pos_iff.mp (hresults ▸ hpos))
      obtain ⟨htotal, hfailed⟩ := t.foldl_count results
      rw [← hadd] at htotal hfailed
      obtain ⟨hadv', hend'⟩ := ih (i + 1) (fun c hc => hne c (List.mem_cons_of_mem chunk hc)) w₁
        (t.add (batchPushResponse results))
      dsimp only
      refine ⟨hadv.trans hadv', fun p hp => ?_⟩
      have h := hend' p hp
      refine ⟨?_, fun hp => ?_, fun hp => ?_, (by omega : t.failed ≤ _).trans h.failed_le,
        fun hp hnone n hn => ?_⟩
      · have hcount := h.counted
        rw [htotal, hheard, List.length_append] at hcount
        omega
      · have hwhole := h.whole hp
        rw [htotal] at hwhole
        rw [hlen]
        omega
      · have hshort := h.short hp
        rw [htotal] at hshort
        rw [hlen]
        omega
      · -- no failure in the rest, and none in this chunk
        have hle := h.failed_le
        rcases List.mem_append.mp (List.flatten_cons ▸ hn) with hhere | hrest
        · refine hadv'.stamps.synced (hsynced (fun r hr => ?_) n hhere)
          have hzero : results.countP
              (fun r => ¬ (r.status = "created" ∨ r.status = "skipped")) = 0 := by omega
          simpa [or_iff_not_imp_left] using List.countP_eq_zero.mp hzero r hr
        · exact h.synced hp (by omega) n hrest

theorem mem_liveRows_of_active {s : Store} {n : Note} (hn : n ∈ s.rows) (hact : n.status = "active")
    (hremote : n.remoteId = none) : n ∈ liveRows o s := by
  refine List.mem_filter.mpr ⟨?_, by simp [hact, hremote]⟩
  rw [rowsForSync, List.mem_insertionSort]
  exact List.mem_filter.mpr ⟨hn, by simp [hact]⟩

/-- What a run that ends with a summary reports. -/
structure Reports (w w' : PushState) (summary : PushSummary) : Prop where
  counted : summary.counted + w.heard.length = w'.heard.length
  whole : summary.counted = summary.attempted ↔ summary.interrupted = none
  allPushed : summary.interrupted = none → summary.failed = 0 → AllPushed w'.store

theorem allPushed_of_synced {heard : List BatchItemResult} {s s' : Store} (h : Stamps heard s s')
    (hsynced : ∀ n ∈ liveRows o s, Synced s' n.id) : AllPushed s' := by
  intro n' hn' hact
  obtain ⟨n, hn, hstamp⟩ := h.exists_left hn'
  by_cases hremote : n.remoteId = none
  · have hlive := mem_liveRows_of_active (o := o) hn (hstamp.status_eq.symm.trans hact) hremote
    exact hsynced n hlive n' hn' hstamp.id_eq
  · exact hstamp.isSome (Option.isSome_iff_ne_none.mpr hremote)

theorem advances_deletes {w w' : PushState} (h : Advances mayDelete w w') (hmay : mayDelete)
    (deletions : ℕ → Deletion) (ids : List String) :
    Advances mayDelete w { w' with remote := (deleteRemotes deletions 0 ids w'.remote).1 } :=
  ⟨fun hw => (h.sound hw).deleteRemotes hmay deletions 0 ids, h.heard, h.stamps⟩

theorem pushLocalReporting_spec (hmay : o.includeArchived = true → mayDelete) (faults : PushFaults)
    (w : PushState) :
    Advances mayDelete w (pushLocalReporting o faults w).1
      ∧ ∀ summary ∈ (pushLocalReporting o faults w).2,
        Reports w (pushLocalReporting o faults w).1 summary := by
  have hne : ∀ chunk ∈ chunks pushBatchChunkSize (liveRows o w.store), chunk ≠ [] :=
    fun _ h => ne_nil_of_mem_chunks h
  obtain ⟨hadv, hend⟩ := pushChunks_spec mayDelete o.force faults.deliveries 0 hne w ⟨0, 0, 0⟩
  rw [flatten_chunks (by decide)] at hend
  unfold pushLocalReporting
  by_cases hempty : (rowsForSync w.store o.includeArchived).isEmpty = true
  · rw [if_pos hempty]
    refine ⟨.refl w, fun summary h => ?_⟩
    obtain rfl := Option.some.inj h
    refine ⟨Nat.zero_add _, iff_of_true rfl rfl, fun _ _ => ?_⟩
    refine allPushed_of_synced (o := o) (.refl w.heard w.store) fun n hn => ?_
    rw [liveRows, List.isEmpty_iff.mp hempty] at hn
    exact absurd hn List.not_mem_nil
  · rw [if_neg hempty]
    dsimp only
    cases hpush : pushChunks o.force faults.deliveries 0
      (chunks pushBatchChunkSize (liveRows o w.store)) w ⟨0, 0, 0⟩
    rename_i w' stop
    rw [hpush] at hadv hend
    cases stop with
    | none => exact ⟨hadv, fun _ h => by cases h⟩
    | some p =>
      obtain ⟨t, interrupted⟩ := p
      have hchunks := hend _ rfl
      have hzero : Tally.total ⟨0, 0, 0⟩ = 0 := rfl
      have hreports (w'' : PushState) (hheard : w''.heard = w'.heard)
          (hstore : w''.store = w'.store) : Reports w w'' ⟨(liveRows o w.store).length, t.created,
            t.skipped, t.failed, if o.force then 0 else (rowsForSync w.store
              o.includeArchived).countP fun n => n.status ≠ "archived" && n.remoteId.isSome,
            interrupted⟩ := by
        refine ⟨?_, ?_, fun hinterrupted hfailed => ?_⟩
        · have hcounted := hchunks.counted
          rw [hzero, Nat.zero_add] at hcounted
          rw [hheard, ← hcounted]
          rfl
        · have hshort := hchunks.short
          rw [hzero, Nat.zero_add] at hshort
          refine ⟨fun hwhole => ?_, fun hnone => ?_⟩
          · by_contra hsome
            exact absurd hwhole (hshort hsome).ne
          · have hwhole := hchunks.whole hnone
            rwa [hzero, Nat.zero_add] at hwhole
        · rw [hstore]
          exact allPushed_of_synced hadv.stamps (hchunks.synced hinterrupted hfailed)
      dsimp only
      -- deletions follow only a push that was not interrupted
      by_cases hdelete : (interrupted.isNone && o.includeArchived) = true
      · rw [if_pos hdelete]
        have harchived : o.includeArchived = true := (Bool.and_eq_true_iff.mp hdelete).2
        have hadv' := advances_deletes hadv (hmay harchived) faults.deletions (tombstones o w.store)
        cases hdeleted : deleteRemotes faults.deletions 0 (tombstones o w.store) w'.remote
        rename_i remote all
        rw [hdeleted] at hadv'
        cases all with
        | true =>
          refine ⟨hadv', fun summary h => ?_⟩
          obtain rfl := Option.some.inj h
          exact hreports _ rfl rfl
        | false => exact ⟨hadv', fun _ h => by cases h⟩
      · rw [if_neg hdelete]
        refine ⟨hadv, fun summary h => ?_⟩
        obtain rfl := Option.some.inj h
        exact hreports _ rfl rfl

/-- A project and a store before the first run. -/
def PushState.start (s : Store) (f : Feed) : PushState := ⟨s, ⟨f, []⟩, []⟩

/-- One run after another. -/
def pushRuns (runs : List (PushOptions × PushFaults)) (w : PushState) : PushState :=
  run (fun w r => (pushLocalReporting r.1 r.2 w).1) w runs

theorem advances_pushRuns {runs : List (PushOptions × PushFaults)}
    (hmay : ∀ r ∈ runs, r.1.includeArchived = true → mayDelete) (w : PushState) :
    Advances mayDelete w (pushRuns runs w) := by
  induction runs generalizing w with
  | nil => exact .refl w
  | cons r runs ih =>
    exact (pushLocalReporting_spec (hmay r List.mem_cons_self) r.2 w).1.trans
      (ih (fun r' hr' => hmay r' (List.mem_cons_of_mem r hr')) _)

end Chunks

/-- A row that has not been pushed. -/
def unpushedRow : Note where
  id := ⟨"a"⟩
  entityId := "e"
  kind := "decision"
  title := "t"
  body := ""
  tags := []
  linkedFiles := []
  createdAt := 0
  status := "active"
  supersededBy := none
  sourceRef := none
  validAt := none
  invalidAt := none
  remoteId := none
  origin := none

/-- A server that rejects every batch. -/
def rejecting : PushFaults := ⟨fun _ => .rejected "429 Too Many Requests", fun _ => .done⟩

end Sync
end Inkentry
