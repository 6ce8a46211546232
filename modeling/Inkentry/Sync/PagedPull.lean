/-
  Inkentry.Sync.PagedPull

  A pull page by page: the client asks for a hundred entries after its cursor,
  applies them, and goes on from the last one until a page is shorter than it
  asked for.

  The server clamps what it is asked for to a ceiling, five hundred in the code.
  A drain is complete for every ceiling that leaves the client's hundred alone;
  below that a clamped page looks like the last one (`drains_iff`).
-/

import Mathlib.Data.PNat.Defs
import Inkentry.Server.Feed

namespace Inkentry
namespace Sync

open Memory OrderLimit Server

variable {env : StoreEnv} {σ : Type}

/-! ## The server's page -/

/-- One page of the pull.  The total is of the whole project, and repeated on each page. -/
structure SincePage where
  entries : List RemoteEntry
  total : Option ℕ

/-- The active entries after a cursor, by id, at most `ceiling` of them. -/
def notesSinceIdUpTo (ceiling : ℕ+) (f : Feed) (cursor : String) (limit : Int) :
    List ServerEntry :=
  orderLimit ServerEntry.id (max 1 (min limit (ceiling : ℕ))).toNat
    (f.entries.filter fun e => e.active && cursor < e.id)

/-- What the server answers a request for a page with. -/
def memorySince (ceiling : ℕ+) (f : Feed) (sinceId : String) (limit : Int) : SincePage where
  entries := (notesSinceIdUpTo ceiling f sinceId limit).map ServerEntry.toRemote
  total := some f.activeNoteCount

/-- The page the client gets.  A project that is not there has nothing to pull. -/
def pullSince (ceiling : ℕ+) (project : Option Feed) (sinceId : Option String) : SincePage :=
  match project with
  | none => ⟨[], none⟩
  | some f => memorySince ceiling f (sinceId.getD nilUuid) memorySincePullLimit

/-! ## The drain -/

/-- Pulls pages until one is short.  The outer `none` is a drain that `fuel` pages did
    not end, the inner one an entry that could not be applied. -/
def drainPagesSince (pull : Option String → SincePage) (apply : σ → RemoteEntry → Option σ) :
    ℕ → Option String → σ → Option ℕ → Option (Option (σ × Option ℕ))
  | 0, _, _, _ => none
  | fuel + 1, cursor, s, total =>
    let page := pull cursor
    let total := page.total.or total
    match page.entries.foldlM apply s with
    | none => some none
    | some s' =>
      if (page.entries.length : Int) < memorySincePullLimit then some (some (s', total))
      else drainPagesSince pull apply fuel (page.entries.getLast?.map RemoteEntry.id) s' total

/-- Applies one entry to the local store, counting the rows that are inserted. -/
def applyCounted (env : StoreEnv) (uuids : ℕ → NoteId) (acc : Store × ℕ) (e : RemoteEntry) :
    Option (Store × ℕ) :=
  (acc.1.applyRemoteNote env (uuids acc.2) e).map fun (inserted, s) =>
    (s, if inserted then acc.2 + 1 else acc.2)

/-! ## What a drain is to deliver -/

/-- The project's active entries after a cursor. -/
def ActiveAfter (project : Option Feed) (cursor : Option String) (r : RemoteEntry) : Prop :=
  ∃ f ∈ project, ∃ e ∈ f.entries, e.active = true ∧ cursor.getD nilUuid < e.id ∧ e.toRemote = r

/-- A drain ends, and applies each active entry after the cursor once, by id. -/
def Drains (ceiling : ℕ+) (project : Option Feed) (cursor : Option String) : Prop :=
  ∃ entries : List RemoteEntry, entries.Pairwise (fun a b => a.id < b.id)
    ∧ (∀ r, r ∈ entries ↔ ActiveAfter project cursor r)
    ∧ ∃ pages, ∀ fuel ≥ pages, ∀ (σ : Type) (apply : σ → RemoteEntry → Option σ) (s : σ),
      drainPagesSince (pullSince ceiling project) apply fuel cursor s none
        = some ((entries.foldlM apply s).map (·, project.map Feed.activeNoteCount))

/-- The active entries after an id, in the order of their ids. -/
def activeRows (f : Feed) (cursor : String) : List ServerEntry :=
  sortBy ServerEntry.id (f.entries.filter fun e => e.active && cursor < e.id)

/-! ## Pages -/

theorem nodup_ids_filter (f : Feed) (p : ServerEntry → Bool) :
    ((f.entries.filter p).map ServerEntry.id).Nodup :=
  f.idUnique.sublist (List.filter_sublist.map _)

theorem mem_activeRows {f : Feed} {cursor : String} {e : ServerEntry} :
    e ∈ activeRows f cursor ↔ e ∈ f.entries ∧ e.active = true ∧ cursor < e.id := by
  rw [activeRows, mem_sortBy, List.mem_filter]
  simp

theorem activeRows_pairwise (f : Feed) (cursor : String) :
    (activeRows f cursor).Pairwise fun a b => a.id < b.id := by
  have hnodup : ((activeRows f cursor).map ServerEntry.id).Nodup :=
    ((sortBy_perm ServerEntry.id _).map ServerEntry.id).nodup_iff.mpr (nodup_ids_filter f _)
  have hle := sortBy_pairwise ServerEntry.id
    (f.entries.filter fun e => e.active && cursor < e.id)
  exact (hle.and (List.pairwise_map.mp hnodup)).imp fun h => lt_of_le_of_ne h.1 h.2

/-- The rows a page may hold. -/
def pageRoom (ceiling : ℕ+) : ℕ := min 100 ceiling

theorem notesSinceIdUpTo_eq (ceiling : ℕ+) (f : Feed) (cursor : String) :
    notesSinceIdUpTo ceiling f cursor memorySincePullLimit
      = (activeRows f cursor).take (pageRoom ceiling) := by
  have hroom : (max 1 (min memorySincePullLimit (ceiling : ℕ))).toNat = pageRoom ceiling := by
    have hpos := ceiling.pos
    rw [memorySincePullLimit, pageRoom]
    omega
  rw [notesSinceIdUpTo, hroom, orderLimit, activeRows]

/-- From the last row of a page on, the next one starts with what the page left out. -/
theorem activeRows_getLast? {f : Feed} {cursor : String} {k : ℕ} {x : ServerEntry}
    (hx : x ∈ ((activeRows f cursor).take k).getLast?) :
    activeRows f x.id = (activeRows f cursor).drop k := by
  have hcur : cursor < x.id :=
    (mem_activeRows.mp (List.mem_of_mem_take (List.mem_of_getLast? hx))).2.2
  rw [activeRows, activeRows, ← sortBy_filter_lt_getLast? ServerEntry.id (nodup_ids_filter f _) hx,
    List.filter_filter]
  refine congrArg _ (List.filter_congr fun e _ => ?_)
  by_cases hlt : x.id < e.id
  · simp [hlt, hcur.trans hlt]
  · simp [hlt]

/-! ## The pages of one drain -/

section Page

variable {ceiling : ℕ+} {f : Feed} {apply : σ → RemoteEntry → Option σ} {fuel : ℕ}
  {cursor : Option String} {s : σ} {total : Option ℕ}

theorem pullSince_entries (cursor : Option String) :
    (pullSince ceiling (some f) cursor).entries
      = ((activeRows f (cursor.getD nilUuid)).take (pageRoom ceiling)).map ServerEntry.toRemote :=
  congrArg (List.map ServerEntry.toRemote) (notesSinceIdUpTo_eq ceiling f _)

theorem length_pullSince_entries (cursor : Option String) :
    (pullSince ceiling (some f) cursor).entries.length
      = min (pageRoom ceiling) (activeRows f (cursor.getD nilUuid)).length := by
  rw [pullSince_entries, List.length_map, List.length_take]

/-- A page that is short of the client's hundred ends the drain. -/
theorem drainPagesSince_short
    (hshort : min (pageRoom ceiling) (activeRows f (cursor.getD nilUuid)).length < 100) :
    drainPagesSince (pullSince ceiling (some f)) apply (fuel + 1) cursor s total
      = some (((((activeRows f (cursor.getD nilUuid)).take (pageRoom ceiling)).map
          ServerEntry.toRemote).foldlM apply s).map (·, some f.activeNoteCount)) := by
  have hlen : ((pullSince ceiling (some f) cursor).entries.length : Int)
      < memorySincePullLimit := by
    rw [length_pullSince_entries, memorySincePullLimit]
    omega
  rw [drainPagesSince, ← pullSince_entries]
  cases hfold : (pullSince ceiling (some f) cursor).entries.foldlM apply s with
  | none => rfl
  | some s' =>
    simp only [if_pos hlen]
    rfl

/-- A full page is followed by the drain of what it left out. -/
theorem drainPagesSince_full (apply : σ → RemoteEntry → Option σ) (fuel : ℕ) (s : σ)
    (total : Option ℕ) (hfull : 100 ≤ (activeRows f (cursor.getD nilUuid)).length)
    (hceiling : 100 ≤ (ceiling : ℕ)) :
    ∃ c, activeRows f c = (activeRows f (cursor.getD nilUuid)).drop 100
      ∧ drainPagesSince (pullSince ceiling (some f)) apply (fuel + 1) cursor s total
        = match (((activeRows f (cursor.getD nilUuid)).take 100).map
            ServerEntry.toRemote).foldlM apply s with
          | none => some none
          | some s' => drainPagesSince (pullSince ceiling (some f)) apply fuel (some c) s'
              (some f.activeNoteCount) := by
  -- a full page never looks like the last one
  have hroom : pageRoom ceiling = 100 := by
    rw [pageRoom]
    omega
  have hlen : ¬ ((pullSince ceiling (some f) cursor).entries.length : Int)
      < memorySincePullLimit := by
    rw [length_pullSince_entries, memorySincePullLimit, hroom]
    omega
  have hne : (activeRows f (cursor.getD nilUuid)).take 100 ≠ [] := by
    intro hnil
    have := congrArg List.length hnil
    rw [List.length_take, List.length_nil] at this
    omega
  have hlast := List.getLast?_eq_some_getLast hne
  refine ⟨((activeRows f (cursor.getD nilUuid)).take 100 |>.getLast hne).id,
    activeRows_getLast? hlast, ?_⟩
  have hentries : (pullSince ceiling (some f) cursor).entries
      = ((activeRows f (cursor.getD nilUuid)).take 100).map ServerEntry.toRemote := by
    rw [pullSince_entries, hroom]
  rw [drainPagesSince, ← hentries]
  cases hfold : (pullSince ceiling (some f) cursor).entries.foldlM apply s with
  | none => rfl
  | some s' =>
    have hnext : (pullSince ceiling (some f) cursor).entries.getLast?.map RemoteEntry.id
        = some ((activeRows f (cursor.getD nilUuid)).take 100 |>.getLast hne).id := by
      rw [hentries, List.getLast?_map, hlast]
      rfl
    simp only [if_neg hlen, hnext]
    rfl

end Page

/-! ## The whole drain -/

variable {cursor : Option String}

/-- With a ceiling that leaves the client's hundred alone, a drain ends within a page for
    every hundred entries and one more, and applies them all. -/
theorem drainPagesSince_eq {ceiling : ℕ+} (hceiling : 100 ≤ (ceiling : ℕ)) {f : Feed}
    {apply : σ → RemoteEntry → Option σ} {fuel : ℕ} (s : σ) (total : Option ℕ)
    (hfuel : (activeRows f (cursor.getD nilUuid)).length < 100 * fuel) :
    drainPagesSince (pullSince ceiling (some f)) apply fuel cursor s total
      = some ((((activeRows f (cursor.getD nilUuid)).map ServerEntry.toRemote).foldlM apply s).map
          (·, some f.activeNoteCount)) := by
  induction fuel generalizing cursor s total with
  | zero => omega
  | succ fuel ih =>
    rcases Nat.lt_or_ge (activeRows f (cursor.getD nilUuid)).length 100 with hshort | hfull
    · have hroom : (activeRows f (cursor.getD nilUuid)).length ≤ pageRoom ceiling := by
        rw [pageRoom]
        omega
      rw [drainPagesSince_short (by omega), List.take_of_length_le hroom]
    · obtain ⟨c, hrest, hstep⟩ := drainPagesSince_full apply fuel s total hfull hceiling
      have hwhole : (activeRows f (cursor.getD nilUuid)).map ServerEntry.toRemote
          = ((activeRows f (cursor.getD nilUuid)).take 100).map ServerEntry.toRemote
            ++ (activeRows f c).map ServerEntry.toRemote := by
        rw [hrest, ← List.map_append, List.take_append_drop]
      have hlen : (activeRows f c).length < 100 * fuel := by
        rw [hrest, List.length_drop]
        omega
      rw [hstep, hwhole, List.foldlM_append]
      cases (((activeRows f (cursor.getD nilUuid)).take 100).map
          ServerEntry.toRemote).foldlM apply s with
      | none => rfl
      | some s' => exact ih s' (some f.activeNoteCount) hlen

/-- A drain whose first page holds all there is ends there. -/
theorem drainPagesSince_one {ceiling : ℕ+} {f : Feed} {apply : σ → RemoteEntry → Option σ}
    {fuel : ℕ} {s : σ} {total : Option ℕ} (hceiling : (ceiling : ℕ) < 100) :
    drainPagesSince (pullSince ceiling (some f)) apply (fuel + 1) cursor s total
      = some (((((activeRows f (cursor.getD nilUuid)).take ceiling).map
          ServerEntry.toRemote).foldlM apply s).map (·, some f.activeNoteCount)) := by
  have hroom : pageRoom ceiling = ceiling := by
    rw [pageRoom]
    omega
  rw [drainPagesSince_short (by omega), hroom]

/-- The number of active entries after an id. -/
def activeCount (f : Feed) (cursor : String) : ℕ :=
  f.entries.countP fun e => e.active && cursor < e.id

theorem length_activeRows (f : Feed) (cursor : String) :
    (activeRows f cursor).length = activeCount f cursor := by
  rw [activeRows, length_sortBy, activeCount, List.countP_eq_length_filter]

theorem toRemote_pairwise (f : Feed) (cursor : String) :
    ((activeRows f cursor).map ServerEntry.toRemote).Pairwise fun a b => a.id < b.id :=
  List.pairwise_map.mpr (activeRows_pairwise f cursor)

theorem mem_toRemote_iff {f : Feed} {r : RemoteEntry} :
    r ∈ (activeRows f (cursor.getD nilUuid)).map ServerEntry.toRemote
      ↔ ActiveAfter (some f) cursor r := by
  rw [List.mem_map]
  constructor
  · rintro ⟨e, he, rfl⟩
    obtain ⟨hmem, hact, hlt⟩ := mem_activeRows.mp he
    exact ⟨f, rfl, e, hmem, hact, hlt, rfl⟩
  · rintro ⟨f', hf', e, hmem, hact, hlt, rfl⟩
    obtain rfl := Option.some.inj hf'
    exact ⟨e, mem_activeRows.mpr ⟨hmem, hact, hlt⟩, rfl⟩

theorem drains_of_le {ceiling : ℕ+} {f : Feed}
    (h : 100 ≤ (ceiling : ℕ) ∨ activeCount f (cursor.getD nilUuid) ≤ ceiling) :
    Drains ceiling (some f) cursor := by
  refine ⟨(activeRows f (cursor.getD nilUuid)).map ServerEntry.toRemote,
    toRemote_pairwise f _, fun r => mem_toRemote_iff,
    activeCount f (cursor.getD nilUuid) / 100 + 1, fun fuel hfuel σ apply s => ?_⟩
  rcases Nat.lt_or_ge (ceiling : ℕ) 100 with hsmall | hlarge
  · have hall := h.resolve_left (by omega)
    obtain ⟨fuel, rfl⟩ := Nat.exists_eq_succ_of_ne_zero (show fuel ≠ 0 by omega)
    rw [drainPagesSince_one hsmall,
      List.take_of_length_le (by rw [length_activeRows]; exact hall)]
    rfl
  · have hlen : (activeRows f (cursor.getD nilUuid)).length < 100 * fuel := by
      rw [length_activeRows]
      omega
    exact drainPagesSince_eq hlarge s none hlen

/-- Below the client's hundred, what does not fit one page is left out. -/
theorem activeCount_le_of_drains {ceiling : ℕ+} {f : Feed} (hceiling : (ceiling : ℕ) < 100)
    (h : Drains ceiling (some f) cursor) : activeCount f (cursor.getD nilUuid) ≤ ceiling := by
  obtain ⟨entries, hsorted, hmem, pages, hdrain⟩ := h
  -- what was applied, read off by collecting it
  have hcollect (l acc : List RemoteEntry) :
      l.foldlM (fun acc r => some (acc ++ [r])) acc = some (acc ++ l) := by
    induction l generalizing acc with
    | nil => simp
    | cons r l ih => rw [List.foldlM_cons, Option.bind_eq_bind, Option.bind_some, ih]; simp
  have hone := hdrain (pages + 1) (Nat.le_succ _) (List RemoteEntry)
    (fun acc r => some (acc ++ [r])) []
  rw [drainPagesSince_one hceiling, hcollect, hcollect, List.nil_append, List.nil_append] at hone
  have hentries := congrArg Prod.fst (Option.some.inj (Option.some.inj hone))
  have hnodup : ((activeRows f (cursor.getD nilUuid)).map ServerEntry.toRemote).Nodup :=
    (toRemote_pairwise f _).imp fun hlt heq => hlt.ne (congrArg _ heq)
  have hsub : (activeRows f (cursor.getD nilUuid)).map ServerEntry.toRemote ⊆ entries :=
    fun r hr => (hmem r).mpr (mem_toRemote_iff.mp hr)
  have hle := (List.subperm_of_subset hnodup hsub).length_le
  simp only at hentries
  rw [← hentries, List.length_map, List.length_map, List.length_take, length_activeRows] at hle
  omega

/-- A pull drains the project, whatever of it is archived, for every ceiling that leaves
    the client's hundred alone or all of what is pulled. -/
theorem drains_iff (ceiling : ℕ+) (project : Option Feed) (cursor : Option String) :
    Drains ceiling project cursor
      ↔ 100 ≤ (ceiling : ℕ) ∨ ∀ f ∈ project, activeCount f (cursor.getD nilUuid) ≤ ceiling := by
  cases project with
  | none =>
    refine iff_of_true ⟨[], List.Pairwise.nil, fun r => ?_, 1, fun fuel hfuel σ apply s => ?_⟩
      (.inr fun f hf => absurd hf (by simp))
    · simp [ActiveAfter]
    · obtain ⟨fuel, rfl⟩ := Nat.exists_eq_succ_of_ne_zero (show fuel ≠ 0 by omega)
      rfl
  | some f =>
    constructor
    · intro h
      rcases Nat.lt_or_ge (ceiling : ℕ) 100 with hsmall | hlarge
      · refine .inr fun f' hf' => ?_
        obtain rfl := Option.some.inj hf'
        exact activeCount_le_of_drains hsmall h
      · exact .inl hlarge
    · rintro (hlarge | hall)
      · exact drains_of_le (.inl hlarge)
      · exact drains_of_le (.inr (hall f rfl))

/-- An entry of two that a page of one shows. -/
def firstOfTwo : ServerEntry where
  syncId := ⟨"1", by decide⟩
  kind := "decision"
  title := "a"
  body := ""
  sourceCommit := none
  createdAt := 0
  externalId := none
  active := true

/-- The entry it leaves out. -/
def secondOfTwo : ServerEntry := { firstOfTwo with syncId := ⟨"2", by decide⟩, title := "b" }

/-- A server that hands out one entry at a time ends a drain after the first. -/
theorem not_drains_of_ceiling_one :
    ¬ Drains 1 (some ⟨[firstOfTwo, secondOfTwo], by decide, by decide⟩) none := by
  intro h
  have hle := activeCount_le_of_drains (by decide) h
  revert hle
  decide

/-! ## The local store -/

/-- A drain into the local store leaves it as applying the active entries one by one does,
    with the number of rows that were inserted. -/
theorem drainPagesSince_applyCounted (uuids : ℕ → NoteId) (f : Feed) (cursor : Option String)
    (s : Store) {fuel : ℕ} (hfuel : activeCount f (cursor.getD nilUuid) < 100 * fuel) :
    drainPagesSince (pullSince 500 (some f)) (applyCounted env uuids) fuel cursor (s, 0) none
      = some ((((activeRows f (cursor.getD nilUuid)).map ServerEntry.toRemote).foldlM
          (applyCounted env uuids) (s, 0)).map (·, some f.activeNoteCount)) :=
  drainPagesSince_eq (by decide) _ _ (by rwa [length_activeRows])

end Sync
end Inkentry
