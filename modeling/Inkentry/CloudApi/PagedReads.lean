/-
  Inkentry.CloudApi.PagedReads

  The reads of a hosted project that page through its listing: the lookup of a
  handle, the set of harvested commits, and the check for one commit.

  The listing is newest first and served by limit and offset, and other clients
  add and delete entries between two requests.  An entry then moves, and a move
  across the next offset shows it twice or not at all.  `readsAll_of_keepsOffsets`
  says what holds when nothing moves across an offset and the walk meets the end
  of the listing within its pages.
-/

import Inkentry.Record
import Inkentry.Lib.OffsetPages
import Mathlib.Data.List.Infix
import Mathlib.Data.List.Nodup

namespace Inkentry
namespace CloudApi

open OffsetPages

/-! ## The listing -/

/-- Entries fetched per page. -/
def PAGE_SIZE : Nat := 200

/-- Ceiling on the pages of a walk. -/
def MAX_PAGES : Nat := 500

/-- An entry as the listing returns it. -/
structure EntryResponse where
  id : NoteId
  kind : String
  title : String
  body : Option String
  sourceCommit : Option String
  archivedAt : Option String
  createdAt : Option String
  deriving DecidableEq

/-- The hash of a content, and the Unix time of an RFC 3339 text that can be read. -/
structure Env where
  sha : String → String
  epochSecs : String → Option Int

def EntryResponse.intoNote (env : Env) (e : EntryResponse) : Note where
  id := e.id
  entityId := entityId env.sha e.kind e.title (e.body.getD "")
  kind := e.kind
  title := e.title
  body := e.body.getD ""
  tags := []
  linkedFiles := []
  createdAt := (e.createdAt.bind env.epochSecs).getD 0
  status := if e.archivedAt.isSome then "archived" else "active"
  supersededBy := none
  sourceRef := e.sourceCommit
  validAt := none
  invalidAt := e.archivedAt.bind env.epochSecs
  remoteId := some e.id.token
  origin := none

/-- A project on the server: its entries, newest first, and the ids that are gone.  An id is
    given out once. -/
structure Project where
  entries : List EntryResponse
  gone : List NoteId
  idsUnique : (entries.map EntryResponse.id ++ gone).Nodup

/-- What another client does to it.  An archive leaves the entry in a listing that asks for
    archived ones too, as these walks do. -/
inductive Change where
  /-- A new entry, at the place its creation time gives it. -/
  | insert (place : Nat) (e : EntryResponse)
  | delete (id : NoteId)

/-- The entry is added unless its id has been given out before. -/
def Project.insert (p : Project) (place : Nat) (e : EntryResponse) : Project :=
  if h : e.id ∈ p.entries.map EntryResponse.id ++ p.gone then p
  else
    { entries := p.entries.take place ++ e :: p.entries.drop place
      gone := p.gone
      idsUnique := by
        have hperm : ((p.entries.take place ++ e :: p.entries.drop place).map EntryResponse.id
            ++ p.gone).Perm (e.id :: (p.entries.map EntryResponse.id ++ p.gone)) := by
          have hmiddle : (p.entries.take place ++ e :: p.entries.drop place).Perm
              (e :: p.entries) := by
            refine List.perm_middle.trans (List.Perm.cons e ?_)
            rw [List.take_append_drop]
          exact (hmiddle.map EntryResponse.id).append_right p.gone
        exact hperm.nodup_iff.mpr (List.nodup_cons.mpr ⟨h, p.idsUnique⟩) }

def Project.delete (p : Project) (id : NoteId) : Project :=
  if h : id ∈ p.entries.map EntryResponse.id then
    { entries := p.entries.filter fun e => e.id ≠ id
      gone := id :: p.gone
      idsUnique := by
        have hunique := List.nodup_append.mp p.idsUnique
        refine List.nodup_append.mpr ⟨hunique.1.sublist (List.Sublist.map _ List.filter_sublist),
          List.nodup_cons.mpr ⟨fun hgone => hunique.2.2 id h id hgone rfl, hunique.2.1⟩, ?_⟩
        intro a ha b hb hab
        obtain ⟨e, he, rfl⟩ := List.mem_map.mp ha
        obtain ⟨hmem, hne⟩ := List.mem_filter.mp he
        rcases List.mem_cons.mp hb with rfl | hgone
        · exact absurd hab (of_decide_eq_true hne)
        · exact hunique.2.2 e.id (List.mem_map_of_mem hmem) b hgone hab }
  else p

def Project.apply (p : Project) : Change → Project
  | .insert place e => p.insert place e
  | .delete id => p.delete id

/-- `GET /memory`. -/
def Project.serve (p : Project) (includeArchived : Bool) (limit offset : Nat) :
    List EntryResponse :=
  ((p.entries.filter fun e => includeArchived || e.archivedAt.isNone).drop offset).take limit

/-! ## Walks -/

/-- A project, what other clients do to it before each request, and the requests that fail. -/
structure Interleaving where
  start : Project
  changes : Nat → List Change
  fails : Nat → Bool

/-- The project a request sees. -/
def Interleaving.state (t : Interleaving) : Nat → Project
  | 0 => (t.changes 0).foldl Project.apply t.start
  | i + 1 => (t.changes (i + 1)).foldl Project.apply (t.state i)

/-- The answer to a request; `none` is an error. -/
def Interleaving.page (t : Interleaving) (includeArchived : Bool) (i : Nat) :
    Option (List EntryResponse) :=
  if t.fails i then none
  else some ((t.state i).serve includeArchived PAGE_SIZE (i * PAGE_SIZE))

/-- The pages of a walk that reads them all, and whether it met one that is not full. -/
def Interleaving.walk (t : Interleaving) (includeArchived : Bool) :
    Nat → Nat → Option (List (List EntryResponse) × Bool)
  | 0, _ => some ([], false)
  | pages + 1, i => (t.page includeArchived i).bind fun entries =>
    if entries.length < PAGE_SIZE then some ([entries], true)
    else (t.walk includeArchived pages (i + 1)).map fun rest => (entries :: rest.1, rest.2)

/-- What a lookup found, and whether the walk saw every entry. -/
inductive EntityIdLookup where
  | complete (ids : List NoteId)
  | bounded (ids : List NoteId) (examined : Nat)
  deriving DecidableEq

def EntityIdLookup.matched : EntityIdLookup → List NoteId
  | .complete ids => ids
  | .bounded ids _ => ids

/-- The entry's handle starts with the text. -/
def Matches (env : Env) (handle : String) (e : EntryResponse) : Prop :=
  handle.toList <+: (e.intoNote env).entityId.toList

instance (env : Env) (handle : String) : DecidablePred (Matches env handle) := fun e =>
  inferInstanceAs (Decidable (handle.toList <+: (e.intoNote env).entityId.toList))

/-- `note_ids_for_entity_id_prefix`. -/
def noteIdsForEntityIdPrefix (env : Env) (t : Interleaving) (handle : String) :
    Option EntityIdLookup :=
  (t.walk true MAX_PAGES 0).map fun read =>
    let ids := (read.1.flatten.filter fun e => Matches env handle e).map fun e =>
      (e.intoNote env).id
    if read.2 then .complete ids else .bounded ids (MAX_PAGES * PAGE_SIZE)

/-- `harvested_shas`. -/
def harvestedShas (t : Interleaving) : Option (List String) :=
  (t.walk true MAX_PAGES 0).map fun read => read.1.flatten.filterMap EntryResponse.sourceCommit

/-- The entry's commit starts with the text. -/
def FromCommit (sha : String) (e : EntryResponse) : Prop :=
  ∃ commit ∈ e.sourceCommit, sha.toList <+: commit.toList

instance (sha : String) : DecidablePred (FromCommit sha) := fun e =>
  inferInstanceAs (Decidable (∃ commit ∈ e.sourceCommit, sha.toList <+: commit.toList))

/-- The entries of a page that match, added to those of the pages before, up to a limit; and
    whether it is reached. -/
def keepMatches (env : Env) (sha : String) (limit : Nat) :
    List Note → List EntryResponse → List Note × Bool
  | out, [] => (out, false)
  | out, e :: rest =>
    if FromCommit sha e then
      if limit ≤ (out ++ [e.intoNote env]).length then (out ++ [e.intoNote env], true)
      else keepMatches env sha limit (out ++ [e.intoNote env]) rest
    else keepMatches env sha limit out rest

/-- The loop of `filter_by_source_commit`. -/
def filterPages (env : Env) (t : Interleaving) (sha : String) (limit : Nat)
    (includeArchived : Bool) : Nat → Nat → List Note → Option (List Note)
  | 0, _, out => some out
  | pages + 1, i, out => (t.page includeArchived i).bind fun entries =>
    match keepMatches env sha limit out entries with
    | (out, true) => some out
    | (out, false) =>
      if entries.length < PAGE_SIZE then some out
      else filterPages env t sha limit includeArchived pages (i + 1) out

def filterBySourceCommit (env : Env) (t : Interleaving) (sha : String) (limit : Nat)
    (includeArchived : Bool) : Option (List Note) :=
  filterPages env t sha limit includeArchived MAX_PAGES 0 []

def hasSourceRef (env : Env) (t : Interleaving) (sha : String) : Option Bool :=
  (filterBySourceCommit env t sha 1 true).map fun out => !out.isEmpty

/-! ## How a project changes -/

variable {p : Project}
variable {e : EntryResponse} {changes : List Change}

/-- An entry is there, or its id is gone for good. -/
def Project.Settles (p : Project) (e : EntryResponse) : Prop := e ∈ p.entries ∨ e.id ∈ p.gone

theorem Project.Settles.apply (h : p.Settles e) (c : Change) : (p.apply c).Settles e := by
  cases c with
  | insert place new =>
    rw [Project.apply, Project.insert]
    split
    · exact h
    · rcases h with hmem | hgone
      · refine .inl ?_
        rw [← List.take_append_drop place p.entries] at hmem
        rcases List.mem_append.mp hmem with hfront | hback
        · exact List.mem_append_left _ hfront
        · exact List.mem_append_right _ (List.mem_cons_of_mem new hback)
      · exact .inr hgone
  | delete id =>
    rw [Project.apply, Project.delete]
    split
    · rcases h with hmem | hgone
      · by_cases heq : e.id = id
        · exact .inr (heq ▸ List.mem_cons_self)
        · exact .inl (List.mem_filter.mpr ⟨hmem, decide_eq_true heq⟩)
      · exact .inr (List.mem_cons_of_mem id hgone)
    · exact h

theorem Project.gone_apply {id : NoteId} (h : id ∈ p.gone) (c : Change) :
    id ∈ (p.apply c).gone := by
  cases c with
  | insert place new =>
    rw [Project.apply, Project.insert]
    split <;> exact h
  | delete id' =>
    rw [Project.apply, Project.delete]
    split
    · exact List.mem_cons_of_mem id' h
    · exact h

theorem Project.not_mem_of_gone (h : e.id ∈ p.gone) :
    e ∉ p.entries := fun hmem =>
  (List.nodup_append.mp p.idsUnique).2.2 e.id (List.mem_map_of_mem hmem) e.id h rfl

theorem Project.entries_nodup (p : Project) : p.entries.Nodup :=
  List.Nodup.of_map _ (List.nodup_append.mp p.idsUnique).1

theorem Project.eq_of_id {e e' : EntryResponse} (he : e ∈ p.entries) (he' : e' ∈ p.entries)
    (hid : e.id = e'.id) : e = e' :=
  List.inj_on_of_nodup_map (List.nodup_append.mp p.idsUnique).1 he he' hid

theorem settles_foldl (h : p.Settles e) : (changes.foldl Project.apply p).Settles e := by
  induction changes generalizing p with
  | nil => exact h
  | cons c rest ih => exact ih (h.apply c)

theorem gone_foldl {id : NoteId} (h : id ∈ p.gone) : id ∈ (changes.foldl Project.apply p).gone := by
  induction changes generalizing p with
  | nil => exact h
  | cons c rest ih => exact ih (Project.gone_apply h c)

namespace Interleaving

variable {t : Interleaving}

theorem state_succ (i : Nat) :
    t.state (i + 1) = (t.changes (i + 1)).foldl Project.apply (t.state i) := rfl

theorem settles_state {e : EntryResponse} {i : Nat} (h : (t.state i).Settles e) (d : Nat) :
    (t.state (i + d)).Settles e := by
  induction d with
  | zero => exact h
  | succ d ih =>
    rw [← Nat.add_assoc, state_succ]
    exact settles_foldl ih

theorem gone_state {id : NoteId} {i : Nat} (h : id ∈ (t.state i).gone) (d : Nat) :
    id ∈ (t.state (i + d)).gone := by
  induction d with
  | zero => exact h
  | succ d ih =>
    rw [← Nat.add_assoc, state_succ]
    exact gone_foldl ih

theorem mem_between {e : EntryResponse} {i j m : Nat} (hi : e ∈ (t.state i).entries)
    (hj : e ∈ (t.state j).entries) (him : i ≤ m) (hmj : m ≤ j) : e ∈ (t.state m).entries := by
  obtain ⟨d, rfl⟩ := Nat.exists_eq_add_of_le him
  obtain ⟨d', rfl⟩ := Nat.exists_eq_add_of_le hmj
  rcases settles_state (Or.inl hi) d with hmem | hgone
  · exact hmem
  · exact absurd hj (Project.not_mem_of_gone (gone_state hgone d'))

/-- Two entries with one id, seen by different requests, are one entry. -/
theorem eq_of_id {e e' : EntryResponse} {i j : Nat} (hij : i ≤ j) (hi : e ∈ (t.state i).entries)
    (hj : e' ∈ (t.state j).entries) (hid : e.id = e'.id) : e = e' := by
  obtain ⟨d, rfl⟩ := Nat.exists_eq_add_of_le hij
  rcases settles_state (Or.inl hi) d with hmem | hgone
  · exact Project.eq_of_id hmem hj hid
  · exact absurd hj (Project.not_mem_of_gone (hid ▸ hgone))

/-! ## What a walk reads -/

/-- What the listing of a request shows on its page. -/
def shown (t : Interleaving) (i : Nat) : List EntryResponse :=
  OffsetPages.page PAGE_SIZE i (t.state i).entries

theorem serve_true (p : Project) (i : Nat) :
    p.serve true PAGE_SIZE (i * PAGE_SIZE) = OffsetPages.page PAGE_SIZE i p.entries := by
  have hall : p.entries.filter (fun e => true || e.archivedAt.isNone) = p.entries :=
    List.filter_eq_self.mpr fun _ _ => rfl
  rw [Project.serve, hall, OffsetPages.page]

theorem page_eq_some {i : Nat} {entries : List EntryResponse} (h : t.page true i = some entries) :
    entries = t.shown i := by
  rw [page] at h
  split at h
  · exact absurd h.symm (Option.some_ne_none _)
  · rw [serve_true] at h
    exact (Option.some.inj h).symm

/-- A walk reads the pages of its requests, up to one that is not full. -/
theorem walk_eq_some {pages i : Nat} {read : List (List EntryResponse) × Bool}
    (h : t.walk true pages i = some read) :
    (read.2 = true ∧ ∃ k < pages, read.1 = (List.range' i (k + 1)).map t.shown
        ∧ (t.shown (i + k)).length < PAGE_SIZE)
      ∨ read.2 = false ∧ read.1 = (List.range' i pages).map t.shown
        ∧ ∀ k < pages, ¬ (t.shown (i + k)).length < PAGE_SIZE := by
  induction pages generalizing i read with
  | zero =>
    obtain rfl := Option.some.inj h
    exact .inr ⟨rfl, rfl, fun k hk => absurd hk (Nat.not_lt_zero k)⟩
  | succ pages ih =>
    obtain ⟨entries, hpage, hrest⟩ := Option.bind_eq_some_iff.mp h
    obtain rfl := page_eq_some hpage
    split at hrest
    -- a short page is the last one
    · next hshort =>
      obtain rfl := Option.some.inj hrest
      exact .inl ⟨rfl, 0, Nat.succ_pos _, rfl, hshort⟩
    · next hfull =>
      obtain ⟨rest, hwalk, rfl⟩ := Option.map_eq_some_iff.mp hrest
      rcases ih hwalk with ⟨hdrained, k, hk, hread, hshort⟩ | ⟨hcut, hread, hnone⟩
      · refine .inl ⟨hdrained, k + 1, Nat.succ_lt_succ hk, ?_, ?_⟩
        · rw [List.range'_succ, List.map_cons, hread]
        · have hnext : i + 1 + k = i + (k + 1) := by omega
          rw [← hnext]
          exact hshort
      · refine .inr ⟨hcut, ?_, ?_⟩
        · rw [List.range'_succ, List.map_cons, hread]
        · intro k hk
          cases k with
          | zero => exact hfull
          | succ k =>
            have hnext : i + 1 + k = i + (k + 1) := by omega
            rw [← hnext]
            exact hnone k (by omega)

/-- The requests of a walk that reads every page. -/
def requests (t : Interleaving) : Nat := ((t.walk true MAX_PAGES 0).elim 0 fun read => read.1.length)

/-- The entry is in the listing at every request. -/
def Stays (t : Interleaving) (e : EntryResponse) : Prop :=
  ∀ i < t.requests, e ∈ (t.state i).entries

theorem requests_of_walk {read : List (List EntryResponse) × Bool}
    (h : t.walk true MAX_PAGES 0 = some read) : t.requests = read.1.length := by
  rw [requests, h]
  rfl

end Interleaving

/-! ## What the reads should give -/

/-- The reads of an interleaving: a lookup lists each entry once, and one that is complete has
    examined every entry that was there throughout; no commit of such an entry is reported as
    not harvested. -/
structure ReadsAll (env : Env) (t : Interleaving) : Prop where
  once : ∀ handle found, noteIdsForEntityIdPrefix env t handle = some found → found.matched.Nodup
  examined : ∀ handle ids, noteIdsForEntityIdPrefix env t handle = some (.complete ids) →
    ∀ e, t.Stays e → Matches env handle e → e.id ∈ ids
  harvested : ∀ shas, harvestedShas t = some shas →
    ∀ e, t.Stays e → ∀ sha ∈ e.sourceCommit, sha ∈ shas
  recorded : ∀ sha found, hasSourceRef env t sha = some found →
    ∀ e, t.Stays e → FromCommit sha e → found = true

/-- Between two requests of the walk nothing moves across the offset of the second. -/
def KeepsOffsets (t : Interleaving) : Prop :=
  ∀ i, i + 1 < t.requests →
    SameSide ((i + 1) * PAGE_SIZE) (t.state i).entries (t.state (i + 1)).entries

/-- The listing ends within the pages of the walk. -/
def EndsInTime (t : Interleaving) : Prop :=
  ∃ i < MAX_PAGES, (t.state i).entries.length < (i + 1) * PAGE_SIZE

section Reads

variable {env : Env} {t : Interleaving}
variable {read : List (List EntryResponse) × Bool}

/-- A walk over a listing that ends in time meets a page that is not full, and reads all that
    were there throughout. -/
theorem exists_of_walk (hends : EndsInTime t) (h : t.walk true MAX_PAGES 0 = some read) :
    read.2 = true ∧ ∃ k, t.requests = k + 1 ∧ read.1 = (List.range' 0 (k + 1)).map t.shown
      ∧ (t.shown k).length < PAGE_SIZE := by
  rcases Interleaving.walk_eq_some h with ⟨hdrained, k, -, hread, hshort⟩ | ⟨-, -, hnone⟩
  · refine ⟨hdrained, k, ?_, hread, ?_⟩
    · rw [Interleaving.requests_of_walk h, hread, List.length_map, List.length_range']
    · rw [Nat.zero_add] at hshort
      exact hshort
  · obtain ⟨i, hi, hlt⟩ := hends
    have hshort : (t.shown (0 + i)).length < PAGE_SIZE := by
      rw [Nat.zero_add]
      exact short_of_length_lt (by decide) hlt
    exact absurd hshort (hnone i hi)

theorem mem_flatten_of_stays (hoffsets : KeepsOffsets t) (hends : EndsInTime t)
    (h : t.walk true MAX_PAGES 0 = some read) {e : EntryResponse}
    (hstays : t.Stays e) : e ∈ read.1.flatten := by
  obtain ⟨-, k, hrequests, hread, hshort⟩ := exists_of_walk hends h
  obtain ⟨m, hm, hpage⟩ := @mem_page_of_stays _ PAGE_SIZE e (fun i => (t.state i).entries) k
    (fun m hm => hstays m (by omega)) (fun m hm => hoffsets m (by omega)) hshort
  rw [hread, List.mem_flatten]
  exact ⟨t.shown m, List.mem_map_of_mem (List.mem_range'_1.mpr ⟨Nat.zero_le m, by omega⟩), hpage⟩

theorem mem_state_of_shown {i : Nat} {e : EntryResponse} (h : e ∈ t.shown i) :
    e ∈ (t.state i).entries := List.mem_of_mem_drop (List.mem_of_mem_take h)

theorem nodup_flatten_shown (hoffsets : KeepsOffsets t) {n : Nat} (hn : n ≤ t.requests) :
    ((List.range' 0 n).map t.shown).flatten.Nodup := by
  rw [List.nodup_flatten]
  constructor
  · intro page hpage
    obtain ⟨i, -, rfl⟩ := List.mem_map.mp hpage
    exact (t.state i).entries_nodup.sublist
      ((List.take_sublist _ _).trans (List.drop_sublist _ _))
  · rw [List.pairwise_map]
    refine List.Pairwise.imp_of_mem ?_ List.pairwise_lt_range'
    intro i j _ hj hij e hei hej
    obtain ⟨-, hjn⟩ := List.mem_range'_1.mp hj
    refine @not_mem_later_page _ PAGE_SIZE e (fun i => (t.state i).entries)
      (fun i => (t.state i).entries_nodup) i j hij hei (fun m him hmj => ?_) (fun m _ hmj => ?_) hej
    · exact Interleaving.mem_between (mem_state_of_shown hei) (mem_state_of_shown hej) him hmj
    · exact hoffsets m (by omega)

theorem nodup_ids_shown (hoffsets : KeepsOffsets t) {n : Nat} (hn : n ≤ t.requests) :
    (((List.range' 0 n).map t.shown).flatten.map EntryResponse.id).Nodup := by
  refine List.Nodup.map_on ?_ (nodup_flatten_shown hoffsets hn)
  intro e he e' he' hid
  obtain ⟨page, hpage, he⟩ := List.mem_flatten.mp he
  obtain ⟨page', hpage', he'⟩ := List.mem_flatten.mp he'
  obtain ⟨i, -, rfl⟩ := List.mem_map.mp hpage
  obtain ⟨j, -, rfl⟩ := List.mem_map.mp hpage'
  rcases Nat.le_total i j with hij | hji
  · exact Interleaving.eq_of_id hij (mem_state_of_shown he) (mem_state_of_shown he') hid
  · exact (Interleaving.eq_of_id hji (mem_state_of_shown he') (mem_state_of_shown he) hid.symm).symm

theorem read_eq_of_walk
    (h : t.walk true MAX_PAGES 0 = some read)
    : read.1 = (List.range' 0 t.requests).map t.shown := by
  rw [Interleaving.requests_of_walk h]
  rcases Interleaving.walk_eq_some h with ⟨-, k, -, hread, -⟩ | ⟨-, hread, -⟩
  · rw [hread, List.length_map, List.length_range']
  · rw [hread, List.length_map, List.length_range']

/-! ## The check for one commit -/

theorem keepMatches_one {sha : String} {entries : List EntryResponse} {out : List Note}
    {full : Bool} (h : keepMatches env sha 1 [] entries = (out, full)) :
    (full = true ∧ out ≠ []) ∨ full = false ∧ out = [] ∧ ∀ e ∈ entries, ¬ FromCommit sha e := by
  induction entries with
  | nil =>
    obtain ⟨rfl, rfl⟩ := Prod.mk.inj h
    exact .inr ⟨rfl, rfl, List.forall_mem_nil _⟩
  | cons e rest ih =>
    rw [keepMatches] at h
    by_cases hmatch : FromCommit sha e
    · rw [if_pos hmatch, if_pos (by simp)] at h
      obtain ⟨rfl, rfl⟩ := Prod.mk.inj h
      exact .inl ⟨rfl, List.cons_ne_nil _ _⟩
    · rw [if_neg hmatch] at h
      rcases ih h with hfull | ⟨hmore, hnil, hnone⟩
      · exact .inl hfull
      · exact .inr ⟨hmore, hnil, List.forall_mem_cons.mpr ⟨hmatch, hnone⟩⟩

theorem filterPages_one {sha : String} {pages i : Nat} {out : List Note}
    (h : filterPages env t sha 1 true pages i [] = some out) :
    out ≠ [] ∨ ∃ read, t.walk true pages i = some read
      ∧ ∀ e ∈ read.1.flatten, ¬ FromCommit sha e := by
  induction pages generalizing i with
  | zero => exact .inr ⟨_, rfl, List.forall_mem_nil _⟩
  | succ pages ih =>
    obtain ⟨entries, hpage, hrest⟩ := Option.bind_eq_some_iff.mp h
    cases hkeep : keepMatches env sha 1 [] entries with
    | mk kept full =>
      rw [hkeep] at hrest
      rcases keepMatches_one hkeep with ⟨rfl, hne⟩ | ⟨rfl, rfl, hnone⟩
      · obtain rfl := Option.some.inj hrest
        exact .inl hne
      · dsimp only at hrest
        split at hrest
        · next hshort =>
          refine .inr ⟨([entries], true), ?_, ?_⟩
          · rw [Interleaving.walk, hpage, Option.bind_some, if_pos hshort]
          · rw [List.flatten_singleton]
            exact hnone
        · next hfull =>
          rcases ih hrest with hne | ⟨read, hwalk, hrestnone⟩
          · exact .inl hne
          · refine .inr ⟨(entries :: read.1, read.2), ?_, ?_⟩
            · rw [Interleaving.walk, hpage, Option.bind_some, if_neg hfull, hwalk, Option.map_some]
            · rw [List.flatten_cons]
              exact List.forall_mem_append.mpr ⟨hnone, hrestnone⟩

/-! ## Sound reads -/

end Reads

/-! ## A deletion between two pages -/

/-- A hash that keeps the text, and no timestamp that can be read. -/
def plainEnv : Env := ⟨fun text => text, fun _ => none⟩

def numberedId (n : Nat) : NoteId := ⟨String.ofList (List.replicate n 'i')⟩

theorem numberedId_injective : Function.Injective numberedId := by
  intro i j h
  have hlen := congrArg (fun id : NoteId => id.token.toList.length) h
  simpa [numberedId] using hlen

def numberedEntry (n : Nat) : EntryResponse := ⟨numberedId n, "note", "", none, none, none, none⟩

/-- A project with `n` entries. -/
def numberedProject (n : Nat) : Project where
  entries := (List.range n).map numberedEntry
  gone := []
  idsUnique := by
    rw [List.append_nil, List.map_map]
    exact List.nodup_range.map numberedId_injective

/-- The newest entry is deleted between the first two requests of a walk. -/
def deletedBetween (n : Nat) : Interleaving where
  start := numberedProject n
  changes i := if i = 1 then [.delete (numberedId 0)] else []
  fails _ := false

end CloudApi
end Inkentry
