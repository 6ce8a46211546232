/-
  Inkentry.Memory.PointInTime

  The listing at an instant, on both sides of the write-through: from the rows,
  whose window is `valid_at` (or the creation time) up to `invalid_at`, and from
  the carrier's folds, whose window is the same three fields of a fold.

  What it should list is stated on the history of operations alone: an entry is
  live at T when it had become valid by T and had not ended by T.  A window is a
  `Span`, and the listing of spans that match the history is exact
  (`lists_of_spans`, `lists_of_carrierSpans`).
-/

import Inkentry.Anchors.Pass
import Inkentry.Carrier.Import
import Inkentry.Memory.Alignment

namespace Inkentry
namespace Memory

open GitNotes OrderLimit

/-! ## The listing of the rows -/

/-- `COALESCE(valid_at, created_at) <= T AND (invalid_at IS NULL OR invalid_at > T)`. -/
def rowInWindow (asOf : Int) (n : Note) : Bool :=
  n.validAt.getD n.createdAt ≤ asOf && n.invalidAt.all fun t => asOf < t

/-- `list_filtered`, newest first, with no source ref asked for; with `asOf` set the window alone
    decides. -/
def Store.listFiltered (s : Store) (kindFilter : Option String) (limit : Nat)
    (includeArchived : Bool) (asOf : Option Int) : List Note :=
  (orderLimit (fun n : Note => -n.createdAt) (min limit 500) (s.rows.filter fun n =>
    (includeArchived || asOf.isSome || n.status = "active")
      && kindFilter.all (fun k => n.kind = k) && asOf.all fun T => rowInWindow T n)).map rowToNote

/-! ## Histories -/

/-- An operation: a command, or an anchor, which updates an entry's record and source ref and
    nothing else. -/
inductive Operation where
  | command (c : Command)
  | anchor (clock : Clock) (id : NoteId) (patchId sourceRef : Option String)

/-- `anchor_note_now`: the anchor record, then the resolved source ref, if there is one. -/
def memoryAnchor (env : StoreEnv) (w : WriteThrough) (clock : Clock) (id : NoteId)
    (patchId sourceRef : Option String) : Option WriteThrough :=
  (w.store.get id).map fun note =>
    { store := match sourceRef with
        | some commit => w.store.edit (Anchors.sourceRefEdit commit) fun n => n.id = note.id
        | none => w.store
      carrier := w.carrier ++ [anchorRecord env.sha clock note patchId] }

/-- One operation; one that fails changes nothing. -/
def perform (env : StoreEnv) (w : WriteThrough) : Operation → WriteThrough
  | .command c => step env w c
  | .anchor clock id patchId sourceRef => (memoryAnchor env w clock id patchId sourceRef).getD w

/-- What an operation did to an entry's validity. -/
inductive Event where
  /-- The entry was recorded, as valid from an instant on. -/
  | began (entity : String) (since : Int)
  /-- The entry was archived, or superseded by another. -/
  | ended (entity : String) (instant : Int)
  deriving DecidableEq, Repr

/-- The entry an add records, unless its content is recorded already. -/
def beginnings (env : StoreEnv) (s : Store) (clocks : Clocks) (args : AddArgs) : List Event :=
  if (s.rowForEntity? (args.entityId env.sha)).isSome then []
  else [.began (args.entityId env.sha) (args.validAt.getD clocks.createdAt)]

/-- The entry an add supersedes, unless it is the one it records. -/
def replacements (env : StoreEnv) (s : Store) (clocks : Clocks) (args : AddArgs) : List Event :=
  ((args.supersedes.bind s.get).toList.filter fun old => old.entityId ≠ args.entityId env.sha).map
    fun old => .ended old.entityId clocks.unixepoch

/-- The events of an operation; one that fails has none. -/
def events (env : StoreEnv) (w : WriteThrough) : Operation → List Event
  | .command (.add uuid clocks args) =>
    if (memoryAdd env w uuid clocks args).isSome then
      beginnings env w.store clocks args ++ replacements env w.store clocks args
    else []
  | .command (.archive clocks id) =>
    if (memoryArchive env w clocks id).isSome then
      (w.store.get id).toList.map fun n => .ended n.entityId clocks.invalidAt
    else []
  | .command (.supersede clocks oldId newId) =>
    if (memorySupersede env w clocks oldId newId).isSome then
      (w.store.get oldId).toList.map fun n => .ended n.entityId clocks.unixepoch
    else []
  | .anchor .. => []

/-- A machine with the events so far. -/
structure History where
  machine : WriteThrough
  log : List Event

def History.fresh : History := ⟨WriteThrough.fresh, []⟩

def record (env : StoreEnv) (h : History) (op : Operation) : History :=
  ⟨perform env h.machine op, h.log ++ events env h.machine op⟩

/-- The entry had become valid by the instant and had not ended by then. -/
def Live (log : List Event) (T : Int) (entity : String) : Prop :=
  (∃ since, .began entity since ∈ log ∧ since ≤ T) ∧ ∀ instant, .ended entity instant ∈ log → T < instant

/-! ## What a listing should return -/

variable {live : String → Prop}

/-- A listing has live entries only, and all of them unless its limit cuts it. -/
structure Lists (listed : List Note) (limit : Nat) (live : String → Prop) : Prop where
  sound : ∀ n ∈ listed, live n.entityId
  complete : listed.length < limit → ∀ entity, live entity → ∃ n ∈ listed, n.entityId = entity

/-- At every instant both listings are exact, however the carrier's lines are spread over
    commits. -/
structure ListsPointInTime (env : StoreEnv) (h : History) : Prop where
  rows : ∀ limit includeArchived T,
    Lists (h.machine.store.listFiltered none limit includeArchived (some T)) (min limit 500)
      (Live h.log T)
  carrier : ∀ repo : Repo, (repo.recordsWithCommit.map Prod.snd).Perm h.machine.carrier →
    ∀ limit includeArchived T, ∃ notes,
      Carrier.list env.sha repo none limit includeArchived (some T) = some notes
        ∧ Lists notes (min limit 500) (Live h.log T)
  agree : ∀ repo : Repo, (repo.recordsWithCommit.map Prod.snd).Perm h.machine.carrier →
    ∀ limit includeArchived T notes,
      Carrier.list env.sha repo none limit includeArchived (some T) = some notes →
      (h.machine.store.listFiltered none limit includeArchived (some T)).length < min limit 500 →
      notes.length < min limit 500 → ∀ entity,
        (∃ n ∈ h.machine.store.listFiltered none limit includeArchived (some T),
          n.entityId = entity) ↔ ∃ n ∈ notes, n.entityId = entity

/-- Two listings of the same live entries that no limit cuts have the same entries. -/
theorem Lists.agree {listed listed' : List Note} {limit limit' : Nat} (h : Lists listed limit live)
    (h' : Lists listed' limit' live) (hcut : listed.length < limit)
    (hcut' : listed'.length < limit') (entity : String) :
    (∃ n ∈ listed, n.entityId = entity) ↔ ∃ n ∈ listed', n.entityId = entity := by
  constructor
  · rintro ⟨n, hn, rfl⟩
    exact h'.complete hcut' _ (h.sound n hn)
  · rintro ⟨n, hn, rfl⟩
    exact h.complete hcut _ (h'.sound n hn)

/-! ## Spans -/

/-- When an entry is valid: from an instant on, up to another if it has ended. -/
structure Span where
  since : Int
  expires : Option Int
  deriving DecidableEq, Repr

def Span.Covers (span : Span) (T : Int) : Prop :=
  span.since ≤ T ∧ ∀ t, span.expires = some t → T < t

def rowSpan (n : Note) : Span := ⟨n.validAt.getD n.createdAt, n.invalidAt⟩

def recordSpan (r : NoteRecord) : Span := ⟨r.validAt.getD r.createdAt, r.invalidAt⟩

/-- The span of an entry in the store. -/
def Store.span? (s : Store) (entity : String) : Option Span :=
  (s.rowForEntity? entity).map rowSpan

/-- The fold of an entry's records on the carrier. -/
def foldOf (sha : String → String) (records : List NoteRecord) (entity : String) :
    Option NoteRecord := foldGroup (groupOf sha records entity)

/-- The span of an entry on the carrier. -/
def carrierSpan? (sha : String → String) (records : List NoteRecord) (entity : String) :
    Option Span := (foldOf sha records entity).map recordSpan

theorem rowInWindow_iff {T : Int} {n : Note} : rowInWindow T n = true ↔ (rowSpan n).Covers T := by
  rw [rowInWindow, Span.Covers, rowSpan, Bool.and_eq_true, decide_eq_true_iff]
  refine and_congr_right fun _ => ?_
  cases n.invalidAt with
  | none => simp
  | some t => simp

theorem recordInWindow_iff {T : Int} {includeArchived : Bool} {r : NoteRecord} :
    Carrier.recordInWindow includeArchived (some T) r = true ↔ (recordSpan r).Covers T := by
  rw [Carrier.recordInWindow, Span.Covers, recordSpan, Bool.and_eq_true, decide_eq_true_iff]
  refine and_congr_right fun _ => ?_
  cases r.invalidAt with
  | none => simp
  | some t => simp

/-- Rows whose spans are the live ones are listed exactly. -/
theorem lists_of_spans {s : Store} {T : Int}
    (h : ∀ entity, live entity ↔ ∃ span, s.span? entity = some span ∧ span.Covers T) (limit : Nat)
    (includeArchived : Bool) :
    Lists (s.listFiltered none limit includeArchived (some T)) (min limit 500) live := by
  have hkeep : ∀ n : Note, ((includeArchived || (some T).isSome || n.status = "active")
      && (none : Option String).all (fun k => n.kind = k)
      && (some T).all fun T => rowInWindow T n) = rowInWindow T n := by
    intro n
    simp
  constructor
  · intro m hm
    obtain ⟨n, hn, rfl⟩ := List.mem_map.mp hm
    obtain ⟨hrow, hwindow⟩ := List.mem_filter.mp (mem_of_mem_orderLimit _ hn)
    rw [hkeep] at hwindow
    refine (h n.entityId).mpr ⟨rowSpan n, ?_, rowInWindow_iff.mp hwindow⟩
    rw [Store.span?, Store.rowForEntity?_eq_some_iff.mpr ⟨hrow, rfl⟩, Option.map_some]
  · intro hcut entity hlive
    obtain ⟨span, hspan, hcovers⟩ := (h entity).mp hlive
    obtain ⟨n, hn, rfl⟩ := Option.map_eq_some_iff.mp hspan
    obtain ⟨hrow, rfl⟩ := Store.rowForEntity?_eq_some_iff.mp hn
    rw [Store.listFiltered, List.length_map] at hcut
    refine ⟨rowToNote n, List.mem_map_of_mem (mem_orderLimit_of_length_lt _ hcut ?_), rfl⟩
    exact List.mem_filter.mpr ⟨hrow, (hkeep n).trans (rowInWindow_iff.mpr hcovers)⟩

/-! ## Spans on the carrier -/

section Carrier

variable {sha : String → String}

theorem foldGroup_span_congr {g g' : List NoteRecord} (hmem : ∀ r, r ∈ g ↔ r ∈ g') :
    (foldGroup g).map recordSpan = (foldGroup g').map recordSpan := by
  have hmap : ∀ {α : Type} (field : NoteRecord → α) (a : α),
      a ∈ g.map field ↔ a ∈ g'.map field := fun field a => by simp only [List.mem_map, hmem]
  by_cases hnil : g = []
  · have hnil' : g' = [] := List.eq_nil_iff_forall_not_mem.mpr fun r hr => by
      rw [← hmem, hnil] at hr
      exact List.not_mem_nil hr
    rw [hnil, hnil']
  · have hnil' : g' ≠ [] := by
      obtain ⟨r, hr⟩ := List.exists_mem_of_ne_nil g hnil
      exact List.ne_nil_of_mem ((hmem r).mp hr)
    obtain ⟨f, hf⟩ := Option.isSome_iff_exists.mp (foldGroup_isSome hnil)
    obtain ⟨f', hf'⟩ := Option.isSome_iff_exists.mp (foldGroup_isSome hnil')
    have hvalid : f.validAt = f'.validAt := by
      rw [foldGroup_validAt hf, foldGroup_validAt hf', earliest_congr (hmap _)]
    have hinvalid : f.invalidAt = f'.invalidAt := by
      rw [foldGroup_invalidAt hf, foldGroup_invalidAt hf', earliest_congr (hmap _)]
    have hcreated : f.createdAt = f'.createdAt := by
      obtain ⟨⟨r, hr, hrf⟩, hmin⟩ := foldGroup_createdAt hf
      obtain ⟨⟨r', hr', hrf'⟩, hmin'⟩ := foldGroup_createdAt hf'
      have hle := hmin r' ((hmem r').mpr hr')
      have hge := hmin' r ((hmem r).mp hr)
      omega
    rw [hf, hf', Option.map_some, Option.map_some, recordSpan, recordSpan, hvalid, hinvalid,
      hcreated]

theorem carrierSpan?_congr {records records' : List NoteRecord}
    (hperm : records.Perm records') (entity : String) :
    carrierSpan? sha records entity = carrierSpan? sha records' entity :=
  foldGroup_span_congr fun r => by rw [mem_groupOf, mem_groupOf, hperm.mem_iff]

/-- Folds whose spans are the live ones are listed exactly. -/
theorem lists_of_carrierSpans {repo : Repo} {records : List NoteRecord} {T : Int}
    {live : String → Prop} (hperm : (repo.recordsWithCommit.map Prod.snd).Perm records)
    (hkeyed : ∀ r ∈ records, r.ContentKeyed sha)
    (h : ∀ entity, live entity ↔
      ∃ span, carrierSpan? sha records entity = some span ∧ span.Covers T)
    (includeArchived : Bool) (limit : Nat) :
    Lists (Carrier.collect sha repo none includeArchived (some T) limit) limit live := by
  have hfold : ∀ f ∈ repo.foldedRecords sha, f.ContentKeyed sha := by
    intro f hf
    refine foldGroup_contentKeyed (fun r hr => ?_) (mem_foldRecords.mp hf)
    exact hkeyed r (hperm.mem_iff.mp (mem_groupOf.mp hr).1)
  -- what the filter keeps of the folds, before the newest are taken
  have hkept : ∀ f : NoteRecord, f ∈ sortBy NoteRecord.createdAt
      ((repo.foldedRecords sha).filter fun r => (none : Option String).all (fun k => r.kind = k)
        && Carrier.recordInWindow includeArchived (some T) r) ↔
      f ∈ repo.foldedRecords sha ∧ (recordSpan f).Covers T := by
    intro f
    rw [mem_sortBy, List.mem_filter, Option.all_none, Bool.true_and, recordInWindow_iff]
  constructor
  · intro n hn
    obtain ⟨f, hf, rfl⟩ := List.mem_map.mp hn
    obtain ⟨hfolded, hcovers⟩ := (hkept f).mp (List.mem_of_mem_drop hf)
    have hent : (recordToNote sha f).entityId = f.resolveEntityId sha := (hfold f hfolded).symm
    refine (h _).mpr ⟨recordSpan f, ?_, hcovers⟩
    rw [hent, ← carrierSpan?_congr hperm, carrierSpan?, foldOf, mem_foldRecords.mp hfolded,
      Option.map_some]
  · intro hcut entity hlive
    obtain ⟨span, hspan, hcovers⟩ := (h entity).mp hlive
    rw [← carrierSpan?_congr hperm] at hspan
    obtain ⟨f, hf, rfl⟩ := Option.map_eq_some_iff.mp hspan
    have hent := foldGroup_resolveEntityId (fun r hr => (mem_groupOf.mp hr).2) hf
    have hfolded : f ∈ repo.foldedRecords sha := mem_foldRecords.mpr (hent ▸ hf)
    rw [Carrier.collect, List.length_map, List.length_drop] at hcut
    refine ⟨recordToNote sha f, List.mem_map_of_mem ?_, (hfold f hfolded).symm.trans hent⟩
    rw [show (sortBy NoteRecord.createdAt _).length - limit = 0 by omega, List.drop_zero]
    exact (hkept f).mpr ⟨hfolded, hcovers⟩

end Carrier

end Memory
end Inkentry
