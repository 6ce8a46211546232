/-
  Inkentry.GitNotes.Repo

  One machine's clone: the commits its HEAD reaches, newest first, and the
  entry lines of the note on each commit.  Readers fold the lines of every
  reachable commit; writers append one line to the note on HEAD.

  Lines of other tools are skipped by every reader and kept by every writer, so
  a note is the list of its records.  A write reads the clock twice, once in
  seconds and once in milliseconds; both readings are arguments.
-/

import Inkentry.GitNotes.Fold

namespace Inkentry
namespace GitNotes

/-! ## Reading -/

/-- A clone.  `git log` lists every commit once. -/
structure Repo where
  /-- The commits reachable from HEAD, newest first, HEAD itself in front. -/
  history : List String
  nodup : history.Nodup
  /-- The records of the note on each commit, reachable or not. -/
  notes : String → List NoteRecord

/-- A fresh clone of a repository nothing is recorded in. -/
def Repo.empty : Repo := ⟨[], List.nodup_nil, fun _ => []⟩

/-- Every record reachable from HEAD with the commit it is on, newest commit first. -/
def Repo.recordsWithCommit (repo : Repo) : List (String × NoteRecord) :=
  repo.history.flatMap fun commit => (repo.notes commit).map fun r => (commit, r)

/-- Every entry, folded to one record. -/
def Repo.foldedRecords (sha : String → String) (repo : Repo) : List NoteRecord :=
  foldRecords sha (repo.recordsWithCommit.map Prod.snd)

/-- Decimal digits, most significant first. -/
def parseDigits : Nat → List Char → Option Nat
  | n, [] => some n
  | n, c :: cs => if c.isDigit then parseDigits (10 * n + (c.toNat - 48)) cs else none

/-- An integer in the range of `i64`, with an optional sign. -/
def parseI64 (s : String) : Option Int :=
  let magnitude (cs : List Char) : Option Nat := if cs = [] then none else parseDigits 0 cs
  let checked (n : Int) : Option Int := if -2 ^ 63 ≤ n ∧ n < 2 ^ 63 then some n else none
  match s.toList with
  | '-' :: cs => (magnitude cs).bind fun n => checked (-n)
  | '+' :: cs => (magnitude cs).bind fun n => checked n
  | cs => (magnitude cs).bind fun n => checked n

/-- The integer record id a token stands for; any other token is a miss. -/
def carrierId (id : NoteId) : Option Int := parseI64 id.token

/-- The folded record with a given id. -/
def Repo.lookup (sha : String → String) (repo : Repo) (id : NoteId) : Option NoteRecord :=
  (carrierId id).bind fun n => (repo.foldedRecords sha).find? fun r => r.id = n

/-- The entry with a given id. -/
def Repo.get (sha : String → String) (repo : Repo) (id : NoteId) : Option Note :=
  (repo.lookup sha id).map (recordToNote sha)

/-! ## Writing -/

/-- What a write reads from its machine's clock. -/
structure Clock where
  nowSecs : Int
  nowMillis : Int

/-- Appends records to the note on one commit. -/
def Repo.appendAt (repo : Repo) (target : String) (records : List NoteRecord) : Repo :=
  { repo with notes := Function.update repo.notes target (repo.notes target ++ records) }

/-- Appends records to HEAD's note; without a HEAD nothing is written. -/
def Repo.appendToHead (repo : Repo) (records : List NoteRecord) : Option Repo :=
  repo.history.head?.map fun head => repo.appendAt head records

/-- What a caller supplies for a new entry. -/
structure NoteInput where
  kind : String
  title : String
  body : String
  tags : List String
  linkedFiles : List String
  sourceRef : Option String
  validAt : Option Int
  origin : Option Origin

/-- The record `add` writes when git notes are the primary store. -/
def addRecord (sha : String → String) (clock : Clock) (input : NoteInput) : NoteRecord where
  schemaVersion := 1
  id := clock.nowMillis
  kind := input.kind
  title := input.title
  body := input.body
  tags := input.tags
  linkedFiles := input.linkedFiles
  createdAt := clock.nowSecs
  status := "active"
  sourceRef := input.sourceRef
  validAt := input.validAt
  invalidAt := none
  supersededBy := none
  remoteId := none
  entityId := some (entityId sha input.kind input.title input.body)
  supersededByEntityId := none
  edges := []
  origin := input.origin
  op := none
  patchId := none

/-- Records a new entry.  The log is append-only: nothing is looked up first. -/
def Repo.add (sha : String → String) (clock : Clock) (repo : Repo) (input : NoteInput) :
    Option (NoteId × Repo) :=
  (repo.appendToHead [addRecord sha clock input]).map fun repo' =>
    (carrierToken clock.nowMillis, repo')

/-- The record an entity update appends: the content of `base`, under its
    identity, with the mutable state the caller supplies. -/
def entityUpdateRecord (sha : String → String) (clock : Clock) (base : Note) (status : String)
    (invalidAt : Option Int) (supersededByEntityId : Option String) (edges : List CarriedEdge)
    (op patchId : Option String) : NoteRecord where
  schemaVersion := 1
  id := clock.nowMillis
  kind := base.kind
  title := base.title
  body := base.body
  tags := base.tags
  linkedFiles := base.linkedFiles
  createdAt := clock.nowSecs
  status := status
  sourceRef := base.sourceRef
  validAt := base.validAt
  invalidAt := invalidAt
  supersededBy := none
  remoteId := none
  entityId := some (noteEntityId sha base)
  supersededByEntityId := supersededByEntityId
  edges := edges
  origin := base.origin
  op := op
  patchId := patchId

/-- The record that changes an entry's status. -/
def stateUpdateRecord (sha : String → String) (clock : Clock) (base : Note) (status : String)
    (invalidAt : Option Int) (supersededByEntityId : Option String) : NoteRecord :=
  entityUpdateRecord sha clock base status invalidAt supersededByEntityId [] none none

/-- The record that adds edges to an entry, its state left as it is. -/
def edgesRecord (sha : String → String) (clock : Clock) (base : Note)
    (edges : List CarriedEdge) : NoteRecord :=
  entityUpdateRecord sha clock base base.status base.invalidAt none edges none none

/-- The record that anchors an entry to one more commit. -/
def anchorRecord (sha : String → String) (clock : Clock) (base : Note)
    (patchId : Option String) : NoteRecord :=
  entityUpdateRecord sha clock base base.status base.invalidAt none [] (some "anchor") patchId

/-- Archives the entry of the first raw line with the given id, by appending a
    state update for it. -/
def Repo.archive (sha : String → String) (clock : Clock) (repo : Repo) (id : NoteId) :
    Option (Bool × Repo) :=
  match (carrierId id).bind fun n => repo.recordsWithCommit.find? fun p => p.2.id = n with
  | none => some (false, repo)
  | some (_, record) =>
    let base := recordToNote sha record
    let invalidAt := base.invalidAt.or (some clock.nowSecs)
    (repo.appendToHead [stateUpdateRecord sha clock base "archived" invalidAt none]).map
      fun repo' => (true, repo')

/-! ## Where an appended line lands -/

/-- A line appended to HEAD's note is read after HEAD's other lines and before
    those of every older commit. -/
theorem recordsWithCommit_appendAt_head {repo : Repo} {head : String}
    (hhead : repo.history.head? = some head) :
    ∃ ours older : List (String × NoteRecord),
      repo.recordsWithCommit = ours ++ older
      ∧ (∀ p ∈ ours, p.1 = head) ∧ (∀ p ∈ older, p.1 ≠ head)
      ∧ ∀ records, (repo.appendAt head records).recordsWithCommit
          = ours ++ records.map (fun r => (head, r)) ++ older := by
  obtain ⟨history, hnodup, notes⟩ := repo
  cases history with
  | nil => simp at hhead
  | cons c rest =>
    obtain rfl : c = head := by simpa using hhead
    have hnotin : c ∉ rest := (List.nodup_cons.mp hnodup).1
    refine ⟨(notes c).map fun r => (c, r),
      rest.flatMap fun commit => (notes commit).map fun r => (commit, r), ?_, ?_, ?_, ?_⟩
    · simp [Repo.recordsWithCommit]
    · simp
    · intro p hp
      obtain ⟨commit, hcommit, hp⟩ := List.mem_flatMap.mp hp
      obtain ⟨r, -, rfl⟩ := List.mem_map.mp hp
      rintro rfl
      exact hnotin hcommit
    · intro records
      -- the head comes first, and no older commit has its notes touched
      have hold : ∀ commit ∈ rest,
          (Function.update notes c (notes c ++ records) commit).map (fun r => (commit, r))
            = (notes commit).map fun r => (commit, r) := by
        intro commit hcommit
        have hne : commit ≠ c := fun h => hnotin (h ▸ hcommit)
        rw [Function.update_of_ne hne]
      simp only [Repo.recordsWithCommit, Repo.appendAt, List.flatMap_cons, Function.update_self,
        List.map_append]
      rw [List.flatMap_congr hold]

end GitNotes
end Inkentry
