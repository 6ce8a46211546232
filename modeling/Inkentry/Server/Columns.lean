/-
  Inkentry.Server.Columns

  An entry's tags and linked files as the server's `notes` table holds them: one
  comma-joined text column each, cut and trimmed again by every reader.  The
  commit an entry belongs to has no column; it is a `git:` tag among the others,
  and setting it rewrites the tags.

  `ServerDb` keeps both lists as the lists a reader gets; here are the columns
  under them.
-/

import Inkentry.Lib.JoinedText
import Inkentry.Lib.OrderLimit
import Mathlib.Data.List.Infix
import Mathlib.Data.Prod.Lex
import Mathlib.Data.String.Basic

namespace Inkentry
namespace Server
namespace Columns

open JoinedText OrderLimit

/-! ## Rows -/

abbrev Text := List Char

/-- A row of `notes`. -/
structure Row where
  rowid : Nat
  projectId : Nat
  syncId : String
  kind : String
  title : String
  body : String
  tags : Option Text
  linkedFiles : Option Text
  createdAt : Int
  status : String
  /-- The successor's rowid. -/
  supersededBy : Option Nat
  remoteId : Option String
  deriving DecidableEq

def Row.pushKey (r : Row) : Option (Nat × String) := r.remoteId.map fun id => (r.projectId, id)

/-- The table with its unique indexes. -/
structure Table where
  rows : List Row
  nextRowid : Nat
  syncUnique : (rows.map Row.syncId).Nodup
  remoteUnique : (rows.filterMap Row.pushKey).Nodup

/-- `notes WHERE sync_id = .. AND project_id = ..`. -/
def Table.row? (t : Table) (projectId : Nat) (noteId : String) : Option Row :=
  t.rows.find? fun r => r.syncId = noteId ∧ r.projectId = projectId

/-! ## Writing -/

/-- An entry as a client sends it. -/
structure Entry where
  kind : String
  title : String
  body : String
  tags : List Text
  linkedFiles : List Text
  remoteId : Option String

/-- The column of a list; an empty list has none. -/
def csv (list : List Text) : Option Text := if list = [] then none else some (join ',' list)

def Table.newRow (t : Table) (projectId : Nat) (e : Entry) (syncId : String) (now : Int) : Row where
  rowid := t.nextRowid
  projectId := projectId
  syncId := syncId
  kind := e.kind
  title := e.title
  body := e.body
  tags := csv e.tags
  linkedFiles := csv e.linkedFiles
  createdAt := now
  status := "active"
  supersededBy := none
  remoteId := e.remoteId

/-- The insert, which a unique index may refuse. -/
def Table.addNoteWithSyncId (t : Table) (projectId : Nat) (e : Entry) (syncId : String) (now : Int) :
    Option Table :=
  let rows := t.rows ++ [t.newRow projectId e syncId now]
  if h : (rows.map Row.syncId).Nodup ∧ (rows.filterMap Row.pushKey).Nodup then
    some ⟨rows, t.nextRowid + 1, h.1, h.2⟩
  else none

/-! ## Reading -/

/-- The list a column holds. -/
def splitCsv (column : Option Text) : List Text := items ',' (column.getD [])

/-- An entry as a reader gets it; `distance` only from a search. -/
structure ServerNote (D : Type*) where
  id : String
  kind : String
  title : String
  body : String
  tags : List Text
  linkedFiles : List Text
  createdAt : Int
  status : String
  supersededBy : Option String
  remoteId : Option String
  distance : Option D

variable {D : Type*}

/-- `LEFT JOIN notes s ON s.id = n.superseded_by`. -/
def Table.successorId (t : Table) (r : Row) : Option String :=
  (r.supersededBy.bind fun rowid => t.rows.find? fun s => s.rowid = rowid).map Row.syncId

/-- The row as a note, for every reader of notes. -/
def Table.rowToNote (t : Table) (distance : Option D) (r : Row) : ServerNote D where
  id := r.syncId
  kind := r.kind
  title := r.title
  body := r.body
  tags := splitCsv r.tags
  linkedFiles := splitCsv r.linkedFiles
  createdAt := r.createdAt
  status := r.status
  supersededBy := t.successorId r
  remoteId := r.remoteId
  distance := distance

def Table.getNote (t : Table) (projectId : Nat) (noteId : String) : Option (ServerNote D) :=
  (t.row? projectId noteId).map (t.rowToNote none)

/-- Newest first. -/
def listKey (r : Row) : Lex (Int × Int) := toLex (-r.createdAt, -(r.rowid : Int))

def Table.listNotes (t : Table) (projectId : Nat) (kindFilter : Option String) (limit : Nat)
    (includeArchived : Bool) (offset : Nat) : List (ServerNote D) :=
  let rows := t.rows.filter fun r => r.projectId = projectId ∧ (∀ k ∈ kindFilter, r.kind = k)
    ∧ (includeArchived ∨ r.status = "active")
  (((sortBy listKey rows).drop offset).take (min limit 500)).map (t.rowToNote none)

/-- The project's active rows among the nearest vectors, nearest first. -/
def Table.searchNotes (t : Table) (projectId : Nat) (knn : List (Nat × D)) : List (ServerNote D) :=
  knn.filterMap fun (rowid, distance) =>
    (t.rows.find? fun r => r.rowid = rowid ∧ r.projectId = projectId ∧ r.status = "active").map
      (t.rowToNote (some distance))

/-! ## The commit -/

def gitPrefix : Text := ['g', 'i', 't', ':']

def isGitTag (tag : Text) : Bool := gitPrefix.isPrefixOf tag

/-- `strip_prefix("git:")`. -/
def stripGit (tag : Text) : Option Text := if isGitTag tag then some (tag.drop gitPrefix.length) else none

def sourceCommitFromTags (tags : List Text) : Option Text := tags.findSome? stripGit

def nul : Char := '\x00'

/-- `tags LIKE '%git:%'`: letters of either case, and nothing after a NUL is looked at. -/
def likeGit (column : Text) : Bool :=
  gitPrefix <:+: (column.takeWhile (· ≠ nul)).map Char.toLower

/-- The commits one row reports. -/
def Row.shas (r : Row) : List Text :=
  match r.tags with
  | some column =>
    if likeGit column then ((column.splitOn ',').map TextLines.trim).filterMap stripGit else []
  | none => []

def Table.harvestedShas (t : Table) (projectId : Nat) : List Text :=
  (t.rows.filter fun r => r.projectId = projectId).flatMap Row.shas

/-- A row of the `since` feed. -/
structure SinceIdRow where
  syncId : String
  kind : String
  title : String
  body : String
  sourceCommit : Option Text
  createdAt : Int

def rowToSinceIdRow (r : Row) : SinceIdRow where
  syncId := r.syncId
  kind := r.kind
  title := r.title
  body := r.body
  sourceCommit := sourceCommitFromTags (splitCsv r.tags)
  createdAt := r.createdAt

def Table.notesSinceId (t : Table) (projectId : Nat) (cursor : String) (limit : Int) :
    List SinceIdRow :=
  (orderLimit Row.syncId (max 1 (min limit 500)).toNat
    (t.rows.filter fun r => r.projectId = projectId ∧ r.status ≠ "archived" ∧ cursor < r.syncId)).map
      rowToSinceIdRow

/-- The tags column once a commit is set. -/
def anchoredTags (column : Option Text) (sourceRef : Text) : Option Text :=
  some (join ',' ((splitCsv column).filter (fun tag => !isGitTag tag) ++ [gitPrefix ++ sourceRef]))

/-- The row an anchor leaves. -/
def anchorRow (projectId : Nat) (noteId : String) (sourceRef : Text) (r : Row) : Row :=
  if r.syncId = noteId ∧ r.projectId = projectId then
    { r with tags := anchoredTags r.tags sourceRef }
  else r

theorem anchorRow_syncId (projectId : Nat) (noteId : String) (sourceRef : Text) :
    Row.syncId ∘ anchorRow projectId noteId sourceRef = Row.syncId := by
  funext r
  show (anchorRow projectId noteId sourceRef r).syncId = r.syncId
  rw [anchorRow]
  split <;> rfl

theorem anchorRow_pushKey (projectId : Nat) (noteId : String) (sourceRef : Text) :
    Row.pushKey ∘ anchorRow projectId noteId sourceRef = Row.pushKey := by
  funext r
  show (anchorRow projectId noteId sourceRef r).pushKey = r.pushKey
  rw [anchorRow]
  split <;> rfl

/-- The table and whether a row was changed. -/
def Table.setNoteSourceRef (t : Table) (projectId : Nat) (noteId : String) (sourceRef : Text) :
    Table × Bool :=
  match t.row? projectId noteId with
  | none => (t, false)
  | some _ =>
    (⟨t.rows.map (anchorRow projectId noteId sourceRef), t.nextRowid,
      by rw [List.map_map, anchorRow_syncId]; exact t.syncUnique,
      by rw [List.filterMap_map, anchorRow_pushKey]; exact t.remoteUnique⟩, true)

/-- One call of the anchor endpoint. -/
structure AnchorCall where
  projectId : Nat
  noteId : String
  sourceRef : Text

def Table.runCalls (t : Table) (calls : List AnchorCall) : Table :=
  calls.foldl (fun t c => (t.setNoteSourceRef c.projectId c.noteId c.sourceRef).1) t

/-- The references a run of calls sets on one entry. -/
def refsOf (projectId : Nat) (noteId : String) (calls : List AnchorCall) : List Text :=
  (calls.filter fun c => c.noteId = noteId ∧ c.projectId = projectId).map AnchorCall.sourceRef

/-! ## What readers are owed -/

/-- The list a client sent, blank elements aside. -/
def visible (list : List Text) : List Text := list.filter fun text => !isBlank text

/-- The tags that are no commit. -/
def otherTags (tags : List Text) : List Text := tags.filter fun tag => !isGitTag tag

structure ReadAs (note : ServerNote D) (e : Entry) : Prop where
  tags : note.tags = visible e.tags
  linkedFiles : note.linkedFiles = visible e.linkedFiles

/-- Every reader gets the entry's lists. -/
structure ReadsBack (D : Type*) (t : Table) (projectId : Nat) (noteId : String) (e : Entry) :
    Prop where
  get : ∃ note : ServerNote D, t.getNote projectId noteId = some note ∧ ReadAs note e
  list : ∀ kindFilter limit includeArchived offset,
    ∀ note ∈ (t.listNotes projectId kindFilter limit includeArchived offset : List (ServerNote D)),
      note.id = noteId → ReadAs note e
  search : ∀ knn : List (Nat × D), ∀ note ∈ t.searchNotes projectId knn,
    note.id = noteId → ReadAs note e

/-- The entry has its other tags and one commit, the last one set, and both commit readers
    report that one. -/
structure Anchored (D : Type*) (t : Table) (projectId : Nat) (noteId : String) (e : Entry)
    (last : Text) : Prop where
  tags : ∃ note : ServerNote D, t.getNote projectId noteId = some note ∧
    otherTags note.tags = otherTags (visible e.tags) ∧ (note.tags.filter isGitTag).length = 1
  harvested : ∃ row, t.row? projectId noteId = some row ∧ row.shas = [last]
  since : ∀ cursor limit, ∀ s ∈ t.notesSinceId projectId cursor limit,
    s.syncId = noteId → s.sourceCommit = some last

/-- The entry's lists survive its storing, and any run of anchor calls after it. -/
structure Survives (D : Type*) (t : Table) (projectId : Nat) (noteId : String) (e : Entry)
    (calls : List AnchorCall) : Prop where
  reads : ReadsBack D t projectId noteId e
  anchored : ∀ last ∈ (refsOf projectId noteId calls).getLast?,
    Anchored D (t.runCalls calls) projectId noteId e last

/-- The tags a reference turns into beside its own. -/
def strayTags (sourceRef : Text) : List Text := otherTags (items ',' (gitPrefix ++ sourceRef))

def trimEnd (text : Text) : Text := text.rdropWhile TextLines.isWhitespace

/-- The references leave no stray tags, the last one is read back as it is, and the search for
    commits gets as far as it. -/
structure AnchorsPlain (e : Entry) (refs : List Text) : Prop where
  alone : ∀ ref ∈ refs, strayTags ref = []
  last : ∀ last ∈ refs.getLast?, ',' ∉ last ∧ trimEnd last = last
  seen : refs = [] ∨ nul ∉ join ',' (otherTags (visible e.tags))
    ∨ likeGit (join ',' (otherTags (visible e.tags))) = true

/-! ## Columns as lists -/

theorem isWhitespace_comma : TextLines.isWhitespace ',' = false := by decide

theorem splitCsv_csv (list : List Text) : splitCsv (csv list) = list.flatMap (items ',') := by
  rw [splitCsv, csv]
  split
  case isTrue h =>
    rw [h]
    exact items_nil
  case isFalse => exact items_join list

theorem splitCsv_csv_eq_visible_iff (list : List Text) :
    splitCsv (csv list) = visible list ↔ ∀ text ∈ list, isBlank text = false → Plain ',' text := by
  rw [splitCsv_csv, ← items_join]
  exact items_join_eq_iff isWhitespace_comma list

theorem plain_of_mem_splitCsv {column : Option Text} {tag : Text} (h : tag ∈ splitCsv column) :
    Plain ',' tag ∧ isBlank tag = false := plain_of_mem_items h

theorem splitCsv_anchoredTags (column : Option Text) (sourceRef : Text) :
    splitCsv (anchoredTags column sourceRef)
      = otherTags (splitCsv column) ++ items ',' (gitPrefix ++ sourceRef) := by
  have hplain : ∀ tag ∈ otherTags (splitCsv column), Plain ',' tag ∧ isBlank tag = false :=
    fun tag htag => plain_of_mem_splitCsv (List.mem_of_mem_filter htag)
  rw [anchoredTags, splitCsv, Option.getD_some, items_join, List.flatMap_append,
    List.flatMap_singleton]
  exact congrArg (· ++ items ',' (gitPrefix ++ sourceRef)) (flatMap_items_of_plain hplain)

theorem otherTags_append (tags tags' : List Text) :
    otherTags (tags ++ tags') = otherTags tags ++ otherTags tags' :=
  List.filter_append tags tags'

theorem otherTags_otherTags (tags : List Text) : otherTags (otherTags tags) = otherTags tags := by
  rw [otherTags, otherTags, List.filter_filter]
  simp only [Bool.and_self]

theorem otherTags_anchoredTags (column : Option Text) (sourceRef : Text) :
    otherTags (splitCsv (anchoredTags column sourceRef))
      = otherTags (splitCsv column) ++ strayTags sourceRef := by
  rw [splitCsv_anchoredTags, otherTags_append, otherTags_otherTags, strayTags]

theorem otherTags_foldl (column : Option Text) (refs : List Text) :
    otherTags (splitCsv (refs.foldl anchoredTags column))
      = otherTags (splitCsv column) ++ refs.flatMap strayTags := by
  induction refs generalizing column with
  | nil => rw [List.foldl_nil, List.flatMap_nil, List.append_nil]
  | cons ref refs ih =>
    rw [List.foldl_cons, ih, otherTags_anchoredTags, List.flatMap_cons, List.append_assoc]

/-! ## One commit tag -/

theorem items_git_of_not_mem {front : Text} (h : ',' ∉ front) :
    items ',' (gitPrefix ++ front) = [gitPrefix ++ trimEnd front] := by
  have hmem : ',' ∉ gitPrefix ++ front := by
    intro hmem
    rcases List.mem_append.mp hmem with hgit | hfront
    · exact absurd hgit (by decide)
    · exact h hfront
  have htrim : TextLines.trim (gitPrefix ++ front) = gitPrefix ++ trimEnd front := by
    have happ : gitPrefix ++ front = ['g', 'i', 't'] ++ ':' :: front := rfl
    have hcolon : TextLines.isWhitespace ':' = false := by decide
    have hg : ¬ TextLines.isWhitespace 'g' = true := by decide
    rw [happ, TextLines.trim, TextLines.rdropWhile_append hcolon, List.cons_append,
      List.dropWhile_cons_of_neg hg]
    rfl
  have hblank : isBlank (gitPrefix ++ front) = false := by
    rw [isBlank, htrim]
    rfl
  rw [items_of_not_mem hmem, if_neg (by simp [hblank]), htrim]

theorem stripGit_git (text : Text) : stripGit (gitPrefix ++ text) = some text := by
  have htag : isGitTag (gitPrefix ++ text) = true := by
    rw [isGitTag, List.isPrefixOf_iff_prefix]
    exact List.prefix_append gitPrefix text
  rw [stripGit, if_pos htag, List.drop_left]

theorem filterMap_stripGit_otherTags (tags : List Text) : (otherTags tags).filterMap stripGit = [] := by
  rw [List.filterMap_eq_nil_iff]
  intro tag htag
  have hgit : isGitTag tag = false := by simpa using (List.mem_filter.mp htag).2
  rw [stripGit, hgit]
  rfl

theorem length_rdropWhile_le {p : Char → Bool} (text : Text) :
    (text.rdropWhile p).length ≤ text.length := (List.rdropWhile_prefix p text).length_le

/-- A reference is read back alone and as it is when it has no comma and does not end in white
    space. -/
theorem filterMap_stripGit_items_iff (ref : Text) :
    (items ',' (gitPrefix ++ ref)).filterMap stripGit = [ref] ↔ ',' ∉ ref ∧ trimEnd ref = ref := by
  by_cases hcomma : ',' ∈ ref
  · -- what stands before the comma is shorter than the reference
    obtain ⟨front, back, rfl, hfront⟩ := List.eq_append_cons_of_mem hcomma
    constructor
    · intro h
      rw [← List.append_assoc, items_append_sep, items_git_of_not_mem hfront, List.filterMap_append,
        List.filterMap_cons_some (stripGit_git _), List.cons_append] at h
      have hlen := @length_rdropWhile_le TextLines.isWhitespace front
      have heq : trimEnd front = front ++ ',' :: back := (List.cons.inj h).1
      rw [trimEnd] at heq
      rw [heq, List.length_append, List.length_cons] at hlen
      omega
    · exact fun h => absurd hcomma h.1
  · rw [items_git_of_not_mem hcomma, List.filterMap_cons_some (stripGit_git _), List.filterMap_nil]
    constructor
    · exact fun h => ⟨hcomma, (List.cons.inj h).1⟩
    · exact fun h => by rw [h.2]

/-! ## The search for commits -/

theorem takeWhile_append_of_forall {p : Char → Bool} {x : Text} (h : ∀ c ∈ x, p c = true) (y : Text) :
    (x ++ y).takeWhile p = x ++ y.takeWhile p := by
  rw [List.takeWhile_append, if_pos]
  rw [List.takeWhile_eq_self_iff.mpr h]

theorem likeGit_append_git {front : Text} (h : nul ∉ front) (ref : Text) :
    likeGit (front ++ (gitPrefix ++ ref)) = true := by
  have hfront : ∀ c ∈ front, decide (c ≠ nul) = true := by
    intro c hc
    rw [decide_eq_true_eq]
    rintro rfl
    exact h hc
  have hgit : ∀ c ∈ gitPrefix, decide (c ≠ nul) = true := List.all_eq_true.mp (by decide)
  have hlower : gitPrefix.map Char.toLower = gitPrefix := by decide
  rw [likeGit, takeWhile_append_of_forall hfront, takeWhile_append_of_forall hgit, List.map_append,
    List.map_append, hlower, decide_eq_true_eq]
  exact ⟨front.map Char.toLower, _, List.append_assoc _ _ _⟩

theorem likeGit_append_of_mem {front : Text} (h : nul ∈ front) (back : Text) :
    likeGit (front ++ back) = likeGit front := by
  have hcut : (front ++ back).takeWhile (· ≠ nul) = front.takeWhile (· ≠ nul) := by
    rw [List.takeWhile_append, if_neg]
    intro hlen
    have hself := List.takeWhile_eq_self_iff.mp
      ((List.takeWhile_prefix (fun c => decide (c ≠ nul))).eq_of_length hlen) nul h
    exact absurd hself (by decide)
  rw [likeGit, likeGit, hcut]

theorem likeGit_join_concat (others : List Text) (ref : Text) :
    likeGit (join ',' (others ++ [gitPrefix ++ ref])) = true
      ↔ nul ∉ join ',' others ∨ likeGit (join ',' others) = true := by
  cases others with
  | nil =>
    have hgit : likeGit (gitPrefix ++ ref) = true := @likeGit_append_git [] (by simp) ref
    exact iff_of_true hgit (Or.inl (by simp [join]))
  | cons other others =>
    rw [join_concat (List.cons_ne_nil other others)]
    by_cases hnul : nul ∈ join ',' (other :: others)
    · rw [likeGit_append_of_mem hnul]
      simp only [hnul, not_true_eq_false, false_or]
    · have hcomma : nul ∉ join ',' (other :: others) ++ [','] := by
        intro hmem
        rcases List.mem_append.mp hmem with hmem | hmem
        · exact hnul hmem
        · exact absurd hmem (by decide)
      have hseen := likeGit_append_git hcomma ref
      rw [List.append_assoc, List.singleton_append] at hseen
      exact iff_of_true hseen (Or.inl hnul)

theorem shas_eq (r : Row) (column : Text) (h : r.tags = some column) :
    r.shas = if likeGit column then (splitCsv r.tags).filterMap stripGit else [] := by
  have hblank : ∀ tags : List Text,
      tags.filterMap stripGit = (tags.filter fun tag => !isBlank tag).filterMap stripGit := by
    intro tags
    induction tags with
    | nil => rfl
    | cons tag tags ih =>
      cases hb : isBlank tag with
      | false => rw [List.filter_cons_of_pos (by simp [hb]), List.filterMap_cons, List.filterMap_cons, ih]
      | true =>
        -- a commit tag is not blank
        have hnone : stripGit tag = none := by
          rw [stripGit, if_neg]
          intro hgit
          rw [isGitTag, List.isPrefixOf_iff_prefix] at hgit
          rw [isBlank, decide_eq_true_eq, TextLines.trim_eq_nil_iff] at hb
          exact absurd (hb 'g' (hgit.subset (by decide))) (by decide)
        rw [List.filter_cons_of_neg (by simp [hb]), List.filterMap_cons_none hnone, ih]
  rw [Row.shas, h]
  dsimp only
  split
  case isTrue => rw [hblank, splitCsv, Option.getD_some, items]
  case isFalse => rfl

/-- What a row reports after a reference is set: that reference alone, when it is plain and the
    search reaches it. -/
theorem shas_anchoredTags_iff (r : Row) (column : Option Text) (ref : Text)
    (h : r.tags = anchoredTags column ref) :
    r.shas = [ref] ↔ (nul ∉ join ',' (otherTags (splitCsv column))
        ∨ likeGit (join ',' (otherTags (splitCsv column))) = true) ∧ ',' ∉ ref ∧ trimEnd ref = ref := by
  rw [shas_eq r _ h, h, splitCsv_anchoredTags, List.filterMap_append,
    filterMap_stripGit_otherTags, List.nil_append, ← filterMap_stripGit_items_iff,
    ← likeGit_join_concat _ ref]
  unfold otherTags
  split
  case isTrue hlike => exact (and_iff_right hlike).symm
  case isFalse hlike =>
    constructor
    · intro hnil
      cases hnil
    · exact fun hboth => absurd hboth.1 hlike

/-! ## Rows and readers -/

variable {projectId : Nat} {t : Table} {noteId : String}
variable {r : Row}

theorem Table.row?_eq_some_iff :
    t.row? projectId noteId = some r ↔ r ∈ t.rows ∧ r.syncId = noteId ∧ r.projectId = projectId := by
  constructor
  · intro h
    exact ⟨List.mem_of_find?_eq_some h, by simpa using List.find?_some h⟩
  · rintro ⟨hmem, hid⟩
    have hsome : (t.row? projectId noteId).isSome :=
      List.find?_isSome.mpr ⟨r, hmem, by simpa using hid⟩
    obtain ⟨s, hs⟩ := Option.isSome_iff_exists.mp hsome
    have hsid : s.syncId = noteId ∧ s.projectId = projectId := by simpa using List.find?_some hs
    have hsr : s = r := List.inj_on_of_nodup_map t.syncUnique (List.mem_of_find?_eq_some hs) hmem
      (hsid.1.trans hid.1.symm)
    rw [hs, hsr]

theorem Table.exists_row_of_mem_listNotes {kindFilter : Option String} {limit : Nat}
    {includeArchived : Bool} {offset : Nat} {note : ServerNote D}
    (h : note ∈ t.listNotes projectId kindFilter limit includeArchived offset) :
    ∃ r ∈ t.rows, r.projectId = projectId ∧ note = t.rowToNote none r := by
  obtain ⟨r, hr, rfl⟩ := List.mem_map.mp h
  have hmem := (mem_sortBy listKey).mp (List.mem_of_mem_drop (List.mem_of_mem_take hr))
  obtain ⟨hrow, hkept⟩ := List.mem_filter.mp hmem
  exact ⟨r, hrow, (of_decide_eq_true hkept).1, rfl⟩

theorem Table.exists_row_of_mem_searchNotes {knn : List (Nat × D)} {note : ServerNote D}
    (h : note ∈ t.searchNotes projectId knn) :
    ∃ r ∈ t.rows, r.projectId = projectId ∧ ∃ distance, note = t.rowToNote (some distance) r := by
  obtain ⟨⟨rowid, distance⟩, -, hhit⟩ := List.mem_filterMap.mp h
  obtain ⟨r, hr, rfl⟩ := Option.map_eq_some_iff.mp hhit
  have hkept := List.find?_some hr
  exact ⟨r, List.mem_of_find?_eq_some hr, (of_decide_eq_true hkept).2.1, distance, rfl⟩

theorem Table.exists_row_of_mem_notesSinceId {cursor : String} {limit : Int} {s : SinceIdRow}
    (h : s ∈ t.notesSinceId projectId cursor limit) :
    ∃ r ∈ t.rows, r.projectId = projectId ∧ s = rowToSinceIdRow r := by
  obtain ⟨r, hr, rfl⟩ := List.mem_map.mp h
  have hmem := (mem_sortBy Row.syncId).mp (List.mem_of_mem_take hr)
  obtain ⟨hrow, hkept⟩ := List.mem_filter.mp hmem
  exact ⟨r, hrow, (of_decide_eq_true hkept).1, rfl⟩

theorem readsBack_iff (hrow : t.row? projectId noteId = some r) (e : Entry) :
    ReadsBack D t projectId noteId e
      ↔ splitCsv r.tags = visible e.tags ∧ splitCsv r.linkedFiles = visible e.linkedFiles := by
  have hget : (t.getNote projectId noteId : Option (ServerNote D)) = some (t.rowToNote none r) := by
    rw [Table.getNote, hrow, Option.map_some]
  have hsame : ∀ s ∈ t.rows, s.projectId = projectId → s.syncId = noteId → s = r := by
    intro s hs hproject hid
    have hrow' := Table.row?_eq_some_iff.mpr ⟨hs, hid, hproject⟩
    exact Option.some.inj (hrow'.symm.trans hrow)
  constructor
  · intro h
    obtain ⟨note, hnote, hread⟩ := h.get
    obtain rfl := Option.some.inj (hget.symm.trans hnote)
    exact ⟨hread.tags, hread.linkedFiles⟩
  · rintro ⟨htags, hfiles⟩
    refine ⟨⟨_, hget, ⟨htags, hfiles⟩⟩, ?_, ?_⟩
    · intro kindFilter limit includeArchived offset note hnote hid
      obtain ⟨s, hs, hproject, rfl⟩ := Table.exists_row_of_mem_listNotes hnote
      obtain rfl := hsame s hs hproject hid
      exact ⟨htags, hfiles⟩
    · intro knn note hnote hid
      obtain ⟨s, hs, hproject, distance, rfl⟩ := Table.exists_row_of_mem_searchNotes hnote
      obtain rfl := hsame s hs hproject hid
      exact ⟨htags, hfiles⟩

/-! ## Writes -/

theorem Table.row?_addNoteWithSyncId {t t' : Table} {projectId : Nat} {e : Entry} {syncId : String}
    {now : Int} (h : t.addNoteWithSyncId projectId e syncId now = some t') :
    t'.row? projectId syncId = some (t.newRow projectId e syncId now) := by
  unfold Table.addNoteWithSyncId at h
  dsimp only at h
  split at h
  case isTrue =>
    obtain rfl := Option.some.inj h
    exact Table.row?_eq_some_iff.mpr
      ⟨List.mem_append_right _ (List.mem_singleton_self _), rfl, rfl⟩
  case isFalse => cases h

theorem Table.row?_setNoteSourceRef (hrow : t.row? projectId noteId = some r) (projectId' : Nat)
    (noteId' : String) (ref : Text) :
    (t.setNoteSourceRef projectId' noteId' ref).1.row? projectId noteId
      = some (anchorRow projectId' noteId' ref r) := by
  obtain ⟨hmem, hid, hproject⟩ := Table.row?_eq_some_iff.mp hrow
  unfold Table.setNoteSourceRef
  split
  case h_1 hnone =>
    have hother : ¬ (r.syncId = noteId' ∧ r.projectId = projectId') := by
      intro hsame
      have hsome := Table.row?_eq_some_iff.mpr ⟨hmem, hsame⟩
      rw [hnone] at hsome
      cases hsome
    rw [anchorRow, if_neg hother]
    exact hrow
  case h_2 =>
    have hid' : (anchorRow projectId' noteId' ref r).syncId = r.syncId :=
      congrFun (anchorRow_syncId projectId' noteId' ref) r
    have hproject' : (anchorRow projectId' noteId' ref r).projectId = r.projectId := by
      rw [anchorRow]
      split <;> rfl
    exact Table.row?_eq_some_iff.mpr
      ⟨List.mem_map_of_mem hmem, hid'.trans hid, hproject'.trans hproject⟩

/-- A run of anchor calls sets an entry's own references, in order, and nothing else of it. -/
theorem Table.row?_runCalls (hrow : t.row? projectId noteId = some r) (calls : List AnchorCall) :
    (t.runCalls calls).row? projectId noteId
      = some { r with tags := (refsOf projectId noteId calls).foldl anchoredTags r.tags } := by
  induction calls generalizing t r with
  | nil => exact hrow
  | cons c calls ih =>
    obtain ⟨-, hid, hproject⟩ := Table.row?_eq_some_iff.mp hrow
    have hstep := Table.row?_setNoteSourceRef hrow c.projectId c.noteId c.sourceRef
    rw [Table.runCalls, List.foldl_cons]
    by_cases hown : c.noteId = noteId ∧ c.projectId = projectId
    · have hanchor : anchorRow c.projectId c.noteId c.sourceRef r
          = { r with tags := anchoredTags r.tags c.sourceRef } := by
        rw [anchorRow, if_pos ⟨hid.trans hown.1.symm, hproject.trans hown.2.symm⟩]
      rw [hanchor] at hstep
      rw [refsOf, List.filter_cons_of_pos (by simpa using hown), List.map_cons, List.foldl_cons]
      exact ih hstep
    · have hanchor : anchorRow c.projectId c.noteId c.sourceRef r = r := by
        rw [anchorRow, if_neg]
        rintro ⟨hid', hproject'⟩
        exact hown ⟨hid'.symm.trans hid, hproject'.symm.trans hproject⟩
      rw [hanchor] at hstep
      rw [refsOf, List.filter_cons_of_neg (by simpa using hown)]
      exact ih hstep

/-! ## What survives -/

/-- Set after other references, the last one is anchored when all of them are plain. -/
theorem anchored_iff {e : Entry} (htags : splitCsv r.tags = visible e.tags) (earlier : List Text)
    (last : Text)
    (hrow : t.row? projectId noteId = some { r with tags := (earlier ++ [last]).foldl anchoredTags r.tags })
    : Anchored D t projectId noteId e last ↔ AnchorsPlain e (earlier ++ [last]) := by
  have hget : (t.getNote projectId noteId : Option (ServerNote D)) = some (t.rowToNote none
      { r with tags := (earlier ++ [last]).foldl anchoredTags r.tags }) := by
    rw [Table.getNote, hrow, Option.map_some]
  have hcolumn : (earlier ++ [last]).foldl anchoredTags r.tags
      = anchoredTags (earlier.foldl anchoredTags r.tags) last := by
    rw [List.foldl_append, List.foldl_cons, List.foldl_nil]
  have hothers := otherTags_foldl r.tags (earlier ++ [last])
  have hearlier := otherTags_foldl r.tags earlier
  rw [htags] at hothers hearlier
  have hshas := shas_anchoredTags_iff { r with tags := (earlier ++ [last]).foldl anchoredTags r.tags }
    (earlier.foldl anchoredTags r.tags) last hcolumn
  -- no stray tags: the others are the client's before the last reference, too
  have hstray : (∀ ref ∈ earlier ++ [last], strayTags ref = []) → otherTags
      (splitCsv (earlier.foldl anchoredTags r.tags)) = otherTags (visible e.tags) := by
    intro hnone
    rw [hearlier, List.flatMap_eq_nil_iff.mpr fun ref href =>
      hnone ref (List.mem_append_left _ href), List.append_nil]
  have hlast : ∀ ref, ref ∈ (earlier ++ [last]).getLast? ↔ last = ref := by
    intro ref
    rw [List.getLast?_concat, Option.mem_some_iff]
  constructor
  · rintro ⟨⟨note, hnote, hsame, -⟩, ⟨row, hrow', hrowShas⟩, -⟩
    obtain rfl := Option.some.inj (hget.symm.trans hnote)
    obtain rfl := Option.some.inj (hrow.symm.trans hrow')
    have hnone : ∀ ref ∈ earlier ++ [last], strayTags ref = [] := by
      have happ := hothers.symm.trans hsame
      exact List.flatMap_eq_nil_iff.mp (List.append_right_eq_self.mp happ)
    obtain ⟨hseen, hplain⟩ := hshas.mp hrowShas
    rw [hstray hnone] at hseen
    refine ⟨hnone, ?_, Or.inr hseen⟩
    intro ref href
    obtain rfl := (hlast ref).mp href
    exact hplain
  · rintro ⟨hnone, hplain, hseen⟩
    have hplainLast := hplain last ((hlast last).mpr rfl)
    have hitems : splitCsv ((earlier ++ [last]).foldl anchoredTags r.tags)
        = otherTags (visible e.tags) ++ [gitPrefix ++ last] := by
      rw [hcolumn, splitCsv_anchoredTags, hstray hnone, items_git_of_not_mem hplainLast.1,
        hplainLast.2]
    have hgit : isGitTag (gitPrefix ++ last) = true := by
      rw [isGitTag, List.isPrefixOf_iff_prefix]
      exact List.prefix_append gitPrefix last
    have hsource : sourceCommitFromTags (otherTags (visible e.tags) ++ [gitPrefix ++ last])
        = some last := by
      have hnot := List.filterMap_eq_nil_iff.mp (filterMap_stripGit_otherTags (visible e.tags))
      rw [sourceCommitFromTags, List.findSome?_append, List.findSome?_eq_none_iff.mpr hnot,
        Option.none_or, List.findSome?_cons, stripGit_git]
    have hone : ((otherTags (visible e.tags) ++ [gitPrefix ++ last]).filter isGitTag).length = 1 := by
      have hnot : (otherTags (visible e.tags)).filter isGitTag = [] := by
        rw [List.filter_eq_nil_iff]
        intro tag htag
        simpa using (List.mem_filter.mp htag).2
      rw [List.filter_append, hnot, List.nil_append, List.filter_cons_of_pos hgit,
        List.filter_nil, List.length_singleton]
    refine ⟨⟨_, hget, ?_, ?_⟩, ⟨_, hrow, hshas.mpr ⟨?_, hplainLast⟩⟩, ?_⟩
    · show otherTags (splitCsv _) = _
      rw [hothers, List.flatMap_eq_nil_iff.mpr hnone, List.append_nil]
    · show ((splitCsv _).filter isGitTag).length = 1
      rw [hitems]
      exact hone
    · rw [hstray hnone]
      exact hseen.resolve_left (List.append_ne_nil_of_right_ne_nil _ (List.cons_ne_nil _ _))
    · intro cursor limit s hs hid
      obtain ⟨row, hmem, hproject, rfl⟩ := Table.exists_row_of_mem_notesSinceId hs
      obtain rfl := Option.some.inj
        ((Table.row?_eq_some_iff.mpr ⟨hmem, hid, hproject⟩).symm.trans hrow)
      show sourceCommitFromTags (splitCsv _) = some last
      rw [hitems, hsource]

/-- A stored entry keeps its lists through storing, reading and anchoring exactly when its
    elements are plain and so are the references set on it. -/
theorem survives_iff {t t' : Table} {projectId : Nat} {e : Entry} {syncId : String} {now : Int}
    (hadd : t.addNoteWithSyncId projectId e syncId now = some t') (calls : List AnchorCall) :
    Survives D t' projectId syncId e calls
      ↔ (∀ text ∈ e.tags ++ e.linkedFiles, isBlank text = false → Plain ',' text)
        ∧ AnchorsPlain e (refsOf projectId syncId calls) := by
  have hrow := Table.row?_addNoteWithSyncId hadd
  have hreads : ReadsBack D t' projectId syncId e
      ↔ ∀ text ∈ e.tags ++ e.linkedFiles, isBlank text = false → Plain ',' text := by
    rw [readsBack_iff hrow, List.forall_mem_append, ← splitCsv_csv_eq_visible_iff,
      ← splitCsv_csv_eq_visible_iff]
    rfl
  -- no anchor goes through, or the last of them decides what is read
  have hanchored : ReadsBack D t' projectId syncId e →
      ((∀ last ∈ (refsOf projectId syncId calls).getLast?,
          Anchored D (t'.runCalls calls) projectId syncId e last)
        ↔ AnchorsPlain e (refsOf projectId syncId calls)) := by
    intro hback
    have htags := ((readsBack_iff hrow e).mp hback).1
    have hrun := Table.row?_runCalls hrow calls
    rcases List.eq_nil_or_concat (refsOf projectId syncId calls) with hnil | ⟨earlier, last, hrefs⟩
    · rw [hnil]
      refine iff_of_true ?_ ⟨?_, ?_, Or.inl rfl⟩
      · intro last hlast
        cases hlast
      · intro ref href
        cases href
      · intro last hlast
        cases hlast
    · rw [List.concat_eq_append] at hrefs
      rw [hrefs] at hrun ⊢
      rw [← anchored_iff htags earlier last hrun, List.getLast?_concat]
      constructor
      · exact fun h => h last rfl
      · intro h last' hlast'
        rwa [← Option.some.inj hlast']
  constructor
  · rintro ⟨hback, hlast⟩
    exact ⟨hreads.mp hback, (hanchored hback).mp hlast⟩
  · rintro ⟨hplain, hanchors⟩
    have hback := hreads.mpr hplain
    exact ⟨hback, (hanchored hback).mpr hanchors⟩

theorem nodup_syncId_nil : (([] : List Row).map Row.syncId).Nodup := List.nodup_nil

theorem nodup_pushKey_nil : (([] : List Row).filterMap Row.pushKey).Nodup := List.nodup_nil

def Table.empty : Table := ⟨[], 1, nodup_syncId_nil, nodup_pushKey_nil⟩

def designNote (tags linkedFiles : List Text) : Entry where
  kind := "note"
  title := "Design"
  body := "See the diagram."
  tags := tags
  linkedFiles := linkedFiles
  remoteId := none

theorem survives_designNote : ∃ t', Table.empty.addNoteWithSyncId 1
      (designNote ["db".toList, "git:a1".toList] ["src/db.rs".toList]) "n1" 0 = some t' ∧
    Survives ℕ t' 1 "n1" (designNote ["db".toList, "git:a1".toList] ["src/db.rs".toList])
      [⟨1, "n1", "b2".toList⟩, ⟨1, "n1", "c3".toList⟩] := by
  have hadd : Table.empty.addNoteWithSyncId 1
    (designNote ["db".toList, "git:a1".toList] ["src/db.rs".toList]) "n1" 0 = some _ := rfl
  refine ⟨_, hadd, (survives_iff hadd _).mpr ⟨by decide, ⟨by decide, ?_, by decide⟩⟩⟩
  intro last hlast
  obtain rfl : "c3".toList = last := Option.some.inj hlast
  decide

/-- A linked file with a comma in its name is read back as two. -/
theorem not_survives_designNote : ∃ t', Table.empty.addNoteWithSyncId 1
      (designNote [] ["docs/a,b.md".toList]) "n1" 0 = some t' ∧
    ¬ Survives ℕ t' 1 "n1" (designNote [] ["docs/a,b.md".toList]) [] := by
  refine ⟨_, rfl, ?_⟩
  intro h
  have hrow := @Table.row?_addNoteWithSyncId Table.empty _ 1
    (designNote [] ["docs/a,b.md".toList]) "n1" 0 rfl
  exact absurd ((readsBack_iff hrow _).mp h.reads).2 (by decide)

end Columns
end Server
end Inkentry
