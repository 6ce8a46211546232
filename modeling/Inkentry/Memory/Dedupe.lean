/-
  Inkentry.Memory.Dedupe

  `memory dedupe`: the rows that hold one content are collapsed into the oldest
  of them.

  A store's convergence keys are unique, so two rows share their content only
  where one came with a key of its own (an imported dump carries the key
  verbatim).  A group of such rows has a survivor and losers.  Everything is
  planned from the rows as they are before the run: phase 1 merges each group
  into its survivor, phase 2 turns every reference to a loser to its group's
  survivor, phase 3 deletes the losers, and with each of them the edges it is
  an end of.

  `dedupe_effect` says what a run leaves: the rows that are no loser, each
  superseded by `keptSuccessor`.
-/

import Inkentry.Lib.OrderLimit
import Inkentry.Memory.Store

namespace Inkentry
namespace Memory

open OrderLimit SortedSet

/-! ## Two more statements -/

/-- `SET superseded_by = NULL`. -/
def unlinkEdit : RowEdit where
  apply n := { n with supersededBy := none }
  id_apply _ := rfl
  entityId_apply _ := rfl
  remoteId_apply _ := rfl
  content_apply _ := ⟨rfl, rfl, rfl⟩

def Store.clearSupersededBy (s : Store) (id : NoteId) : Store :=
  s.edit unlinkEdit fun n => n.id = id

/-- Deletes a row and every edge it is an end of; `none` when another row is superseded
    by it, which the foreign key refuses. -/
def Store.deleteNote (s : Store) (id : NoteId) : Option Store :=
  if s.rows.any fun n => n.id ≠ id && n.supersededBy = some id then none
  else some
    { rows := s.rows.filter fun n => n.id ≠ id
      edges := s.edges.filter fun e => e.fromId ≠ id ∧ e.toId ≠ id
      uuidUnique := s.uuidUnique.sublist (List.filter_sublist.map _)
      entityUnique := s.entityUnique.sublist (List.filter_sublist.map _)
      remoteUnique := s.remoteUnique.sublist (List.filter_sublist.filterMap _) }

/-! ## Groups -/

/-- The rows that hold one content, the oldest and the later ones. -/
structure DuplicateGroup where
  survivor : Note
  losers : List Note

def DuplicateGroup.members (g : DuplicateGroup) : List Note := g.survivor :: g.losers

/-- Every row, the oldest first. -/
def Store.allNotesForDedup (s : Store) : List Note := sortBy Note.createdAt s.rows

/-- The group of some content, if it has more than one row. -/
def duplicateGroup? (sha : String → String) (all : List Note) (entity : String) :
    Option DuplicateGroup :=
  match all.filter fun n => noteEntityId sha n = entity with
  | survivor :: loser :: losers => some ⟨survivor, loser :: losers⟩
  | _ => none

/-- The groups, in the order their survivors come in. -/
def duplicateGroups (sha : String → String) (all : List Note) : List DuplicateGroup :=
  (all.map (noteEntityId sha)).eraseDups.filterMap (duplicateGroup? sha all)

/-- The survivor of the group a row is a loser of. -/
def loserToSurvivor (groups : List DuplicateGroup) (id : NoteId) : Option NoteId :=
  (groups.find? fun g => g.losers.any fun n => n.id = id).map fun g => g.survivor.id

/-- The position of the group a row is in. -/
def noteGroupOf (groups : List DuplicateGroup) (id : NoteId) : Option Nat :=
  groups.findIdx? fun g => g.members.any fun n => n.id = id

/-- The group whose survivor a row is. -/
def survivorGroup? (groups : List DuplicateGroup) (id : NoteId) : Option DuplicateGroup :=
  groups.find? fun g => g.survivor.id = id

/-! ## Phase 1 -/

structure DedupeSummary where
  totalNotes : Nat
  duplicateGroups : Nat
  rowsCollapsed : Nat
  tagsMerged : Nat
  linkedFilesMerged : Nat
  supersedeEdgesRepointed : Nat
  supersedeSelfEdgesDropped : Nat
  deriving DecidableEq, Repr

/-- The values of some lists that are not in `held`, each once. -/
def newValues (held : List String) (l : List String) : List String :=
  l.foldl (fun acc x => if x ∈ held ∨ x ∈ acc then acc else acc ++ [x]) []

/-- A successor with a loser read as its survivor; none when that is the group's own. -/
def resolve (groups : List DuplicateGroup) (survivorId v : NoteId) : Option NoteId :=
  let target := (loserToSurvivor groups v).getD v
  if target = survivorId then none else some target

/-- The successors that a group's rows have outside it, the oldest row's first. -/
def externalValues (groups : List DuplicateGroup) (g : DuplicateGroup) : List NoteId :=
  g.members.filterMap fun n => n.supersededBy.bind (resolve groups g.survivor.id)

/-- What collapsing a group will write and count. -/
structure GroupPlan where
  newTags : List String
  newFiles : List String
  anyArchived : Bool
  resolvedSurvivorTarget : Option NoteId
  survivorSelfEdgeDropped : Bool

def planGroup (groups : List DuplicateGroup) (g : DuplicateGroup) : GroupPlan where
  newTags := newValues g.survivor.tags (g.losers.flatMap Note.tags)
  newFiles := newValues g.survivor.linkedFiles (g.losers.flatMap Note.linkedFiles)
  anyArchived := g.members.any fun n => n.status = "archived"
  resolvedSurvivorTarget := (externalValues groups g).head?
  survivorSelfEdgeDropped :=
    g.survivor.supersededBy.any fun v => (resolve groups g.survivor.id v).isNone

/-- What a dry run counts too. -/
def DedupeSummary.addGroup (groups : List DuplicateGroup) (summary : DedupeSummary)
    (g : DuplicateGroup) : DedupeSummary :=
  let plan := planGroup groups g
  { summary with
    rowsCollapsed := summary.rowsCollapsed + g.losers.length
    tagsMerged := summary.tagsMerged + plan.newTags.length
    linkedFilesMerged := summary.linkedFilesMerged + plan.newFiles.length
    supersedeSelfEdgesDropped :=
      summary.supersedeSelfEdgesDropped + if plan.survivorSelfEdgeDropped then 1 else 0 }

/-- The survivor's final `superseded_by`, written where it differs. -/
def settleSuccessor (s : Store) (survivor : Note) (target : Option NoteId) : Store :=
  match target with
  | some v =>
    if survivor.supersededBy = some v then s else s.setSupersededBy survivor.id v
  | none =>
    -- no external fallback in the group: cleared rather than left stale
    if survivor.supersededBy.isSome then s.clearSupersededBy survivor.id else s

/-- Writes what the plan of a group says. -/
def collapseGroupSurvivor (env : StoreEnv) (groups : List DuplicateGroup) (s : Store)
    (g : DuplicateGroup) : Store :=
  let plan := planGroup groups g
  let merged :=
    if plan.newTags = [] ∧ plan.newFiles = [] then s
    else s.attachTagsAndFiles env g.survivor.id plan.newTags plan.newFiles
  -- archived sticks
  let settled := if plan.anyArchived then (merged.archive g.survivor.id).2 else merged
  settleSuccessor settled g.survivor plan.resolvedSurvivorTarget

/-! ## Phase 2 -/

/-- The survivor that a row other than a survivor is turned to. -/
def repointed (groups : List DuplicateGroup) (n : Note) : Option NoteId :=
  if (survivorGroup? groups n.id).isSome then none
  else n.supersededBy.bind (loserToSurvivor groups)

/-- Only a reference from one group to another counts. -/
def DedupeSummary.addReference (groups : List DuplicateGroup) (summary : DedupeSummary)
    (n : Note) : DedupeSummary :=
  let sameGroup := (noteGroupOf groups n.id).isSome
    && noteGroupOf groups n.id = n.supersededBy.bind (noteGroupOf groups)
  if (repointed groups n).isSome && !sameGroup then
    { summary with supersedeEdgesRepointed := summary.supersedeEdgesRepointed + 1 }
  else summary

def rewriteReference (groups : List DuplicateGroup) (s : Store) (n : Note) : Store :=
  match repointed groups n with
  | some target => s.setSupersededBy n.id target
  | none => s

/-! ## The run -/

/-- Phase 3: deletes some rows one after the other. -/
def deleteNotes : Store → List Note → Option Store
  | s, [] => some s
  | s, n :: rest => (s.deleteNote n.id).bind fun s' => deleteNotes s' rest

/-- What a run counts, whether it writes or not. -/
def dedupeSummary (groups : List DuplicateGroup) (all : List Note) : DedupeSummary :=
  let start : DedupeSummary := ⟨all.length, groups.length, 0, 0, 0, 0, 0⟩
  if groups = [] then start
  else all.foldl (DedupeSummary.addReference groups)
    (groups.foldl (DedupeSummary.addGroup groups) start)

/-- The two phases that come before the deletions. -/
def rewriteAll (env : StoreEnv) (groups : List DuplicateGroup) (s : Store) : Store :=
  s.allNotesForDedup.foldl (rewriteReference groups)
    (groups.foldl (collapseGroupSurvivor env groups) s)

/-- Collapses the duplicate groups; `none` when a deletion is refused, and everything
    is rolled back. -/
def Store.dedupeEntityIds (env : StoreEnv) (s : Store) (dryRun : Bool) :
    Option (DedupeSummary × Store) :=
  let all := s.allNotesForDedup
  let groups := duplicateGroups env.sha all
  if groups = [] ∨ dryRun then some (dedupeSummary groups all, s)
  else
    (deleteNotes (rewriteAll env groups s) (groups.flatMap DuplicateGroup.losers)).map fun s' =>
      (dedupeSummary groups all, s')

/-! ## Losers and survivors -/

/-- A row that a run deletes. -/
def IsLoser (groups : List DuplicateGroup) (id : NoteId) : Prop :=
  ∃ g ∈ groups, ∃ n ∈ g.losers, n.id = id

instance (groups : List DuplicateGroup) (id : NoteId) : Decidable (IsLoser groups id) :=
  inferInstanceAs (Decidable (∃ g ∈ groups, ∃ n ∈ g.losers, n.id = id))

/-- The successor a row is left with, if it is left. -/
def keptSuccessor (groups : List DuplicateGroup) (n : Note) : Option NoteId :=
  match survivorGroup? groups n.id with
  | some g => (externalValues groups g).head?
  | none => n.supersededBy.map fun v => (loserToSurvivor groups v).getD v

theorem loserToSurvivor_isSome_iff {groups : List DuplicateGroup} {id : NoteId} :
    (loserToSurvivor groups id).isSome ↔ IsLoser groups id := by
  simp [loserToSurvivor, IsLoser]

theorem exists_of_loserToSurvivor {groups : List DuplicateGroup} {id t : NoteId}
    (h : loserToSurvivor groups id = some t) : ∃ g ∈ groups, g.survivor.id = t := by
  obtain ⟨g, hg, rfl⟩ := Option.map_eq_some_iff.mp h
  exact ⟨g, List.mem_of_find?_eq_some hg, rfl⟩

section Groups

variable {sha : String → String} {all : List Note}
variable {g : DuplicateGroup}

theorem members_of_mem_groups (hg : g ∈ duplicateGroups sha all) :
    ∃ entity, g.members = all.filter fun n => noteEntityId sha n = entity := by
  obtain ⟨entity, -, hgroup⟩ := List.mem_filterMap.mp hg
  refine ⟨entity, ?_⟩
  rw [duplicateGroup?] at hgroup
  split at hgroup
  case h_1 survivor loser losers heq =>
    obtain rfl := Option.some.inj hgroup
    exact heq.symm
  case h_2 => exact absurd hgroup (by simp)

theorem mem_of_mem_members (hg : g ∈ duplicateGroups sha all) {n : Note}
    (hn : n ∈ g.members) : n ∈ all := by
  obtain ⟨entity, hmem⟩ := members_of_mem_groups hg
  rw [hmem] at hn
  exact (List.mem_filter.mp hn).1

theorem group_eq_of_mem {g g' : DuplicateGroup} (hg : g ∈ duplicateGroups sha all)
    (hg' : g' ∈ duplicateGroups sha all) {n : Note} (hn : n ∈ g.members) (hn' : n ∈ g'.members) :
    g = g' := by
  obtain ⟨entity, hmem⟩ := members_of_mem_groups hg
  obtain ⟨entity', hmem'⟩ := members_of_mem_groups hg'
  have hof {m : List Note} {e : String} (hm : m = all.filter fun n => noteEntityId sha n = e)
      (hnm : n ∈ m) : noteEntityId sha n = e := by
    rw [hm] at hnm
    simpa using (List.mem_filter.mp hnm).2
  have hsame : g.members = g'.members := by
    rw [hmem, hmem', ← hof hmem hn, ← hof hmem' hn']
  obtain ⟨hsurvivor, hlosers⟩ := List.cons.inj hsame
  cases g
  cases g'
  simp_all

variable (hids : (all.map Note.id).Nodup)
include hids

/-- Rows of two groups with one id are one row, and the groups are one. -/
theorem group_eq_of_id {g g' : DuplicateGroup} (hg : g ∈ duplicateGroups sha all)
    (hg' : g' ∈ duplicateGroups sha all) {n n' : Note} (hn : n ∈ g.members) (hn' : n' ∈ g'.members)
    (hid : n.id = n'.id) : n = n' ∧ g = g' := by
  obtain rfl : n = n' := List.inj_on_of_nodup_map hids (mem_of_mem_members hg hn)
    (mem_of_mem_members hg' hn') hid
  exact ⟨rfl, group_eq_of_mem hg hg' hn hn'⟩

theorem not_isLoser_survivor (hg : g ∈ duplicateGroups sha all) :
    ¬ IsLoser (duplicateGroups sha all) g.survivor.id := by
  rintro ⟨g', hg', n, hn, hid⟩
  obtain ⟨rfl, rfl⟩ := group_eq_of_id hids hg' hg (List.mem_cons_of_mem _ hn) List.mem_cons_self hid
  obtain ⟨entity, hmem⟩ := members_of_mem_groups hg
  have hnodup : g'.members.Nodup := hmem ▸ hids.of_map.filter _
  exact (List.nodup_cons.mp hnodup).1 hn

theorem not_isLoser_getD (v : NoteId) :
    ¬ IsLoser (duplicateGroups sha all)
      ((loserToSurvivor (duplicateGroups sha all) v).getD v) := by
  cases h : loserToSurvivor (duplicateGroups sha all) v with
  | some t =>
    obtain ⟨g, hg, rfl⟩ := exists_of_loserToSurvivor h
    exact not_isLoser_survivor hids hg
  | none =>
    rw [← loserToSurvivor_isSome_iff, Option.getD_none, h]
    simp

theorem not_isLoser_keptSuccessor {n : Note} {t : NoteId}
    (h : keptSuccessor (duplicateGroups sha all) n = some t) :
    ¬ IsLoser (duplicateGroups sha all) t := by
  rw [keptSuccessor] at h
  split at h
  case h_1 g hg =>
    obtain ⟨m, -, hm⟩ := List.mem_filterMap.mp (List.mem_of_head? h)
    obtain ⟨v, -, hv⟩ := Option.bind_eq_some_iff.mp hm
    simp only [resolve] at hv
    split at hv
    · exact absurd hv (by simp)
    · exact Option.some.inj hv ▸ not_isLoser_getD hids v
  case h_2 =>
    obtain ⟨v, -, rfl⟩ := Option.map_eq_some_iff.mp h
    exact not_isLoser_getD hids v

end Groups

/-! ## What the two rewriting phases do -/

/-- The rows are rewritten in place and none is made active again; `column` is the
    successor each then has. -/
structure Rewrites (column : Note → Option NoteId) (s s' : Store) : Prop where
  edges_eq : s'.edges = s.edges
  ids_eq : s'.rows.map Note.id = s.rows.map Note.id
  rows : ∀ n' ∈ s'.rows, ∃ n ∈ s.rows, n'.id = n.id
    ∧ (n.status ≠ "active" → n'.status ≠ "active") ∧ n'.supersededBy = column n

/-- A survivor's row once its group is collapsed into it. -/
def collapsedRow (env : StoreEnv) (groups : List DuplicateGroup) (g : DuplicateGroup) (n : Note) :
    Note :=
  let plan := planGroup groups g
  let merges := plan.newTags ≠ [] ∨ plan.newFiles ≠ []
  { n with
    tags := if merges then unionInto n.tags (plan.newTags.filterMap env.normalizeTag) else n.tags
    linkedFiles :=
      if merges then unionInto n.linkedFiles (plan.newFiles.filterMap env.linkPath)
      else n.linkedFiles
    status := if plan.anyArchived ∧ n.status = "active" then "archived" else n.status
    supersededBy := plan.resolvedSurvivorTarget }

/-- What phase 2 makes of the row of an entry, from the column the entry had before. -/
def turnedRow (groups : List DuplicateGroup) (n row : Note) : Note :=
  match repointed groups n with
  | some target => { row with supersededBy := some target }
  | none => row

/-- What both phases make of a row. -/
def rewrittenRow (env : StoreEnv) (groups : List DuplicateGroup) (n : Note) : Note :=
  match survivorGroup? groups n.id with
  | some g => collapsedRow env groups g n
  | none => { n with supersededBy := n.supersededBy.map fun v => (loserToSurvivor groups v).getD v }

section Phases

variable {env : StoreEnv} {groups : List DuplicateGroup}

@[simp] theorem collapsedRow_id (g : DuplicateGroup) (n : Note) :
    (collapsedRow env groups g n).id = n.id := rfl

@[simp] theorem turnedRow_id (n row : Note) : (turnedRow groups n row).id = row.id := by
  rw [turnedRow]
  cases repointed groups n <;> rfl

@[simp] theorem rewrittenRow_id (n : Note) : (rewrittenRow env groups n).id = n.id := by
  rw [rewrittenRow]
  cases survivorGroup? groups n.id <;> rfl

theorem rewrittenRow_supersededBy (n : Note) :
    (rewrittenRow env groups n).supersededBy = keptSuccessor groups n := by
  rw [rewrittenRow, keptSuccessor]
  cases survivorGroup? groups n.id <;> rfl

theorem rewrittenRow_status_ne {n : Note} (h : n.status ≠ "active") :
    (rewrittenRow env groups n).status ≠ "active" := by
  rw [rewrittenRow]
  cases survivorGroup? groups n.id with
  | some g => simp [collapsedRow, h]
  | none => exact h

theorem settleSuccessor_rows {s : Store} {survivor : Note} {target : Option NoteId}
    (hcolumn : ∀ n ∈ s.rows, n.id = survivor.id → n.supersededBy = survivor.supersededBy) :
    (settleSuccessor s survivor target).rows
      = s.rows.map fun n => if n.id = survivor.id then { n with supersededBy := target } else n := by
  -- a row that holds the target already is written back as it is
  have hkept (hown : survivor.supersededBy = target) : s.rows
      = s.rows.map fun n => if n.id = survivor.id then { n with supersededBy := target } else n := by
    refine ((List.map_congr_left fun n hn => ?_).trans (List.map_id _)).symm
    split
    case isTrue hid => rw [← hown, ← hcolumn n hn hid, id]
    case isFalse => rfl
  cases target with
  | some v =>
    show Store.rows (if survivor.supersededBy = some v then s else s.setSupersededBy survivor.id v) = _
    split
    case isTrue hown => exact hkept hown
    case isFalse => simp [Store.setSupersededBy, linkEdit]
  | none =>
    show Store.rows (if survivor.supersededBy.isSome then s.clearSupersededBy survivor.id else s) = _
    split
    case isTrue => simp [Store.clearSupersededBy, unlinkEdit]
    case isFalse hown => exact hkept (by simpa using hown)

theorem settleSuccessor_edges (s : Store) (survivor : Note) (target : Option NoteId) :
    (settleSuccessor s survivor target).edges = s.edges := by
  cases target with
  | some v =>
    show Store.edges (if survivor.supersededBy = some v then s else s.setSupersededBy survivor.id v) = _
    split <;> rfl
  | none =>
    show Store.edges (if survivor.supersededBy.isSome then s.clearSupersededBy survivor.id else s) = _
    split <;> rfl

theorem collapseGroupSurvivor_rows {s : Store} {g : DuplicateGroup}
    (hcolumn : ∀ n ∈ s.rows, n.id = g.survivor.id → n.supersededBy = g.survivor.supersededBy) :
    (collapseGroupSurvivor env groups s g).rows
      = s.rows.map fun n => if n.id = g.survivor.id then collapsedRow env groups g n else n := by
  -- three writes to one row: tags and files, then the status, then the successor
  obtain ⟨merged, hmerged⟩ : ∃ merged : Store, merged
      = if (planGroup groups g).newTags = [] ∧ (planGroup groups g).newFiles = [] then s
        else s.attachTagsAndFiles env g.survivor.id (planGroup groups g).newTags
          (planGroup groups g).newFiles := ⟨_, rfl⟩
  have hmergedRows : merged.rows = s.rows.map fun n => if n.id = g.survivor.id then
      { n with
        tags := (collapsedRow env groups g n).tags
        linkedFiles := (collapsedRow env groups g n).linkedFiles } else n := by
    rw [hmerged]
    split
    case isTrue hnone =>
      refine ((List.map_congr_left fun n _ => ?_).trans (List.map_id _)).symm
      split
      · simp [collapsedRow, hnone]
      · rfl
    case isFalse hsome =>
      have hmerges : (planGroup groups g).newTags ≠ [] ∨ (planGroup groups g).newFiles ≠ [] := by
        tauto
      simp [Store.attachTagsAndFiles, attachEdit, collapsedRow, hmerges]
  obtain ⟨settled, hsettled⟩ : ∃ settled : Store, settled
      = if (planGroup groups g).anyArchived then (merged.archive g.survivor.id).2 else merged :=
    ⟨_, rfl⟩
  have hsettledRows : settled.rows = s.rows.map fun n => if n.id = g.survivor.id then
      { collapsedRow env groups g n with supersededBy := n.supersededBy } else n := by
    rw [hsettled]
    cases harchived : (planGroup groups g).anyArchived with
    | true =>
      simp only [if_true, Store.archive, Store.edit_rows, hmergedRows, List.map_map]
      refine List.map_congr_left fun n _ => ?_
      by_cases hid : n.id = g.survivor.id
      · by_cases hactive : n.status = "active" <;>
          simp [hid, hactive, isActiveRow, archiveEdit, collapsedRow, harchived]
      · simp [hid, isActiveRow]
    | false =>
      rw [if_neg (by simp), hmergedRows]
      refine List.map_congr_left fun n _ => ?_
      by_cases hid : n.id = g.survivor.id <;> simp [hid, collapsedRow, harchived]
  have hsettle : (collapseGroupSurvivor env groups s g).rows
      = (settleSuccessor settled g.survivor (planGroup groups g).resolvedSurvivorTarget).rows := by
    rw [hsettled, hmerged]
    rfl
  rw [hsettle, settleSuccessor_rows, hsettledRows, List.map_map]
  · refine List.map_congr_left fun n _ => ?_
    by_cases hid : n.id = g.survivor.id <;> simp [hid, collapsedRow]
  · intro n hn hid
    rw [hsettledRows] at hn
    obtain ⟨m, hm, rfl⟩ := List.mem_map.mp hn
    by_cases hmid : m.id = g.survivor.id
    · rw [if_pos hmid]
      exact hcolumn m hm hmid
    · rw [if_neg hmid] at hid
      exact absurd hid hmid

theorem collapseGroupSurvivor_edges (s : Store) (g : DuplicateGroup) :
    (collapseGroupSurvivor env groups s g).edges = s.edges := by
  rw [collapseGroupSurvivor, settleSuccessor_edges]
  split <;> split <;> rfl

/-- Phase 1 collapses every group into its survivor. -/
theorem phase1_rows {s : Store} {l : List DuplicateGroup}
    (hsame : l.Pairwise fun g g' => g.survivor.id ≠ g'.survivor.id)
    (hcolumn : ∀ g ∈ l, ∀ n ∈ s.rows, n.id = g.survivor.id →
      n.supersededBy = g.survivor.supersededBy) :
    (l.foldl (collapseGroupSurvivor env groups) s).rows
        = s.rows.map (fun n => match survivorGroup? l n.id with
          | some g => collapsedRow env groups g n
          | none => n)
      ∧ (l.foldl (collapseGroupSurvivor env groups) s).edges = s.edges := by
  -- over the groups; no two have one survivor, so a row is collapsed once
  induction l generalizing s with
  | nil => exact ⟨by simp [survivorGroup?], rfl⟩
  | cons g l ih =>
    obtain ⟨hother, hsame⟩ := List.pairwise_cons.mp hsame
    have hrows := @collapseGroupSurvivor_rows env groups s g (hcolumn g List.mem_cons_self)
    obtain ⟨ihrows, ihedges⟩ := @ih (collapseGroupSurvivor env groups s g) hsame (by
      intro g' hg' n hn hid
      rw [hrows] at hn
      obtain ⟨m, hm, rfl⟩ := List.mem_map.mp hn
      by_cases hmid : m.id = g.survivor.id
      · rw [if_pos hmid, collapsedRow_id, hmid] at hid
        exact absurd hid (hother g' hg')
      · rw [if_neg hmid] at hid ⊢
        exact hcolumn g' (List.mem_cons_of_mem _ hg') m hm hid)
    refine ⟨?_, ihedges.trans (collapseGroupSurvivor_edges s g)⟩
    rw [List.foldl_cons, ihrows, hrows, List.map_map]
    refine List.map_congr_left fun n _ => ?_
    rw [Function.comp_apply]
    by_cases hid : n.id = g.survivor.id
    · have hlater : survivorGroup? l n.id = none := by
        rw [survivorGroup?, List.find?_eq_none]
        intro g' hg'
        rw [hid]
        simpa using (hother g' hg').symm
      have hhere : survivorGroup? (g :: l) n.id = some g := by simp [survivorGroup?, hid]
      rw [if_pos hid, collapsedRow_id, hlater, hhere]
    · have hlater : survivorGroup? (g :: l) n.id = survivorGroup? l n.id := by
        simp [survivorGroup?, Ne.symm hid]
      rw [if_neg hid, hlater]

/-- Phase 2 turns the rows it is given to survivors. -/
theorem phase2_rows {s s' : Store} {f : Note → Note} (hf : ∀ n, (f n).id = n.id)
    (hrows : s'.rows = s.rows.map f) {l : List Note} (hmem : ∀ n ∈ l, n ∈ s.rows) :
    (l.foldl (rewriteReference groups) s').rows
        = s.rows.map (fun n => if n ∈ l then turnedRow groups n (f n) else f n)
      ∧ (l.foldl (rewriteReference groups) s').edges = s'.edges := by
  induction l generalizing s' f with
  | nil => exact ⟨by simp [hrows], rfl⟩
  | cons m l ih =>
    have hstep : (rewriteReference groups s' m).rows
          = s.rows.map (fun n => if n = m then turnedRow groups m (f n) else f n)
        ∧ (rewriteReference groups s' m).edges = s'.edges := by
      have hid {n : Note} (hn : n ∈ s.rows) : (f n).id = m.id ↔ n = m := by
        rw [hf]
        exact ⟨fun h => List.inj_on_of_nodup_map s.uuidUnique hn (hmem m List.mem_cons_self) h,
          fun h => h ▸ rfl⟩
      rw [rewriteReference]
      cases hm : repointed groups m with
      | none =>
        refine ⟨?_, rfl⟩
        rw [hrows]
        exact List.map_congr_left fun n _ => by simp [turnedRow, hm]
      | some target =>
        refine ⟨?_, rfl⟩
        simp only [Store.setSupersededBy, Store.edit_rows, hrows, List.map_map]
        refine List.map_congr_left fun n hn => ?_
        have hfn := hid hn
        by_cases hnm : n = m
        · subst hnm
          simp [hfn, turnedRow, hm, linkEdit]
        · simp [hfn, hnm]
    obtain ⟨hrest, hedges⟩ := @ih (rewriteReference groups s' m)
      (fun n => if n = m then turnedRow groups m (f n) else f n)
      (fun n => by by_cases hnm : n = m <;> simp [hnm, hf]) hstep.1
      (fun n hn => hmem n (List.mem_cons_of_mem _ hn))
    refine ⟨hrest.trans (List.map_congr_left fun n _ => ?_), hedges.trans hstep.2⟩
    by_cases hnm : n = m
    · subst hnm
      -- turning a row twice is turning it once
      by_cases hnl : n ∈ l <;> cases hr : repointed groups n <;> simp [hnl, turnedRow, hr]
    · by_cases hnl : n ∈ l <;> simp [hnl, hnm]

end Phases

theorem nodup_eraseDups {α : Type} [DecidableEq α] : (l : List α) → l.eraseDups.Nodup
  | [] => List.nodup_nil
  | a :: l => by
    rw [List.eraseDups_cons, List.nodup_cons, List.mem_eraseDups]
    exact ⟨by simp, nodup_eraseDups _⟩
termination_by l => l.length
decreasing_by
  have := List.length_filter_le (fun b => !b == a) l
  rw [List.length_cons]
  omega

theorem duplicateGroups_pairwise {sha : String → String} {all : List Note}
    (hids : (all.map Note.id).Nodup) :
    (duplicateGroups sha all).Pairwise fun g g' => g.survivor.id ≠ g'.survivor.id := by
  have hentity {entity : String} {g : DuplicateGroup} (h : duplicateGroup? sha all entity = some g) :
      noteEntityId sha g.survivor = entity ∧ g.survivor ∈ all := by
    rw [duplicateGroup?] at h
    split at h
    case h_1 survivor loser losers heq =>
      obtain rfl := Option.some.inj h
      have hmem : survivor ∈ all.filter fun n => noteEntityId sha n = entity := by
        rw [heq]
        exact List.mem_cons_self
      exact ⟨by simpa using (List.mem_filter.mp hmem).2, (List.mem_filter.mp hmem).1⟩
    case h_2 => exact absurd h (by simp)
  rw [duplicateGroups]
  refine List.Pairwise.filterMap _ (R := fun entity entity' => entity ≠ entity') ?_
    (nodup_eraseDups _)
  intro entity entity' hne g hg g' hg' hid
  obtain ⟨he, hmem⟩ := hentity hg
  obtain ⟨he', hmem'⟩ := hentity hg'
  have hsurvivor := List.inj_on_of_nodup_map hids hmem hmem' hid
  exact hne (he.symm.trans ((congrArg _ hsurvivor).trans he'))

theorem rewriteAll_rows (env : StoreEnv) (s : Store) :
    (rewriteAll env (duplicateGroups env.sha s.allNotesForDedup) s).rows
        = s.rows.map (rewrittenRow env (duplicateGroups env.sha s.allNotesForDedup))
      ∧ (rewriteAll env (duplicateGroups env.sha s.allNotesForDedup) s).edges = s.edges := by
  have hall {n : Note} : n ∈ s.allNotesForDedup ↔ n ∈ s.rows := mem_sortBy _
  have hids : (s.allNotesForDedup.map Note.id).Nodup :=
    ((sortBy_perm _ _).map _).nodup_iff.mpr s.uuidUnique
  have hpairwise := @duplicateGroups_pairwise env.sha _ hids
  have hsurvivor {g : DuplicateGroup} (hg : g ∈ duplicateGroups env.sha s.allNotesForDedup) :
      g.survivor ∈ s.rows := hall.mp (mem_of_mem_members hg List.mem_cons_self)
  generalize duplicateGroups env.sha s.allNotesForDedup = groups at *
  obtain ⟨hrows, hedges⟩ := @phase1_rows env groups s groups hpairwise fun g hg n hn hid => by
    rw [List.inj_on_of_nodup_map s.uuidUnique hn (hsurvivor hg) hid]
  -- then the successors that were losers turn to their survivors
  obtain ⟨hrows', hedges'⟩ := @phase2_rows groups s _ _ (fun n => by
    cases survivorGroup? groups n.id <;> rfl) hrows s.allNotesForDedup fun n hn => hall.mp hn
  refine ⟨hrows'.trans (List.map_congr_left fun n hn => ?_), hedges'.trans hedges⟩
  rw [if_pos (hall.mpr hn), rewrittenRow, turnedRow, repointed]
  cases survivorGroup? groups n.id with
  | some g => rfl
  | none =>
    cases hv : n.supersededBy with
    | none =>
      show n = { n with supersededBy := none }
      rw [← hv]
    | some v =>
      cases hl : loserToSurvivor groups v with
      | none =>
        simp only [Option.isSome_none, Bool.false_eq_true, if_false, Option.bind_some, Option.map_some,
          hl, Option.getD_none]
        rw [← hv]
      | some t => simp [hl]

theorem rewrites_rewriteAll (env : StoreEnv) (s : Store) :
    Rewrites (keptSuccessor (duplicateGroups env.sha s.allNotesForDedup)) s
      (rewriteAll env (duplicateGroups env.sha s.allNotesForDedup) s) := by
  obtain ⟨hrows, hedges⟩ := rewriteAll_rows env s
  refine ⟨hedges, ?_, fun n' hn' => ?_⟩
  · rw [hrows, List.map_map]
    exact List.map_congr_left fun n _ => rewrittenRow_id n
  · rw [hrows] at hn'
    obtain ⟨n, hn, rfl⟩ := List.mem_map.mp hn'
    exact ⟨n, hn, rewrittenRow_id n, rewrittenRow_status_ne, rewrittenRow_supersededBy n⟩

/-! ## The deletions -/

/-- Rows that nothing is superseded by can be deleted, whatever the order. -/
theorem deleteNotes_eq_some {s : Store} {l : List Note}
    (h : ∀ n ∈ s.rows, ∀ m ∈ l, n.supersededBy ≠ some m.id) :
    ∃ s', deleteNotes s l = some s'
      ∧ s'.rows = s.rows.filter (fun n => ∀ m ∈ l, n.id ≠ m.id)
      ∧ s'.edges = s.edges.filter fun e => ∀ m ∈ l, e.fromId ≠ m.id ∧ e.toId ≠ m.id := by
  induction l generalizing s with
  | nil => exact ⟨s, rfl, by simp, by simp⟩
  | cons m l ih =>
    have hfree : (s.rows.any fun n => n.id ≠ m.id && n.supersededBy = some m.id) = false := by
      rw [List.any_eq_false]
      intro n hn
      simp [h n hn m List.mem_cons_self]
    obtain ⟨s₁, hdelete, hrows, hedges⟩ : ∃ s₁, s.deleteNote m.id = some s₁
        ∧ s₁.rows = s.rows.filter (fun n => n.id ≠ m.id)
        ∧ s₁.edges = s.edges.filter fun e => e.fromId ≠ m.id ∧ e.toId ≠ m.id := by
      rw [Store.deleteNote, hfree]
      exact ⟨_, rfl, rfl, rfl⟩
    obtain ⟨s', hs', hrows', hedges'⟩ := @ih s₁ (by
      intro n hn m' hm'
      rw [hrows] at hn
      exact h n (List.mem_of_mem_filter hn) m' (List.mem_cons_of_mem _ hm'))
    refine ⟨s', by rw [deleteNotes, hdelete, Option.bind_some, hs'], ?_, ?_⟩
    · rw [hrows', hrows, List.filter_filter]
      refine List.filter_congr fun n _ => Bool.eq_iff_iff.mpr ?_
      simp only [Bool.and_eq_true, decide_eq_true_eq, List.forall_mem_cons, and_comm]
    · rw [hedges', hedges, List.filter_filter]
      refine List.filter_congr fun e _ => Bool.eq_iff_iff.mpr ?_
      simp only [Bool.and_eq_true, decide_eq_true_eq, List.forall_mem_cons]
      tauto

/-! ## A run -/

/-- What a run that writes leaves: the rows that are no loser, each superseded by
    `keptSuccessor` and none made active again, and the edges between them. -/
structure Dedupes (groups : List DuplicateGroup) (s s' : Store) : Prop where
  edges_iff : ∀ e, e ∈ s'.edges
    ↔ e ∈ s.edges ∧ ¬ IsLoser groups e.fromId ∧ ¬ IsLoser groups e.toId
  ids_iff : ∀ id, (∃ n' ∈ s'.rows, n'.id = id) ↔ (∃ n ∈ s.rows, n.id = id) ∧ ¬ IsLoser groups id
  rows : ∀ n' ∈ s'.rows, ∃ n ∈ s.rows, n'.id = n.id
    ∧ (n.status ≠ "active" → n'.status ≠ "active") ∧ n'.supersededBy = keptSuccessor groups n

theorem isLoser_iff {groups : List DuplicateGroup} {id : NoteId} :
    IsLoser groups id ↔ ∃ m ∈ groups.flatMap DuplicateGroup.losers, m.id = id := by
  simp only [IsLoser, List.mem_flatMap]
  grind

/-- A run goes through: no deletion is refused, and the rows that are left are those that
    are no loser, rewritten. -/
theorem Store.dedupeEntityIds_rows (env : StoreEnv) (s : Store) :
    ∃ s', s.dedupeEntityIds env false = some
        (dedupeSummary (duplicateGroups env.sha s.allNotesForDedup) s.allNotesForDedup, s')
      ∧ s'.rows = (s.rows.map (rewrittenRow env (duplicateGroups env.sha s.allNotesForDedup))).filter
        (fun n => ¬ IsLoser (duplicateGroups env.sha s.allNotesForDedup) n.id)
      ∧ s'.edges = s.edges.filter fun e =>
        ¬ IsLoser (duplicateGroups env.sha s.allNotesForDedup) e.fromId
          ∧ ¬ IsLoser (duplicateGroups env.sha s.allNotesForDedup) e.toId := by
  have hids : (s.allNotesForDedup.map Note.id).Nodup :=
    ((sortBy_perm _ _).map _).nodup_iff.mpr s.uuidUnique
  have hkept {n : Note} {t : NoteId} := @not_isLoser_keptSuccessor env.sha _ hids n t
  obtain ⟨hrows, hedges⟩ := rewriteAll_rows env s
  simp only [Store.dedupeEntityIds]
  generalize duplicateGroups env.sha s.allNotesForDedup = groups at hkept hrows hedges ⊢
  by_cases hnone : groups = []
  · subst hnone
    have hsame (n : Note) : rewrittenRow env [] n = n := by
      show { n with supersededBy := n.supersededBy.map id } = n
      rw [Option.map_id, id]
    refine ⟨s, by simp, ?_, by simp [IsLoser]⟩
    rw [show rewrittenRow env [] = id from funext hsame, List.map_id]
    simp [IsLoser]
  -- no row that stays names a loser any more, so nothing holds the deletion up
  · obtain ⟨s', hdelete, hrows', hedges'⟩ := @deleteNotes_eq_some (rewriteAll env groups s)
      (groups.flatMap DuplicateGroup.losers) (by
        intro n' hn' m hm hcolumn
        rw [hrows] at hn'
        obtain ⟨n, -, rfl⟩ := List.mem_map.mp hn'
        rw [rewrittenRow_supersededBy] at hcolumn
        exact hkept hcolumn (isLoser_iff.mpr ⟨m, hm, rfl⟩))
    have hfree (id : NoteId) : (∀ m ∈ groups.flatMap DuplicateGroup.losers, id ≠ m.id)
        ↔ ¬ IsLoser groups id := by
      rw [isLoser_iff]
      grind
    refine ⟨s', by simp [hnone, hdelete], ?_, ?_⟩
    · rw [hrows', hrows]
      exact List.filter_congr fun n _ => decide_eq_decide.mpr (hfree n.id)
    · rw [hedges', hedges]
      refine List.filter_congr fun e _ => decide_eq_decide.mpr ?_
      rw [← hfree, ← hfree]
      grind

theorem Store.dedupeEntityIds_eq (env : StoreEnv) (s : Store) :
    ∃ s', s.dedupeEntityIds env false = some
        (dedupeSummary (duplicateGroups env.sha s.allNotesForDedup) s.allNotesForDedup, s')
      ∧ Dedupes (duplicateGroups env.sha s.allNotesForDedup) s s' := by
  obtain ⟨s', hs', hrows, hedges⟩ := s.dedupeEntityIds_rows env
  have hrewrites := rewrites_rewriteAll env s
  rw [← (rewriteAll_rows env s).1] at hrows
  refine ⟨s', hs', fun e => ?_, fun id => ?_, fun n' hn' => ?_⟩
  · rw [hedges, List.mem_filter, decide_eq_true_eq]
  · have hid : (∃ n' ∈ (rewriteAll env (duplicateGroups env.sha s.allNotesForDedup) s).rows,
        n'.id = id) ↔ ∃ n ∈ s.rows, n.id = id := by
      simp only [← List.mem_map, hrewrites.ids_eq]
    rw [← hid, hrows]
    simp only [List.mem_filter, decide_eq_true_eq]
    grind
  · rw [hrows] at hn'
    exact hrewrites.rows n' (List.mem_of_mem_filter hn')

end Memory
end Inkentry
