/-
  Inkentry.GitNotes.Fold

  The read side of the git-notes carrier.  The notes ref is an append-only log:
  every machine that records an entry, or updates one, appends a line with the
  entry's identity and its own id and timestamp.  `foldRecords` collapses the
  lines of one entity into one record; `anchorCommits` names the commit each
  entity is attached to.

  Definitions follow `git_notes/fold.rs` function by function.  The hash map of
  groups is a function from keys, beside the list of keys in the order they
  were first met.
-/

import Mathlib.Algebra.Order.Group.Int
import Mathlib.Order.WithBot
import Inkentry.Lib.FirstMin
import Inkentry.Lib.SortedSet
import Inkentry.Record

namespace Inkentry
namespace GitNotes

open FirstMin SortedSet

/-! ## The base of a group -/

/-- What copies compete for the base by. -/
structure BaseKey where
  createdAt : Int
  id : Int
  sourceRef : Option String
  remoteId : Option String
  supersededBy : Option Int
  deriving DecidableEq

/-- Keys compare field by field; an absent value sorts before a present one. -/
def BaseKey.tuple (k : BaseKey) :
    Int ×ₗ Int ×ₗ WithBot String ×ₗ WithBot String ×ₗ WithBot Int :=
  toLex (k.createdAt, toLex (k.id, toLex ((k.sourceRef : WithBot String),
    toLex ((k.remoteId : WithBot String), (k.supersededBy : WithBot Int)))))

theorem BaseKey.tuple_injective : Function.Injective BaseKey.tuple := by
  rintro ⟨c, i, r, m, s⟩ ⟨c', i', r', m', s'⟩ h
  have htuple : (c, i, r, m, s) = (c', i', r', m', s') := h
  simp only [Prod.mk.injEq] at htuple
  simp only [htuple]

instance : LinearOrder BaseKey := LinearOrder.lift' BaseKey.tuple BaseKey.tuple_injective

/-- Earliest recording wins; the trailing fields only break a tie. -/
def baseKey (r : NoteRecord) : BaseKey :=
  ⟨r.createdAt, r.id, r.sourceRef, r.remoteId, r.supersededBy⟩

theorem baseKey_eq_iff {a b : NoteRecord} :
    baseKey a = baseKey b ↔ a.createdAt = b.createdAt ∧ a.id = b.id ∧ a.sourceRef = b.sourceRef
      ∧ a.remoteId = b.remoteId ∧ a.supersededBy = b.supersededBy := by
  simp only [baseKey, BaseKey.mk.injEq]

theorem baseKey_lt_of_clock {a b : NoteRecord}
    (h : a.createdAt < b.createdAt ∨ a.createdAt = b.createdAt ∧ a.id < b.id) :
    baseKey a < baseKey b := by
  rcases h with hcreated | ⟨hcreated, hid⟩
  · exact Prod.Lex.toLex_lt_toLex.mpr (.inl hcreated)
  · exact Prod.Lex.toLex_lt_toLex.mpr (.inr ⟨hcreated, Prod.Lex.toLex_lt_toLex.mpr (.inl hid)⟩)

/-- Index of the copy every base-sourced field is taken from. -/
def baseIndex (group : List NoteRecord) : Option Nat := firstMinIdx baseKey group

/-! ## Merging the other copies in -/

/-- Keeps the smallest present value; absence is the identity. -/
def minSome {α : Type*} [Min α] : Option α → Option α → Option α
  | some a, some b => some (min a b)
  | some a, none => some a
  | none, b => b

/-- One copy merged into the base: archival is monotonic, tags, files and edges
    are add-only, the validity window keeps its earliest bounds. -/
def mergeInto (base other : NoteRecord) : NoteRecord :=
  { base with
    status := if other.status = "archived" then "archived" else base.status
    schemaVersion := max base.schemaVersion other.schemaVersion
    validAt := minSome base.validAt other.validAt
    invalidAt := minSome base.invalidAt other.invalidAt
    tags := unionInto base.tags other.tags
    linkedFiles := unionInto base.linkedFiles other.linkedFiles
    edges := unionInto base.edges other.edges }

/-- What copies compete for the successor by. -/
structure SuccessorKey where
  createdAt : Int
  base : BaseKey
  value : Option String
  deriving DecidableEq

/-- The latest copy first, then `baseKey`, then the value itself. -/
def SuccessorKey.tuple (k : SuccessorKey) : Int ×ₗ BaseKey ×ₗ WithBot String :=
  toLex (-k.createdAt, toLex (k.base, (k.value : WithBot String)))

theorem SuccessorKey.tuple_injective : Function.Injective SuccessorKey.tuple := by
  rintro ⟨c, b, v⟩ ⟨c', b', v'⟩ h
  have htuple : (-c, b, v) = (-c', b', v') := h
  simp only [Prod.mk.injEq, neg_inj] at htuple
  simp only [htuple]

instance : LinearOrder SuccessorKey :=
  LinearOrder.lift' SuccessorKey.tuple SuccessorKey.tuple_injective

def successorKey (r : NoteRecord) : SuccessorKey :=
  ⟨r.createdAt, baseKey r, r.supersededByEntityId⟩

/-- The successor a group names: that of its latest copy naming one. -/
def resolveSupersededByEntityId (group : List NoteRecord) : Option String :=
  ((group.filter fun r => r.supersededByEntityId.isSome).argmin successorKey).bind
    fun r => r.supersededByEntityId

/-- Folds one entity's copies onto its base copy.  `none` stands for the panic
    on an empty group, which `foldRecords` never makes. -/
def foldGroup (group : List NoteRecord) : Option NoteRecord :=
  (baseIndex group).bind fun i =>
    (swapRemove group i).map fun (base, rest) =>
      { rest.foldl mergeInto base with
        supersededByEntityId := resolveSupersededByEntityId group }

/-! ## Grouping -/

/-- Entity keys in first-encounter order, and the records met under each. -/
structure Groups where
  order : List String
  groups : String → Option (List NoteRecord)

/-- Files one record under its entity. -/
def Groups.insert (sha : String → String) (g : Groups) (r : NoteRecord) : Groups :=
  match g.groups (r.resolveEntityId sha) with
  | none =>
    { order := g.order ++ [r.resolveEntityId sha]
      groups := Function.update g.groups (r.resolveEntityId sha) (some [r]) }
  | some rs =>
    { g with groups := Function.update g.groups (r.resolveEntityId sha) (some (rs ++ [r])) }

/-- The groups of a record list. -/
def groupRecords (sha : String → String) (records : List NoteRecord) : Groups :=
  records.foldl (Groups.insert sha) ⟨[], fun _ => none⟩

/-- Collapses each entity's copies into one record, in first-encounter order. -/
def foldRecords (sha : String → String) (records : List NoteRecord) : List NoteRecord :=
  (groupRecords sha records).order.filterMap fun key =>
    ((groupRecords sha records).groups key).bind foldGroup

/-! ## Anchors -/

/-- One more line into the table of best copies: a strictly smaller base key
    displaces the copy held so far. -/
def anchorInsert (sha : String → String) (best : String → Option (String × NoteRecord))
    (line : String × NoteRecord) : String → Option (String × NoteRecord) :=
  match best (line.2.resolveEntityId sha) with
  | none => Function.update best (line.2.resolveEntityId sha) (some line)
  | some held =>
    if baseKey line.2 < baseKey held.2 then
      Function.update best (line.2.resolveEntityId sha) (some line)
    else best

/-- Maps each entity to the commit carrying its base copy. -/
def anchorCommits (sha : String → String) (records : List (String × NoteRecord))
    (entity : String) : Option String :=
  (records.foldl (anchorInsert sha) (fun _ => none) entity).map Prod.fst

/-! ## What grouping computes -/

variable {records : List NoteRecord}

/-- The records of one entity, in log order. -/
def groupOf (sha : String → String) (records : List NoteRecord) (key : String) :
    List NoteRecord :=
  records.filter fun r => r.resolveEntityId sha = key

theorem mem_groupOf {sha : String → String} {key : String} {r : NoteRecord} :
    r ∈ groupOf sha records key ↔ r ∈ records ∧ r.resolveEntityId sha = key := by
  simp [groupOf]

theorem groupOf_concat (sha : String → String) (records : List NoteRecord) (r : NoteRecord)
    (key : String) :
    groupOf sha (records ++ [r]) key
      = groupOf sha records key ++ if r.resolveEntityId sha = key then [r] else [] := by
  by_cases h : r.resolveEntityId sha = key <;> simp [groupOf, h]

theorem groupRecords_concat (sha : String → String) (records : List NoteRecord)
    (r : NoteRecord) :
    groupRecords sha (records ++ [r]) = (groupRecords sha records).insert sha r := by
  simp [groupRecords]

/-- The table holds exactly the non-empty groups. -/
theorem groupRecords_groups (sha : String → String) (records : List NoteRecord)
    (key : String) :
    (groupRecords sha records).groups key
      = if groupOf sha records key = [] then none else some (groupOf sha records key) := by
  induction records using List.reverseRecOn with
  | nil => simp [groupRecords, groupOf]
  | append_singleton records r ih =>
    rw [groupRecords_concat, groupOf_concat]
    unfold Groups.insert
    by_cases hkey : r.resolveEntityId sha = key
    · subst hkey
      rw [ih]
      by_cases hg : groupOf sha records (r.resolveEntityId sha) = []
      · simp [hg]
      · simp [hg]
    · have hne : key ≠ r.resolveEntityId sha := fun h => hkey h.symm
      split
      · simp [Function.update_of_ne hne, ih, hkey]
      · simp [Function.update_of_ne hne, ih, hkey]

theorem groupRecords_order (sha : String → String) (records : List NoteRecord) :
    (groupRecords sha records).order.Nodup
      ∧ ∀ key, key ∈ (groupRecords sha records).order ↔ groupOf sha records key ≠ [] := by
  induction records using List.reverseRecOn with
  | nil => simp [groupRecords, groupOf]
  | append_singleton records r ih =>
    obtain ⟨hnd, hmem⟩ := ih
    rw [groupRecords_concat]
    have hgroups := groupRecords_groups sha records (r.resolveEntityId sha)
    unfold Groups.insert
    -- a key is new exactly when its group was empty
    by_cases hg : groupOf sha records (r.resolveEntityId sha) = []
    · rw [if_pos hg] at hgroups
      have hnotin : r.resolveEntityId sha ∉ (groupRecords sha records).order :=
        fun h => (hmem _).mp h hg
      rw [hgroups]
      refine ⟨List.nodup_append.mpr ⟨hnd, by simp, ?_⟩, ?_⟩
      · intro a ha b hb
        rw [List.mem_singleton] at hb
        rintro rfl
        exact hnotin (hb ▸ ha)
      · intro key
        rw [List.mem_append, List.mem_singleton, hmem, groupOf_concat]
        by_cases hkey : r.resolveEntityId sha = key
        · simp [hkey]
        · have hkey' : key ≠ r.resolveEntityId sha := fun h => hkey h.symm
          simp [hkey, hkey']
    · rw [if_neg hg] at hgroups
      rw [hgroups]
      refine ⟨hnd, fun key => ?_⟩
      rw [hmem, groupOf_concat]
      by_cases hkey : r.resolveEntityId sha = key
      · subst hkey
        simp [hg]
      · simp [hkey]

/-- Records of pairwise different entities are listed in their own order. -/
theorem groupRecords_order_of_nodup (sha : String → String)
    (h : (records.map (NoteRecord.resolveEntityId sha)).Nodup) :
    (groupRecords sha records).order = records.map (NoteRecord.resolveEntityId sha) := by
  induction records using List.reverseRecOn with
  | nil => simp [groupRecords]
  | append_singleton records r ih =>
    rw [List.map_append, List.map_singleton, List.nodup_append] at h
    have hfresh : groupOf sha records (r.resolveEntityId sha) = [] := by
      refine List.filter_eq_nil_iff.mpr fun x hx => ?_
      have hne := h.2.2 _ (List.mem_map_of_mem hx) _ (List.mem_singleton_self _)
      simpa using hne
    have hgroups := groupRecords_groups sha records (r.resolveEntityId sha)
    rw [if_pos hfresh] at hgroups
    rw [groupRecords_concat]
    unfold Groups.insert
    rw [hgroups, List.map_append, List.map_singleton]
    simp only [ih h.1]

theorem find?_order (sha : String → String) (records : List NoteRecord) (q : String → Bool) :
    (groupRecords sha records).order.find? q
      = (records.map (NoteRecord.resolveEntityId sha)).find? q := by
  induction records using List.reverseRecOn with
  | nil => simp [groupRecords]
  | append_singleton records r ih =>
    have hgroups := groupRecords_groups sha records (r.resolveEntityId sha)
    rw [groupRecords_concat, List.map_append, List.map_singleton, List.find?_append, ← ih]
    unfold Groups.insert
    by_cases hg : groupOf sha records (r.resolveEntityId sha) = []
    · rw [if_pos hg] at hgroups
      rw [hgroups, List.find?_append]
    · rw [if_neg hg] at hgroups
      rw [hgroups]
      -- a key met before adds nothing: if it is a hit, there is one already
      cases hq : q (r.resolveEntityId sha) with
      | false => simp [hq]
      | true =>
        have hmem := ((groupRecords_order sha records).2 _).mpr hg
        have hsome : ((groupRecords sha records).order.find? q).isSome :=
          List.find?_isSome.mpr ⟨_, hmem, hq⟩
        obtain ⟨k, hk⟩ := Option.isSome_iff_exists.mp hsome
        rw [hk, Option.some_or]

theorem foldRecords_eq (sha : String → String) (records : List NoteRecord) :
    foldRecords sha records
      = (groupRecords sha records).order.filterMap fun key =>
          foldGroup (groupOf sha records key) := by
  refine List.filterMap_congr fun key hkey => ?_
  rw [groupRecords_groups, if_neg ((groupRecords_order sha records).2 key |>.mp hkey)]
  rfl

end GitNotes
end Inkentry
