/-
  Inkentry.GitNotes.FoldSpec

  What folding a group computes, field by field.  The base copy supplies the
  fields merging leaves alone; every merged field is a function of the set of
  the group's records (`mergedOnto_congr`).  A group of one copy is special:
  nothing is merged into it, so its vectors are not put in order
  (`foldGroup_singleton`).

  `foldRecords_perm_of_groups` and `foldGroup_eq_of_perm` lift both directions
  to whole logs: two logs fold to the same entries exactly when each entity's
  group does.
-/

import Inkentry.Lib.IdemFold
import Inkentry.GitNotes.Fold

namespace Inkentry
namespace GitNotes

open FirstMin SortedSet

/-! ## `minSome` -/

instance : Std.Commutative (minSome (α := Int)) where
  comm a b := by
    cases a <;> cases b <;> simp [minSome, min_comm]

instance : Std.Associative (minSome (α := Int)) where
  assoc a b c := by
    cases a <;> cases b <;> cases c <;> simp [minSome, min_assoc]

instance : Std.IdempotentOp (minSome (α := Int)) where
  idempotent a := by
    cases a <;> simp [minSome]

/-! ## A whole group merged onto its base -/

/-- The earliest present bound of a group. -/
def earliest (bounds : List (Option Int)) : Option Int := bounds.foldl minSome none

theorem earliest_congr {l l' : List (Option Int)} (h : ∀ a, a ∈ l ↔ a ∈ l') :
    earliest l = earliest l' :=
  IdemFold.foldl_eq_of_mem_iff minSome none h

/-- Status of a fold: archived as soon as one copy is, else the base's own. -/
def foldedStatus (group : List NoteRecord) (base : NoteRecord) : String :=
  if ∃ r ∈ group, r.status = "archived" then "archived" else base.status

/-- A group of several copies, `base` among them, merged onto `base`. -/
def mergedOnto (base : NoteRecord) (group : List NoteRecord) : NoteRecord :=
  { base with
    status := foldedStatus group base
    schemaVersion := (group.map (·.schemaVersion)).foldl max 0
    validAt := earliest (group.map (·.validAt))
    invalidAt := earliest (group.map (·.invalidAt))
    tags := sortDedup (group.map (·.tags)).flatten
    linkedFiles := sortDedup (group.map (·.linkedFiles)).flatten
    edges := sortDedup (group.map (·.edges)).flatten }

theorem foldl_mergeInto (base : NoteRecord) (rest : List NoteRecord) :
    rest.foldl mergeInto base =
      { base with
        status := if ∃ r ∈ rest, r.status = "archived" then "archived" else base.status
        schemaVersion := (rest.map (·.schemaVersion)).foldl max base.schemaVersion
        validAt := (rest.map (·.validAt)).foldl minSome base.validAt
        invalidAt := (rest.map (·.invalidAt)).foldl minSome base.invalidAt
        tags := (rest.map (·.tags)).foldl unionInto base.tags
        linkedFiles := (rest.map (·.linkedFiles)).foldl unionInto base.linkedFiles
        edges := (rest.map (·.edges)).foldl unionInto base.edges } := by
  induction rest generalizing base with
  | nil => simp
  | cons r rest ih =>
    rw [List.foldl_cons, ih]
    by_cases hr : r.status = "archived"
    · simp [mergeInto, hr]
    · simp [mergeInto, hr]

theorem foldl_mergeInto_eq_mergedOnto (base : NoteRecord) {rest : List NoteRecord}
    (hne : rest ≠ []) : rest.foldl mergeInto base = mergedOnto base (base :: rest) := by
  have hmap : ∀ {β : Type} (f : NoteRecord → β), rest.map f ≠ [] := fun f => by simpa using hne
  rw [foldl_mergeInto, foldl_unionInto _ _ (hmap _), foldl_unionInto _ _ (hmap _),
    foldl_unionInto _ _ (hmap _)]
  by_cases hb : base.status = "archived"
  · simp [mergedOnto, foldedStatus, earliest, minSome, hb]
  · simp [mergedOnto, foldedStatus, earliest, minSome, hb]

private theorem mem_map_iff_of_mem_iff {β : Type} {g g' : List NoteRecord}
    (h : ∀ r, r ∈ g ↔ r ∈ g') (f : NoteRecord → β) (a : β) : a ∈ g.map f ↔ a ∈ g'.map f := by
  simp only [List.mem_map, h]

theorem mergedOnto_congr (base : NoteRecord) {g g' : List NoteRecord}
    (h : ∀ r, r ∈ g ↔ r ∈ g') : mergedOnto base g = mergedOnto base g' := by
  have hflat : ∀ {β : Type} (f : NoteRecord → List β) (a : β),
      a ∈ (g.map f).flatten ↔ a ∈ (g'.map f).flatten := fun f a => by
    simp only [List.mem_flatten, List.mem_map, h]
  have hstatus : foldedStatus g base = foldedStatus g' base := by
    simp only [foldedStatus, h]
  have hschema : (g.map (·.schemaVersion)).foldl max 0 = (g'.map (·.schemaVersion)).foldl max 0 :=
    IdemFold.foldl_eq_of_mem_iff max 0 (mem_map_iff_of_mem_iff h _)
  unfold mergedOnto
  rw [hstatus, hschema, earliest_congr (mem_map_iff_of_mem_iff h (·.validAt)),
    earliest_congr (mem_map_iff_of_mem_iff h (·.invalidAt)),
    sortDedup_congr (hflat (·.tags)), sortDedup_congr (hflat (·.linkedFiles)),
    sortDedup_congr (hflat (·.edges))]

/-! ## Folding one group -/

variable {g : List NoteRecord} {f : NoteRecord} {sha : String → String}

/-- The successor a group names is a function of the set of its records. -/
theorem resolveSupersededByEntityId_congr {g g' : List NoteRecord}
    (h : ∀ r, r ∈ g ↔ r ∈ g') :
    resolveSupersededByEntityId g = resolveSupersededByEntityId g' := by
  unfold resolveSupersededByEntityId
  have hmem : ∀ r, r ∈ g.filter (fun r => r.supersededByEntityId.isSome)
      ↔ r ∈ g'.filter (fun r => r.supersededByEntityId.isSome) := fun r => by
    simp only [List.mem_filter, h]
  -- the key ends in the value itself, so tied copies carry the same successor
  have hties : ∀ a b, IsKeyMin successorKey (g.filter fun r => r.supersededByEntityId.isSome) a →
      IsKeyMin successorKey (g.filter fun r => r.supersededByEntityId.isSome) b →
      a.supersededByEntityId = b.supersededByEntityId := by
    intro a b ha hb
    have hkey : successorKey a = successorKey b :=
      le_antisymm (ha.2 b hb.1) (hb.2 a ha.1)
    exact congrArg SuccessorKey.value hkey
  have hval := argmin_map_congr hmem hties
  cases hg : (g.filter fun r => r.supersededByEntityId.isSome).argmin successorKey with
  | none =>
    rw [hg] at hval
    rw [Option.map_none, eq_comm, Option.map_eq_none_iff] at hval
    rw [hval]
  | some a =>
    rw [hg] at hval
    obtain ⟨b, hb, hab⟩ := Option.map_eq_some_iff.mp hval.symm
    rw [hb]
    exact hab.symm

/-- Folding a non-empty group: the first key-minimal copy, with the others, if
    any, merged onto it. -/
theorem foldGroup_eq {base : NoteRecord} (hbase : g.argmin baseKey = some base) :
    foldGroup g = some { (if g.length = 1 then base else mergedOnto base g) with
      supersededByEntityId := resolveSupersededByEntityId g } := by
  have hne : g ≠ [] := by
    rintro rfl
    simp at hbase
  obtain ⟨i, hi⟩ := exists_firstMinIdx (f := baseKey) hne
  have hget : g[i]? = some base := by rw [getElem?_firstMinIdx hi, hbase]
  obtain ⟨rest, hrest⟩ := exists_swapRemove hget
  have hperm := swapRemove_perm hrest
  have hlen : rest.length + 1 = g.length := by simpa using hperm.length_eq
  have hfold : foldGroup g = some { rest.foldl mergeInto base with
      supersededByEntityId := resolveSupersededByEntityId g } := by
    simp [foldGroup, baseIndex, hi, hrest]
  rw [hfold]
  by_cases hone : g.length = 1
  · have hnil : rest = [] := List.length_eq_zero_iff.mp (by omega)
    rw [if_pos hone, hnil, List.foldl_nil]
  · have hrne : rest ≠ [] := fun hnil => hone (by rw [← hlen, hnil, List.length_nil])
    rw [if_neg hone, foldl_mergeInto_eq_mergedOnto base hrne,
      mergedOnto_congr base fun r => hperm.mem_iff]

theorem foldGroup_singleton (r : NoteRecord) : foldGroup [r] = some r := by
  rw [foldGroup_eq (List.argmin_singleton (f := baseKey) (a := r))]
  cases hs : r.supersededByEntityId with
  | none => simp [resolveSupersededByEntityId, hs]; rw [← hs]
  | some s => simp [resolveSupersededByEntityId, hs]; rw [← hs]

theorem foldGroup_isSome (hne : g ≠ []) : (foldGroup g).isSome := by
  obtain ⟨base, hbase⟩ := exists_argmin_of_ne_nil baseKey hne
  simp [foldGroup_eq hbase]

/-- The base-sourced fields that `baseKey` does not compare. -/
def unkeyed (r : NoteRecord) :
    String × String × String × Option String × Option Origin × Option String × Option String :=
  (r.kind, r.title, r.body, r.entityId, r.origin, r.op, r.patchId)

theorem exists_base_of_foldGroup
    (hf : foldGroup g = some f) : ∃ base, g.argmin baseKey = some base := by
  refine exists_argmin_of_ne_nil baseKey ?_
  rintro rfl
  simp [foldGroup, baseIndex, firstMinIdx] at hf

/-- A fold is the one copy there is, or several copies merged onto their base. -/
theorem foldGroup_cases (hf : foldGroup g = some f) :
    g = [f] ∨ ∃ base, g.argmin baseKey = some base ∧ f = { mergedOnto base g with
      supersededByEntityId := resolveSupersededByEntityId g } := by
  obtain ⟨base, hbase⟩ := exists_base_of_foldGroup hf
  by_cases hone : g.length = 1
  · obtain ⟨r, rfl⟩ := List.length_eq_one_iff.mp hone
    rw [foldGroup_singleton, Option.some_inj] at hf
    exact .inl (by rw [hf])
  · rw [foldGroup_eq hbase, if_neg hone, Option.some_inj] at hf
    exact .inr ⟨base, hbase, hf.symm⟩

/-- What a fold takes from its base, whatever the number of copies. -/
theorem foldGroup_base {base f : NoteRecord} (hbase : g.argmin baseKey = some base)
    (hf : foldGroup g = some f) :
    unkeyed f = unkeyed base ∧ baseKey f = baseKey base ∧ f.status = foldedStatus g base := by
  rw [foldGroup_eq hbase, Option.some_inj] at hf
  subst hf
  by_cases hone : g.length = 1
  · obtain ⟨r, rfl⟩ := List.length_eq_one_iff.mp hone
    have hr : r = base := by simpa using hbase
    subst hr
    by_cases hs : r.status = "archived" <;> simp [unkeyed, baseKey, foldedStatus, hs]
  · simp [hone, mergedOnto, unkeyed, baseKey]

theorem foldGroup_resolveEntityId {key : String} (hkey : ∀ r ∈ g, r.resolveEntityId sha = key)
    (hf : foldGroup g = some f) : f.resolveEntityId sha = key := by
  obtain ⟨base, hbase⟩ := exists_base_of_foldGroup hf
  obtain ⟨hunkeyed, -, -⟩ := foldGroup_base hbase hf
  have hsame : f.resolveEntityId sha = base.resolveEntityId sha := by
    simp only [unkeyed, Prod.mk.injEq] at hunkeyed
    simp only [NoteRecord.resolveEntityId, hunkeyed]
  rw [hsame]
  exact hkey base (List.argmin_mem hbase)

/-! ## Lifecycle of a folded group -/

theorem earliest_isSome {bounds : List (Option Int)} :
    (earliest bounds).isSome ↔ ∃ b ∈ bounds, b.isSome := by
  induction bounds using List.reverseRecOn with
  | nil => simp [earliest]
  | append_singleton bounds b ih =>
    have hstep : earliest (bounds ++ [b]) = minSome (earliest bounds) b := by simp [earliest]
    rw [hstep]
    cases he : earliest bounds with
    | none =>
      have hnone : ∀ a ∈ bounds, a = none := by simpa [he] using ih
      constructor
      · intro h
        exact ⟨b, by simp, by simpa [minSome] using h⟩
      · rintro ⟨a, ha, hsome⟩
        rcases List.mem_append.mp ha with ha | ha
        · rw [hnone a ha] at hsome
          exact absurd hsome (by simp)
        · rw [List.mem_singleton.mp ha] at hsome
          simpa [minSome] using hsome
    | some e =>
      have hold : ∃ a ∈ bounds, a.isSome := ih.mp (by simp [he])
      obtain ⟨a, ha, hsome⟩ := hold
      refine iff_of_true ?_ ⟨a, List.mem_append_left _ ha, hsome⟩
      cases b <;> simp [minSome]

/-- The successor of a group is one that some copy names, if any does. -/
theorem resolveSupersededByEntityId_eq_some {e : String}
    (h : resolveSupersededByEntityId g = some e) : ∃ r ∈ g, r.supersededByEntityId = some e := by
  obtain ⟨r, hr, hre⟩ := Option.bind_eq_some_iff.mp h
  exact ⟨r, (List.mem_filter.mp (List.argmin_mem hr)).1, hre⟩

theorem resolveSupersededByEntityId_eq_none_iff :
    resolveSupersededByEntityId g = none ↔ ∀ r ∈ g, r.supersededByEntityId = none := by
  constructor
  · intro h r hr
    by_contra hsome
    have hmem : r ∈ g.filter fun r => r.supersededByEntityId.isSome :=
      List.mem_filter.mpr ⟨hr, Option.isSome_iff_ne_none.mpr hsome⟩
    obtain ⟨a, ha⟩ := exists_argmin_of_ne_nil successorKey (List.ne_nil_of_mem hmem)
    have hasome := (List.mem_filter.mp (List.argmin_mem ha)).2
    rw [resolveSupersededByEntityId, ha, Option.bind_some] at h
    simp [h] at hasome
  · intro h
    cases hg : resolveSupersededByEntityId g with
    | none => rfl
    | some e =>
      obtain ⟨r, hr, hre⟩ := resolveSupersededByEntityId_eq_some hg
      rw [h r hr] at hre
      exact absurd hre (by simp)

theorem foldGroup_supersededByEntityId
    (hf : foldGroup g = some f) : f.supersededByEntityId = resolveSupersededByEntityId g := by
  obtain ⟨base, hbase⟩ := exists_base_of_foldGroup hf
  rw [foldGroup_eq hbase, Option.some_inj] at hf
  rw [← hf]

/-- A folded entry is bounded as soon as one copy is. -/
theorem foldGroup_invalidAt_isSome
    (hf : foldGroup g = some f) : f.invalidAt.isSome ↔ ∃ r ∈ g, r.invalidAt.isSome := by
  obtain rfl | ⟨base, -, rfl⟩ := foldGroup_cases hf
  · simp
  · simp [mergedOnto, earliest_isSome]

theorem foldGroup_validAt (hf : foldGroup g = some f) :
    f.validAt = earliest (g.map (·.validAt)) := by
  obtain rfl | ⟨base, -, rfl⟩ := foldGroup_cases hf
  · simp [earliest, minSome]
  · simp only [mergedOnto]

theorem foldGroup_invalidAt (hf : foldGroup g = some f) :
    f.invalidAt = earliest (g.map (·.invalidAt)) := by
  obtain rfl | ⟨base, -, rfl⟩ := foldGroup_cases hf
  · simp [earliest, minSome]
  · simp only [mergedOnto]

theorem foldGroup_createdAt (hf : foldGroup g = some f) :
    (∃ r ∈ g, r.createdAt = f.createdAt) ∧ ∀ r ∈ g, f.createdAt ≤ r.createdAt := by
  obtain ⟨base, hbase⟩ := exists_base_of_foldGroup hf
  have hkey := (foldGroup_base hbase hf).2.1
  have hcreated : base.createdAt = f.createdAt := (congrArg BaseKey.createdAt hkey).symm
  refine ⟨⟨base, List.argmin_mem hbase, hcreated⟩, fun r hr => ?_⟩
  rw [← hcreated]
  by_contra hlt
  have hless : baseKey r < baseKey base := baseKey_lt_of_clock (.inl (by omega))
  exact absurd (List.le_of_mem_argmin hr hbase) (not_le.mpr hless)

theorem foldGroup_contentKeyed (hkeyed : ∀ r ∈ g, r.ContentKeyed sha)
    (hf : foldGroup g = some f) : f.ContentKeyed sha := by
  obtain ⟨base, hbase⟩ := exists_base_of_foldGroup hf
  have hunkeyed := (foldGroup_base hbase hf).1
  have hbaseKeyed := hkeyed base (List.argmin_mem hbase)
  simp only [unkeyed, Prod.mk.injEq] at hunkeyed
  simpa only [NoteRecord.ContentKeyed, NoteRecord.resolveEntityId, hunkeyed] using hbaseKeyed

/-- Archived is archived on some copy, where no copy has a third status. -/
theorem foldGroup_status (hf : foldGroup g = some f)
    (hstatus : ∀ r ∈ g, r.status = "active" ∨ r.status = "archived") :
    f.status = if ∃ r ∈ g, r.status = "archived" then "archived" else "active" := by
  obtain ⟨base, hbase⟩ := exists_base_of_foldGroup hf
  rw [(foldGroup_base hbase hf).2.2, foldedStatus]
  by_cases h : ∃ r ∈ g, r.status = "archived"
  · rw [if_pos h, if_pos h]
  · rw [if_neg h, if_neg h]
    have hmem := List.argmin_mem hbase
    exact (hstatus base hmem).resolve_right fun ha => h ⟨base, hmem, ha⟩

/-! ## Folding a whole log -/

variable {l l' : List NoteRecord}

theorem mem_foldRecords {records : List NoteRecord} :
    f ∈ foldRecords sha records ↔ foldGroup (groupOf sha records (f.resolveEntityId sha)) = some f := by
  rw [foldRecords_eq, List.mem_filterMap]
  constructor
  · rintro ⟨key, -, hf⟩
    have hkey := foldGroup_resolveEntityId (fun r hr => (mem_groupOf.mp hr).2) hf
    rw [hkey]
    exact hf
  · intro hf
    refine ⟨f.resolveEntityId sha, ?_, hf⟩
    rw [(groupRecords_order sha records).2]
    intro hnil
    simp [hnil, foldGroup, baseIndex, firstMinIdx] at hf

theorem foldRecords_map_resolveEntityId (sha : String → String) (records : List NoteRecord) :
    (foldRecords sha records).map (NoteRecord.resolveEntityId sha)
      = (groupRecords sha records).order := by
  rw [foldRecords_eq, List.map_filterMap]
  have hall : ∀ key ∈ (groupRecords sha records).order,
      ((foldGroup (groupOf sha records key)).map (NoteRecord.resolveEntityId sha)) = some key := by
    intro key hkey
    have hne := ((groupRecords_order sha records).2 key).mp hkey
    obtain ⟨f, hf⟩ := Option.isSome_iff_exists.mp (foldGroup_isSome hne)
    rw [hf, Option.map_some,
      foldGroup_resolveEntityId (fun r hr => (mem_groupOf.mp hr).2) hf]
  rw [List.filterMap_congr hall, List.filterMap_some]

/-- An entity has exactly one record in the fold. -/
theorem foldRecords_nodup (sha : String → String) (records : List NoteRecord) :
    ((foldRecords sha records).map (NoteRecord.resolveEntityId sha)).Nodup := by
  rw [foldRecords_map_resolveEntityId]
  exact (groupRecords_order sha records).1

theorem foldRecords_perm_of_groups
    (h : ∀ key, foldGroup (groupOf sha l key) = foldGroup (groupOf sha l' key)) :
    (foldRecords sha l).Perm (foldRecords sha l') := by
  refine (List.perm_ext_iff_of_nodup (foldRecords_nodup sha l).of_map
    (foldRecords_nodup sha l').of_map).mpr fun f => ?_
  rw [mem_foldRecords, mem_foldRecords, h]

theorem foldGroup_eq_of_perm (h : (foldRecords sha l).Perm (foldRecords sha l')) (key : String)
    (hne : groupOf sha l key ≠ []) :
    foldGroup (groupOf sha l key) = foldGroup (groupOf sha l' key) := by
  obtain ⟨f, hf⟩ := Option.isSome_iff_exists.mp (foldGroup_isSome hne)
  have hkey := foldGroup_resolveEntityId (fun r hr => (mem_groupOf.mp hr).2) hf
  have hmem : f ∈ foldRecords sha l := mem_foldRecords.mpr (hkey ▸ hf)
  have hmem' := mem_foldRecords.mp (h.mem_iff.mp hmem)
  rw [hf, ← hkey, hmem']

theorem anchorInsert_self (sha : String → String) (best : String → Option (String × NoteRecord))
    (line : String × NoteRecord) :
    anchorInsert sha best line (line.2.resolveEntityId sha)
      = (best (line.2.resolveEntityId sha)).casesOn (some line) fun held =>
          if baseKey line.2 < baseKey held.2 then some line else some held := by
  unfold anchorInsert
  cases hheld : best (line.2.resolveEntityId sha) with
  | none => simp
  | some held =>
    by_cases hlt : baseKey line.2 < baseKey held.2
    · simp [hlt]
    · simp [hlt, hheld]

theorem anchorInsert_of_ne {best : String → Option (String × NoteRecord)}
    {line : String × NoteRecord} {entity : String} (h : line.2.resolveEntityId sha ≠ entity) :
    anchorInsert sha best line entity = best entity := by
  unfold anchorInsert
  cases best (line.2.resolveEntityId sha) with
  | none => exact Function.update_of_ne h.symm _ _
  | some held =>
    by_cases hlt : baseKey line.2 < baseKey held.2
    · simp only [hlt, if_true]
      exact Function.update_of_ne h.symm _ _
    · simp only [hlt, if_false]

theorem anchorCommits_eq (sha : String → String) (records : List (String × NoteRecord))
    (entity : String) :
    anchorCommits sha records entity
      = ((records.filter fun p => p.2.resolveEntityId sha = entity).argmin
          fun p => baseKey p.2).map Prod.fst := by
  unfold anchorCommits
  congr 1
  induction records using List.reverseRecOn with
  | nil => rfl
  | append_singleton records line ih =>
    rw [List.foldl_concat, List.filter_append]
    by_cases hent : line.2.resolveEntityId sha = entity
    · subst hent
      have hline : ([line].filter fun p => decide (p.2.resolveEntityId sha
          = line.2.resolveEntityId sha)) = [line] := by simp
      rw [anchorInsert_self, ih, hline, List.argmin_concat]
    · rw [anchorInsert_of_ne hent, ih]
      simp [hent]

end GitNotes
end Inkentry
