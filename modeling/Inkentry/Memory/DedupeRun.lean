/-
  Inkentry.Memory.DedupeRun

  A run of `memory dedupe` as one transaction, and what it is for: the store is
  replaced by its quotient by content.  Any statement of the run can fail, and a
  linked path that leaves the project refuses the merge; either rolls the whole
  run back.

  `dedupeHolds_iff` says of which stores this is true.  A merge goes through the
  statements that every other write goes through, and these do not do what the
  merge wants of every row: archiving only reaches an active row, tags and paths
  are spelt anew, and a row that is superseded by itself is only looked at in a
  group.
-/

import Inkentry.Memory.Dedupe
import Inkentry.Memory.Sync

namespace Inkentry
namespace Memory

open OrderLimit SortedSet

/-! ## The run -/

structure DedupeEnv extends StoreEnv where
  /-- Whether a linked path leaves the project. -/
  escapes : String → Bool

/-- The statements of a run that the database fails, by kind and position. -/
structure Faults where
  read : Bool
  start : Bool
  group : Nat → Bool
  reference : Nat → Bool
  delete : Nat → Bool
  commit : Bool

def Faults.none : Faults := ⟨false, false, fun _ => false, fun _ => false, fun _ => false, false⟩

/-- Whether merging a linked path is refused; a blank one is passed over. -/
def DedupeEnv.refuses (env : DedupeEnv) (path : String) : Bool :=
  (env.linkPath path).isSome && env.escapes path

/-- Phase 1, from the group at a position on; `none` is an error. -/
def collapseSurvivors (env : DedupeEnv) (faults : Faults) (groups : List DuplicateGroup) :
    Nat → List DuplicateGroup → Store → Option Store
  | _, [], s => some s
  | i, g :: rest, s =>
    if (planGroup groups g).newFiles.any env.refuses || faults.group i then none
    else
      collapseSurvivors env faults groups (i + 1) rest
        (collapseGroupSurvivor env.toStoreEnv groups s g)

/-- Phase 2. -/
def rewriteCrossReferences (faults : Faults) (groups : List DuplicateGroup) :
    Nat → List Note → Store → Option Store
  | _, [], s => some s
  | i, n :: rest, s =>
    if faults.reference i then none
    else rewriteCrossReferences faults groups (i + 1) rest (rewriteReference groups s n)

/-- Phase 3. -/
def deleteLosers (faults : Faults) : Nat → List Note → Store → Option Store
  | _, [], s => some s
  | i, n :: rest, s =>
    (s.deleteNote n.id).bind fun s' =>
      if faults.delete i then none else deleteLosers faults (i + 1) rest s'

/-- What a transaction leaves to be committed; `none` is an error, and it is rolled back. -/
def Store.dedupeTransaction (env : DedupeEnv) (faults : Faults) (s : Store) : Option Store :=
  let all := s.allNotesForDedup
  let groups := duplicateGroups env.sha all
  (collapseSurvivors env faults groups 0 groups s).bind fun s₁ =>
    (rewriteCrossReferences faults groups 0 all s₁).bind fun s₂ =>
      deleteLosers faults 0 (groups.flatMap DuplicateGroup.losers) s₂

/-- A run: what it reports, `none` for an error, and what the file holds afterwards. -/
def Store.dedupeRun (env : DedupeEnv) (faults : Faults) (s : Store) (dryRun : Bool) :
    Option DedupeSummary × Store :=
  let all := s.allNotesForDedup
  let groups := duplicateGroups env.sha all
  if faults.read then (none, s)
  else if groups = [] ∨ dryRun then (some (dedupeSummary groups all), s)
  else if faults.start then (none, s)
  else
    match s.dedupeTransaction env faults with
    | some s' => if faults.commit then (none, s) else (some (dedupeSummary groups all), s')
    | none => (none, s)

/-! ## What a run is for -/

/-- Rows with one computed entity id. -/
def SameContent (sha : String → String) (n m : Note) : Prop :=
  noteEntityId sha n = noteEntityId sha m

instance (sha : String → String) (n m : Note) : Decidable (SameContent sha n m) :=
  inferInstanceAs (Decidable (_ = _))

/-- The first row of its content, by creation and then by insertion. -/
def Store.IsEarliest (sha : String → String) (s : Store) (n : Note) : Prop :=
  s.allNotesForDedup.find? (fun m => SameContent sha m n) = some n

instance (sha : String → String) (s : Store) (n : Note) : Decidable (s.IsEarliest sha n) :=
  inferInstanceAs (Decidable (_ = _))

/-- A store is the quotient of another by content. -/
structure ContentQuotient (sha : String → String) (s s' : Store) : Prop where
  survivors : s'.rows.map Note.id = (s.rows.filter fun n => s.IsEarliest sha n).map Note.id
  content : ∀ n' ∈ s'.rows, ∀ n ∈ s.rows, n'.id = n.id → SameContent sha n' n
  /-- No row is left superseded by one that is deleted, or by itself. -/
  alive : ∀ n' ∈ s'.rows, ∀ m ∈ s.rows, n'.supersededBy = some m.id → m.id ∈ s'.rows.map Note.id
  apart : ∀ n' ∈ s'.rows, n'.supersededBy ≠ some n'.id
  succession : ∀ a ∈ s'.rows, ∀ b ∈ s'.rows, a.supersededBy = some b.id →
    ∃ a₀ ∈ s.rows, ∃ b₀ ∈ s.rows, SameContent sha a₀ a ∧ SameContent sha b₀ b
      ∧ a₀.supersededBy = some b₀.id
  tags : ∀ n' ∈ s'.rows, ∀ t, t ∈ n'.tags ↔ ∃ m ∈ s.rows, SameContent sha m n' ∧ t ∈ m.tags
  linkedFiles : ∀ n' ∈ s'.rows, ∀ f,
    f ∈ n'.linkedFiles ↔ ∃ m ∈ s.rows, SameContent sha m n' ∧ f ∈ m.linkedFiles
  archived : ∀ n' ∈ s'.rows,
    n'.status = "archived" ↔ ∃ m ∈ s.rows, SameContent sha m n' ∧ m.status = "archived"

/-- A run that reports a summary leaves the quotient, a dry run reports the same, and
    another run changes nothing; a run that fails leaves the store as it is. -/
def DedupeHolds (env : DedupeEnv) (s : Store) : Prop :=
  ∀ faults,
    (∀ summary, (s.dedupeRun env faults false).1 = some summary →
      ContentQuotient env.sha s (s.dedupeRun env faults false).2
        ∧ (s.dedupeRun env faults true).1 = some summary
        ∧ ∀ faults', ((s.dedupeRun env faults false).2.dedupeRun env faults' false).2
          = (s.dedupeRun env faults false).2)
      ∧ ((s.dedupeRun env faults false).1 = none → (s.dedupeRun env faults false).2 = s)

/-! ## Where it holds -/

/-- Spelling anew the values of some lists that are not held gives those values: `f` is what
    a write makes of a value. -/
def Settles (f : String → Option String) (held : List String) (others : String → Prop) : Prop :=
  ∀ t, t ∉ held → ((∃ u, others u ∧ u ∉ held ∧ f u = some t) ↔ others t)

/-- No group's merge is refused. -/
def PathsStay (env : DedupeEnv) (s : Store) : Prop :=
  ∀ n ∈ s.rows, s.IsEarliest env.sha n → ∀ m ∈ s.rows, SameContent env.sha m n →
    ∀ f ∈ m.linkedFiles, f ∉ n.linkedFiles → env.refuses f = false

/-- The rows that a merge goes right for. -/
structure Collapsible (env : DedupeEnv) (s : Store) : Prop where
  /-- A row that is superseded by itself has a duplicate. -/
  apart : ∀ n ∈ s.rows, n.supersededBy = some n.id →
    ∃ m ∈ s.rows, m ≠ n ∧ SameContent env.sha m n
  /-- The earliest row of a content that is archived somewhere is active or archived. -/
  archives : ∀ n ∈ s.rows, s.IsEarliest env.sha n → ∀ m ∈ s.rows, SameContent env.sha m n →
    m.status = "archived" → n.status = "active" ∨ n.status = "archived"
  tags : ∀ n ∈ s.rows, s.IsEarliest env.sha n →
    Settles env.normalizeTag n.tags fun t => ∃ m ∈ s.rows, SameContent env.sha m n ∧ t ∈ m.tags
  linkedFiles : ∀ n ∈ s.rows, s.IsEarliest env.sha n →
    Settles env.linkPath n.linkedFiles fun f =>
      ∃ m ∈ s.rows, SameContent env.sha m n ∧ f ∈ m.linkedFiles

/-! ## Groups and rows -/

section

variable {sha : String → String} {s : Store}
variable {g : DuplicateGroup}

theorem mem_allNotesForDedup {n : Note} : n ∈ s.allNotesForDedup ↔ n ∈ s.rows := mem_sortBy _

theorem allNotesForDedup_ids : (s.allNotesForDedup.map Note.id).Nodup :=
  ((sortBy_perm _ _).map _).nodup_iff.mpr s.uuidUnique

/-- The rows of a content, the earliest first. -/
def Store.sameContent (sha : String → String) (s : Store) (n : Note) : List Note :=
  s.allNotesForDedup.filter fun m => SameContent sha m n

theorem mem_sameContent {n m : Note} :
    m ∈ s.sameContent sha n ↔ m ∈ s.rows ∧ SameContent sha m n := by
  rw [Store.sameContent, List.mem_filter, mem_allNotesForDedup, decide_eq_true_eq]

theorem isEarliest_iff {n : Note} :
    s.IsEarliest sha n ↔ (s.sameContent sha n).head? = some n := by
  rw [Store.IsEarliest, Store.sameContent, List.head?_filter]

/-- A group is the rows of its survivor's content, and the survivor is the earliest. -/
theorem members_eq_sameContent (hg : g ∈ duplicateGroups sha s.allNotesForDedup) {n : Note}
    (hn : n ∈ g.members) : g.members = s.sameContent sha n := by
  obtain ⟨entity, hmem⟩ := members_of_mem_groups hg
  have hentity : noteEntityId sha n = entity := by
    rw [hmem] at hn
    simpa using (List.mem_filter.mp hn).2
  rw [hmem, ← hentity]
  rfl

theorem members_eq_of_survivor {n : Note} (hg : g ∈ duplicateGroups sha s.allNotesForDedup)
    (h : g.survivor = n) : g.members = s.sameContent sha n := by
  rw [← h]
  exact members_eq_sameContent hg List.mem_cons_self

theorem isEarliest_survivor
    (hg : g ∈ duplicateGroups sha s.allNotesForDedup) : s.IsEarliest sha g.survivor := by
  rw [isEarliest_iff, ← members_eq_of_survivor hg rfl]
  rfl

theorem exists_group {n first second : Note} {rest : List Note} (hn : n ∈ s.rows)
    (h : s.sameContent sha n = first :: second :: rest) :
    (⟨first, second :: rest⟩ : DuplicateGroup) ∈ duplicateGroups sha s.allNotesForDedup := by
  refine List.mem_filterMap.mpr ⟨noteEntityId sha n, ?_, ?_⟩
  · exact List.mem_eraseDups.mpr (List.mem_map_of_mem (mem_allNotesForDedup.mpr hn))
  · have hfilter : (s.allNotesForDedup.filter fun m => noteEntityId sha m = noteEntityId sha n)
        = first :: second :: rest := h
    rw [duplicateGroup?, hfilter]

theorem isLoser_iff_not_isEarliest {n : Note} (hn : n ∈ s.rows) :
    IsLoser (duplicateGroups sha s.allNotesForDedup) n.id ↔ ¬ s.IsEarliest sha n := by
  constructor
  · rintro ⟨g, hg, m, hm, hid⟩ hearliest
    have hmem : m ∈ g.members := List.mem_cons_of_mem _ hm
    obtain rfl : m = n := List.inj_on_of_nodup_map allNotesForDedup_ids
      (mem_of_mem_members hg hmem) (mem_allNotesForDedup.mpr hn) hid
    rw [isEarliest_iff, ← members_eq_sameContent hg hmem] at hearliest
    have hself : g.survivor = m := Option.some.inj hearliest
    exact not_isLoser_survivor allNotesForDedup_ids hg (hself ▸ ⟨g, hg, m, hm, rfl⟩)
  · intro hnot
    rw [isEarliest_iff] at hnot
    have hself : n ∈ s.sameContent sha n := mem_sameContent.mpr ⟨hn, rfl⟩
    cases hsame : s.sameContent sha n with
    | nil => exact absurd (hsame ▸ hself) (by simp)
    | cons first rest =>
      rw [hsame] at hself hnot
      rcases List.mem_cons.mp hself with rfl | hrest
      · exact absurd rfl hnot
      · obtain ⟨second, rest', rfl⟩ := List.exists_cons_of_ne_nil (List.ne_nil_of_mem hrest)
        exact ⟨_, exists_group hn hsame, n, hrest, rfl⟩

/-- The earliest row of a content is the survivor of its group, or has no duplicate. -/
theorem earliest_cases {n : Note} (hn : n ∈ s.rows) (h : s.IsEarliest sha n) :
    (∃ g ∈ duplicateGroups sha s.allNotesForDedup,
        survivorGroup? (duplicateGroups sha s.allNotesForDedup) n.id = some g ∧ g.survivor = n
          ∧ g.members = s.sameContent sha n)
      ∨ survivorGroup? (duplicateGroups sha s.allNotesForDedup) n.id = none
        ∧ s.sameContent sha n = [n] := by
  cases hgroup : survivorGroup? (duplicateGroups sha s.allNotesForDedup) n.id with
  | some g =>
    have hg := List.mem_of_find?_eq_some hgroup
    have hid : g.survivor.id = n.id := by simpa using List.find?_some hgroup
    have hsurvivor : g.survivor = n := List.inj_on_of_nodup_map allNotesForDedup_ids
      (mem_of_mem_members hg List.mem_cons_self) (mem_allNotesForDedup.mpr hn) hid
    exact .inl ⟨g, hg, rfl, hsurvivor, members_eq_of_survivor hg hsurvivor⟩
  | none =>
    refine .inr ⟨rfl, ?_⟩
    rw [isEarliest_iff] at h
    cases hsame : s.sameContent sha n with
    | nil => exact absurd (hsame ▸ h) (by simp)
    | cons first rest =>
      rw [hsame] at h
      obtain rfl : first = n := Option.some.inj h
      cases rest with
      | nil => rfl
      | cons second rest =>
        have hg := exists_group hn hsame
        exact absurd (List.find?_eq_none.mp hgroup _ hg) (by simp)

theorem mem_newValues {held l : List String} {x : String} :
    x ∈ newValues held l ↔ x ∈ l ∧ x ∉ held := by
  have hfold (acc : List String) : x ∈ l.foldl (fun acc x =>
      if x ∈ held ∨ x ∈ acc then acc else acc ++ [x]) acc ↔ x ∈ acc ∨ x ∈ l ∧ x ∉ held := by
    induction l generalizing acc with
    | nil => simp
    | cons y l ih =>
      rw [List.foldl_cons, ih, List.mem_cons]
      by_cases hy : y ∈ held ∨ y ∈ acc
      · rw [if_pos hy]
        grind
      · rw [if_neg hy, List.mem_append, List.mem_singleton]
        grind
  rw [newValues, hfold]
  simp

/-- What a group's losers have and its survivor lacks, in terms of rows. -/
theorem mem_newValues_group {n : Note} (hsurvivor : g.survivor = n)
    (hmembers : g.members = s.sameContent sha n) (field : Note → List String) {u : String} :
    u ∈ newValues (field g.survivor) (g.losers.flatMap field)
      ↔ (∃ m ∈ s.rows, SameContent sha m n ∧ u ∈ field m) ∧ u ∉ field n := by
  rw [mem_newValues, hsurvivor, List.mem_flatMap]
  refine and_congr_left fun hu => ?_
  have hmem (m : Note) : m ∈ n :: g.losers ↔ m ∈ s.rows ∧ SameContent sha m n := by
    rw [← mem_sameContent, ← hmembers, DuplicateGroup.members, hsurvivor]
  constructor
  · rintro ⟨m, hm, hum⟩
    obtain ⟨hrow, hsame⟩ := (hmem m).mp (List.mem_cons_of_mem _ hm)
    exact ⟨m, hrow, hsame, hum⟩
  · rintro ⟨m, hrow, hsame, hum⟩
    rcases List.mem_cons.mp ((hmem m).mpr ⟨hrow, hsame⟩) with rfl | hm
    · exact absurd hum hu
    · exact ⟨m, hm, hum⟩

theorem mem_unionInto {base other : List String} {x : String} :
    x ∈ unionInto base other ↔ x ∈ base ∨ x ∈ other := by
  rw [unionInto, mem_sortDedup, List.mem_append]

end

section

variable {env : StoreEnv} {s : Store} {n : Note}
variable {t : String}

/-- The values a survivor ends with: its own, and those it lacks as a write spells them. -/
theorem mem_collapsedRow_field {g : DuplicateGroup} (hsurvivor : g.survivor = n)
    (hmembers : g.members = s.sameContent env.sha n) (field : Note → List String)
    (spell : String → Option String) {merges : Prop} [Decidable merges]
    (hmerges : ¬ merges → newValues (field g.survivor) (g.losers.flatMap field) = []) :
    t ∈ (if merges then unionInto (field n) ((newValues (field g.survivor)
          (g.losers.flatMap field)).filterMap spell) else field n)
      ↔ t ∈ field n ∨ ∃ u, (∃ m ∈ s.rows, SameContent env.sha m n ∧ u ∈ field m) ∧ u ∉ field n
        ∧ spell u = some t := by
  have hnew (u : String) := mem_newValues_group hsurvivor hmembers field (u := u)
  split
  case isTrue =>
    rw [mem_unionInto, List.mem_filterMap]
    exact or_congr_right (exists_congr fun u => by rw [hnew, and_assoc])
  case isFalse hno =>
    have hnone := hmerges hno
    simp only [iff_self_or]
    rintro ⟨u, hu, hheld, -⟩
    have hmem := (hnew u).mpr ⟨hu, hheld⟩
    rw [hnone] at hmem
    exact absurd hmem (by simp)

theorem mem_rewrittenRow_tags (hn : n ∈ s.rows) (h : s.IsEarliest env.sha n) :
    t ∈ (rewrittenRow env (duplicateGroups env.sha s.allNotesForDedup) n).tags
      ↔ t ∈ n.tags ∨ ∃ u, (∃ m ∈ s.rows, SameContent env.sha m n ∧ u ∈ m.tags) ∧ u ∉ n.tags
        ∧ env.normalizeTag u = some t := by
  rcases earliest_cases hn h with ⟨g, hg, hgroup, hsurvivor, hmembers⟩ | ⟨hgroup, hsingle⟩
  · rw [rewrittenRow, hgroup]
    exact mem_collapsedRow_field hsurvivor hmembers Note.tags env.normalizeTag
      fun hno => by simpa [planGroup] using fun htags => hno (.inl htags)
  · rw [rewrittenRow, hgroup]
    simp only [iff_self_or]
    rintro ⟨u, ⟨m, hm, hsame, hu⟩, hheld, -⟩
    have hmn := mem_sameContent.mpr ⟨hm, hsame⟩
    rw [hsingle, List.mem_singleton] at hmn
    exact absurd (hmn ▸ hu) hheld

theorem mem_rewrittenRow_linkedFiles (hn : n ∈ s.rows) (h : s.IsEarliest env.sha n) :
    t ∈ (rewrittenRow env (duplicateGroups env.sha s.allNotesForDedup) n).linkedFiles
      ↔ t ∈ n.linkedFiles ∨ ∃ u, (∃ m ∈ s.rows, SameContent env.sha m n ∧ u ∈ m.linkedFiles)
        ∧ u ∉ n.linkedFiles ∧ env.linkPath u = some t := by
  rcases earliest_cases hn h with ⟨g, hg, hgroup, hsurvivor, hmembers⟩ | ⟨hgroup, hsingle⟩
  · rw [rewrittenRow, hgroup]
    exact mem_collapsedRow_field hsurvivor hmembers Note.linkedFiles env.linkPath
      fun hno => by simpa [planGroup] using fun hfiles => hno (.inr hfiles)
  · rw [rewrittenRow, hgroup]
    simp only [iff_self_or]
    rintro ⟨u, ⟨m, hm, hsame, hu⟩, hheld, -⟩
    have hmn := mem_sameContent.mpr ⟨hm, hsame⟩
    rw [hsingle, List.mem_singleton] at hmn
    exact absurd (hmn ▸ hu) hheld

theorem rewrittenRow_archived_iff (hn : n ∈ s.rows) (h : s.IsEarliest env.sha n) :
    (rewrittenRow env (duplicateGroups env.sha s.allNotesForDedup) n).status = "archived"
      ↔ n.status = "archived" ∨ n.status = "active"
        ∧ ∃ m ∈ s.rows, SameContent env.sha m n ∧ m.status = "archived" := by
  rcases earliest_cases hn h with ⟨g, hg, hgroup, hsurvivor, hmembers⟩ | ⟨hgroup, hsingle⟩
  · have hany : (planGroup (duplicateGroups env.sha s.allNotesForDedup) g).anyArchived = true
        ↔ ∃ m ∈ s.rows, SameContent env.sha m n ∧ m.status = "archived" := by
      rw [planGroup, hmembers, List.any_eq_true]
      exact exists_congr fun m => by rw [mem_sameContent, decide_eq_true_eq, and_assoc]
    rw [rewrittenRow, hgroup]
    rw [← hany]
    show (if _ ∧ n.status = "active" then "archived" else n.status) = "archived" ↔ _
    split
    case isTrue hboth => exact iff_of_true rfl (.inr hboth.symm)
    case isFalse hnot =>
      refine ⟨.inl, ?_⟩
      rintro (harchived | hboth)
      · exact harchived
      · exact absurd hboth.symm hnot
  · rw [rewrittenRow, hgroup]
    refine ⟨.inl, ?_⟩
    rintro (harchived | ⟨-, m, hm, hsame, harchived⟩)
    · exact harchived
    · have hmn := mem_sameContent.mpr ⟨hm, hsame⟩
      rw [hsingle, List.mem_singleton] at hmn
      exact hmn ▸ harchived

end

section

variable {sha : String → String} {s : Store} {n : Note}

/-- A row keeps itself as its successor only where it has no duplicate. -/
theorem keptSuccessor_self_iff (hn : n ∈ s.rows) (h : s.IsEarliest sha n) :
    keptSuccessor (duplicateGroups sha s.allNotesForDedup) n = some n.id
      ↔ n.supersededBy = some n.id ∧ ∀ m ∈ s.rows, SameContent sha m n → m = n := by
  rcases earliest_cases hn h with ⟨g, hg, hgroup, hsurvivor, hmembers⟩ | ⟨hgroup, hsingle⟩
  · refine iff_of_false ?_ ?_
    · rw [keptSuccessor, hgroup]
      intro hhead
      obtain ⟨m, -, hm⟩ := List.mem_filterMap.mp (List.mem_of_head? hhead)
      obtain ⟨v, -, hv⟩ := Option.bind_eq_some_iff.mp hm
      simp only [resolve, hsurvivor] at hv
      split at hv
      · exact absurd hv (by simp)
      case isFalse hne => exact hne (Option.some.inj hv)
    · rintro ⟨-, honly⟩
      -- a group has a loser, of the same content
      obtain ⟨entity, -, hmade⟩ := List.mem_filterMap.mp hg
      rw [duplicateGroup?] at hmade
      split at hmade
      case h_1 survivor loser losers heq =>
        obtain rfl := Option.some.inj hmade
        have hloser : loser ∈ s.sameContent sha n := hmembers ▸ by simp [DuplicateGroup.members]
        obtain ⟨hrow, hsame⟩ := mem_sameContent.mp hloser
        have hisLoser : IsLoser (duplicateGroups sha s.allNotesForDedup) loser.id :=
          ⟨_, hg, loser, List.mem_cons_self, rfl⟩
        rw [honly loser hrow hsame] at hisLoser
        exact (isLoser_iff_not_isEarliest hn).mp hisLoser h
      case h_2 => exact absurd hmade (by simp)
  · have honly : ∀ m ∈ s.rows, SameContent sha m n → m = n := by
      intro m hm hsame
      have hmn := mem_sameContent.mpr ⟨hm, hsame⟩
      rwa [hsingle, List.mem_singleton] at hmn
    rw [keptSuccessor, hgroup, and_iff_left honly]
    show n.supersededBy.map _ = some n.id ↔ _
    rw [Option.map_eq_some_iff]
    constructor
    · rintro ⟨v, hv, htarget⟩
      cases hloser : loserToSurvivor (duplicateGroups sha s.allNotesForDedup) v with
      | none =>
        rw [hloser] at htarget
        exact hv.trans (congrArg some htarget)
      | some t =>
        rw [hloser] at htarget
        obtain ⟨g, hg, hid⟩ := exists_of_loserToSurvivor hloser
        have hfind := List.find?_eq_none.mp hgroup g hg
        exact absurd (decide_eq_true (hid.trans htarget)) hfind
    · intro hself
      refine ⟨n.id, hself, ?_⟩
      have hnot : ¬ (loserToSurvivor (duplicateGroups sha s.allNotesForDedup) n.id).isSome := by
        rw [loserToSurvivor_isSome_iff, isLoser_iff_not_isEarliest hn]
        exact not_not_intro h
      rw [Option.not_isSome_iff_eq_none.mp hnot, Option.getD_none]

/-- The successor a row is left with comes from some row of its content. -/
theorem exists_of_keptSuccessor (hn : n ∈ s.rows) {t : NoteId}
    (h : keptSuccessor (duplicateGroups sha s.allNotesForDedup) n = some t) :
    ∃ a ∈ s.rows, SameContent sha a n ∧ ∃ v, a.supersededBy = some v
      ∧ (loserToSurvivor (duplicateGroups sha s.allNotesForDedup) v).getD v = t := by
  rw [keptSuccessor] at h
  split at h
  case h_1 g hgroup =>
    have hg := List.mem_of_find?_eq_some hgroup
    have hid : g.survivor.id = n.id := by simpa using List.find?_some hgroup
    have hsurvivor : g.survivor = n := List.inj_on_of_nodup_map allNotesForDedup_ids
      (mem_of_mem_members hg List.mem_cons_self) (mem_allNotesForDedup.mpr hn) hid
    obtain ⟨a, ha, hv⟩ := List.mem_filterMap.mp (List.mem_of_head? h)
    obtain ⟨v, hav, hv⟩ := Option.bind_eq_some_iff.mp hv
    rw [members_eq_of_survivor hg hsurvivor] at ha
    obtain ⟨hrow, hsame⟩ := mem_sameContent.mp ha
    refine ⟨a, hrow, hsame, v, hav, ?_⟩
    simp only [resolve] at hv
    split at hv
    · exact absurd hv (by simp)
    · exact Option.some.inj hv
  case h_2 =>
    obtain ⟨v, hv, htarget⟩ := Option.map_eq_some_iff.mp h
    exact ⟨n, hn, rfl, v, hv, htarget⟩

theorem exists_of_turned {b : Note} (hb : b ∈ s.rows) {v : NoteId}
    (h : (loserToSurvivor (duplicateGroups sha s.allNotesForDedup) v).getD v = b.id) :
    ∃ b₀ ∈ s.rows, SameContent sha b₀ b ∧ b₀.id = v := by
  cases hloser : loserToSurvivor (duplicateGroups sha s.allNotesForDedup) v with
  | none =>
    rw [hloser] at h
    exact ⟨b, hb, rfl, h.symm⟩
  | some t =>
    rw [hloser] at h
    obtain ⟨g, hfind, hid⟩ := Option.map_eq_some_iff.mp hloser
    have hg := List.mem_of_find?_eq_some hfind
    have hany := List.find?_some hfind
    obtain ⟨b₀, hb₀, hv⟩ := List.any_eq_true.mp hany
    have hmem : b₀ ∈ g.members := List.mem_cons_of_mem _ hb₀
    have hsurvivor : g.survivor = b := List.inj_on_of_nodup_map allNotesForDedup_ids
      (mem_of_mem_members hg List.mem_cons_self) (mem_allNotesForDedup.mpr hb) (hid.trans h)
    rw [members_eq_of_survivor hg hsurvivor] at hmem
    obtain ⟨hrow, hsame⟩ := mem_sameContent.mp hmem
    exact ⟨b₀, hrow, hsame, of_decide_eq_true hv⟩

end

/-! ## The quotient -/

section

variable {env : DedupeEnv} {s s' : Store}

theorem sameContent_rewrittenRow (groups : List DuplicateGroup) (n : Note) :
    SameContent env.sha (rewrittenRow env.toStoreEnv groups n) n := by
  rw [rewrittenRow]
  cases survivorGroup? groups n.id <;> rfl

theorem isEarliest_of_only {n : Note} (hn : n ∈ s.rows)
    (honly : ∀ m ∈ s.rows, SameContent env.sha m n → m = n) : s.IsEarliest env.sha n := by
  rw [isEarliest_iff]
  have hself : n ∈ s.sameContent env.sha n := mem_sameContent.mpr ⟨hn, rfl⟩
  obtain ⟨first, rest, hcons⟩ := List.exists_cons_of_ne_nil (List.ne_nil_of_mem hself)
  obtain ⟨hrow, hsame⟩ := mem_sameContent.mp (hcons ▸ List.mem_cons_self : first ∈ s.sameContent _ n)
  rw [hcons, honly first hrow hsame]
  rfl

theorem isEarliest_unique {n m : Note} (hn : s.IsEarliest env.sha n) (hm : s.IsEarliest env.sha m)
    (hsame : SameContent env.sha n m) : n = m := by
  rw [isEarliest_iff] at hn hm
  have hlist : s.sameContent env.sha n = s.sameContent env.sha m := by
    rw [Store.sameContent, Store.sameContent]
    exact List.filter_congr fun k _ => decide_eq_decide.mpr
      ⟨fun h => h.trans hsame, fun h => h.trans hsame.symm⟩
  rw [hlist, hm] at hn
  exact (Option.some.inj hn).symm

/-- What a run that went through left, row by row. -/
def Rewritten (env : DedupeEnv) (s s' : Store) : Prop :=
  s'.rows = (s.rows.map
      (rewrittenRow env.toStoreEnv (duplicateGroups env.sha s.allNotesForDedup))).filter
    fun n => ¬ IsLoser (duplicateGroups env.sha s.allNotesForDedup) n.id

theorem Rewritten.mem_rows (h : Rewritten env s s') {n' : Note} :
    n' ∈ s'.rows ↔ ∃ n ∈ s.rows, s.IsEarliest env.sha n
      ∧ rewrittenRow env.toStoreEnv (duplicateGroups env.sha s.allNotesForDedup) n = n' := by
  rw [h, List.mem_filter, List.mem_map, decide_eq_true_eq]
  constructor
  · rintro ⟨⟨n, hn, rfl⟩, hfree⟩
    rw [rewrittenRow_id, isLoser_iff_not_isEarliest hn, not_not] at hfree
    exact ⟨n, hn, hfree, rfl⟩
  · rintro ⟨n, hn, hearliest, rfl⟩
    refine ⟨⟨n, hn, rfl⟩, ?_⟩
    rw [rewrittenRow_id, isLoser_iff_not_isEarliest hn]
    exact not_not_intro hearliest

theorem Rewritten.survivors (h : Rewritten env s s') :
    s'.rows.map Note.id = (s.rows.filter fun n => s.IsEarliest env.sha n).map Note.id := by
  rw [h, List.filter_map, List.map_map]
  have hid : Note.id ∘ rewrittenRow env.toStoreEnv (duplicateGroups env.sha s.allNotesForDedup)
      = Note.id := funext fun n => rewrittenRow_id n
  rw [hid]
  refine congrArg _ (List.filter_congr fun n hn => decide_eq_decide.mpr ?_)
  rw [rewrittenRow_id, isLoser_iff_not_isEarliest hn, not_not]

theorem Rewritten.mem_ids (h : Rewritten env s s') {m : Note} (hm : m ∈ s.rows) :
    m.id ∈ s'.rows.map Note.id ↔ s.IsEarliest env.sha m := by
  rw [h.survivors, List.mem_map]
  constructor
  · rintro ⟨n, hn, hid⟩
    obtain ⟨hrow, hearliest⟩ := List.mem_filter.mp hn
    obtain rfl := List.inj_on_of_nodup_map s.uuidUnique hrow hm hid
    exact of_decide_eq_true hearliest
  · exact fun hearliest => ⟨m, List.mem_filter.mpr ⟨hm, decide_eq_true hearliest⟩, rfl⟩

theorem Rewritten.alive (h : Rewritten env s s') {n' m : Note} (hn' : n' ∈ s'.rows)
    (hm : m ∈ s.rows) (hsuper : n'.supersededBy = some m.id) : m.id ∈ s'.rows.map Note.id := by
  obtain ⟨n, -, -, rfl⟩ := h.mem_rows.mp hn'
  rw [rewrittenRow_supersededBy] at hsuper
  have hfree := not_isLoser_keptSuccessor allNotesForDedup_ids hsuper
  rw [isLoser_iff_not_isEarliest hm, not_not] at hfree
  exact (h.mem_ids hm).mpr hfree

theorem Rewritten.succession (h : Rewritten env s s') {a b : Note} (ha : a ∈ s'.rows)
    (hb : b ∈ s'.rows) (hsuper : a.supersededBy = some b.id) :
    ∃ a₀ ∈ s.rows, ∃ b₀ ∈ s.rows, SameContent env.sha a₀ a ∧ SameContent env.sha b₀ b
      ∧ a₀.supersededBy = some b₀.id := by
  obtain ⟨a₁, ha₁, -, rfl⟩ := h.mem_rows.mp ha
  obtain ⟨b₁, hb₁, -, rfl⟩ := h.mem_rows.mp hb
  rw [rewrittenRow_supersededBy, rewrittenRow_id] at hsuper
  obtain ⟨a₀, ha₀, hsame, v, hv, hturned⟩ := exists_of_keptSuccessor ha₁ hsuper
  obtain ⟨b₀, hb₀, hsame', rfl⟩ := exists_of_turned hb₁ hturned
  exact ⟨a₀, ha₀, b₀, hb₀, hsame.trans (sameContent_rewrittenRow _ a₁).symm,
    hsame'.trans (sameContent_rewrittenRow _ b₁).symm, hv⟩

/-- No row is left superseded by itself exactly when those that were have a duplicate. -/
theorem Rewritten.apart_iff (h : Rewritten env s s') :
    (∀ n' ∈ s'.rows, n'.supersededBy ≠ some n'.id)
      ↔ ∀ n ∈ s.rows, n.supersededBy = some n.id → ∃ m ∈ s.rows, m ≠ n ∧ SameContent env.sha m n := by
  constructor
  · intro hapart n hn hself
    by_contra hno
    have honly : ∀ m ∈ s.rows, SameContent env.sha m n → m = n := by
      intro m hm hsame
      by_contra hne
      exact hno ⟨m, hm, hne, hsame⟩
    have hearliest := isEarliest_of_only hn honly
    refine hapart _ (h.mem_rows.mpr ⟨n, hn, hearliest, rfl⟩) ?_
    rw [rewrittenRow_supersededBy, rewrittenRow_id]
    exact (keptSuccessor_self_iff hn hearliest).mpr ⟨hself, honly⟩
  · intro hdup n' hn' hself
    obtain ⟨n, hn, hearliest, rfl⟩ := h.mem_rows.mp hn'
    rw [rewrittenRow_supersededBy, rewrittenRow_id, keptSuccessor_self_iff hn hearliest] at hself
    obtain ⟨m, hm, hne, hsame⟩ := hdup n hn hself.1
    exact hne (hself.2 m hm hsame)

/-- A row ends with the values of its content exactly when those it lacks are spelt anew as
    they are. -/
theorem union_iff_settles {held : List String} {others : String → Prop} {f : String → Option String}
    (hheld : ∀ t ∈ held, others t) :
    (∀ t, (t ∈ held ∨ ∃ u, others u ∧ u ∉ held ∧ f u = some t) ↔ others t)
      ↔ Settles f held others := by
  refine forall_congr' fun t => ?_
  by_cases ht : t ∈ held
  · exact iff_of_true (iff_of_true (.inl ht) (hheld t ht)) fun hnot => absurd ht hnot
  · rw [or_iff_right ht]
    exact ⟨fun hiff _ => hiff, fun hiff => hiff ht⟩

theorem Rewritten.forall_rows (h : Rewritten env s s') {P : Note → Prop} :
    (∀ n' ∈ s'.rows, P n') ↔ ∀ n ∈ s.rows, s.IsEarliest env.sha n →
      P (rewrittenRow env.toStoreEnv (duplicateGroups env.sha s.allNotesForDedup) n) := by
  constructor
  · exact fun hall n hn hearliest => hall _ (h.mem_rows.mpr ⟨n, hn, hearliest, rfl⟩)
  · intro hall n' hn'
    obtain ⟨n, hn, hearliest, rfl⟩ := h.mem_rows.mp hn'
    exact hall n hn hearliest

theorem sameContent_rewrittenRow_iff {groups : List DuplicateGroup} {m n : Note} :
    SameContent env.sha m (rewrittenRow env.toStoreEnv groups n) ↔ SameContent env.sha m n :=
  ⟨fun h => h.trans (sameContent_rewrittenRow _ n),
    fun h => h.trans (sameContent_rewrittenRow _ n).symm⟩

/-- A run that went through left the quotient exactly when the merges go right. -/
theorem Rewritten.quotient_iff (h : Rewritten env s s') :
    ContentQuotient env.sha s s' ↔ Collapsible env s := by
  -- a survivor stands for its contents: each part of the quotient is a condition on its row
  have htags : (∀ n' ∈ s'.rows, ∀ t, t ∈ n'.tags
      ↔ ∃ m ∈ s.rows, SameContent env.sha m n' ∧ t ∈ m.tags)
        ↔ ∀ n ∈ s.rows, s.IsEarliest env.sha n → Settles env.normalizeTag n.tags
          fun t => ∃ m ∈ s.rows, SameContent env.sha m n ∧ t ∈ m.tags := by
    refine h.forall_rows.trans (forall_congr' fun n => forall_congr' fun hn =>
      forall_congr' fun hearliest => ?_)
    rw [← union_iff_settles fun t ht => ⟨n, hn, rfl, ht⟩]
    exact forall_congr' fun t => by
      rw [mem_rewrittenRow_tags hn hearliest]
      simp only [sameContent_rewrittenRow_iff]
  have hfiles : (∀ n' ∈ s'.rows, ∀ f, f ∈ n'.linkedFiles
      ↔ ∃ m ∈ s.rows, SameContent env.sha m n' ∧ f ∈ m.linkedFiles)
        ↔ ∀ n ∈ s.rows, s.IsEarliest env.sha n → Settles env.linkPath n.linkedFiles
          fun f => ∃ m ∈ s.rows, SameContent env.sha m n ∧ f ∈ m.linkedFiles := by
    refine h.forall_rows.trans (forall_congr' fun n => forall_congr' fun hn =>
      forall_congr' fun hearliest => ?_)
    rw [← union_iff_settles fun t ht => ⟨n, hn, rfl, ht⟩]
    exact forall_congr' fun t => by
      rw [mem_rewrittenRow_linkedFiles hn hearliest]
      simp only [sameContent_rewrittenRow_iff]
  -- only an active survivor can still be archived
  have harchived : (∀ n' ∈ s'.rows, n'.status = "archived"
      ↔ ∃ m ∈ s.rows, SameContent env.sha m n' ∧ m.status = "archived")
        ↔ ∀ n ∈ s.rows, s.IsEarliest env.sha n → ∀ m ∈ s.rows, SameContent env.sha m n →
          m.status = "archived" → n.status = "active" ∨ n.status = "archived" := by
    refine h.forall_rows.trans (forall_congr' fun n => forall_congr' fun hn =>
      forall_congr' fun hearliest => ?_)
    rw [rewrittenRow_archived_iff hn hearliest]
    simp only [sameContent_rewrittenRow_iff]
    constructor
    · intro hiff m hm hsame hm'
      rcases hiff.mpr ⟨m, hm, hsame, hm'⟩ with harchived | ⟨hactive, -⟩
      · exact .inr harchived
      · exact .inl hactive
    · intro hcovers
      constructor
      · rintro (harchived | ⟨-, hsome⟩)
        · exact ⟨n, hn, rfl, harchived⟩
        · exact hsome
      · rintro ⟨m, hm, hsame, hm'⟩
        rcases hcovers m hm hsame hm' with hactive | harchived
        · exact .inr ⟨hactive, m, hm, hsame, hm'⟩
        · exact .inl harchived
  constructor
  · intro hq
    exact ⟨h.apart_iff.mp hq.apart, harchived.mp hq.archived, htags.mp hq.tags,
      hfiles.mp hq.linkedFiles⟩
  · intro hc
    refine ⟨h.survivors, fun n' hn' n hn hid => ?_, fun n' hn' m hm => h.alive hn' hm,
      h.apart_iff.mpr hc.apart, fun a ha b hb => h.succession ha hb, htags.mpr hc.tags,
      hfiles.mpr hc.linkedFiles, harchived.mpr hc.archives⟩
    obtain ⟨n₀, hn₀, -, rfl⟩ := h.mem_rows.mp hn'
    rw [rewrittenRow_id] at hid
    obtain rfl := List.inj_on_of_nodup_map s.uuidUnique hn₀ hn hid
    exact sameContent_rewrittenRow _ n₀

theorem Rewritten.no_groups (h : Rewritten env s s') :
    duplicateGroups env.sha s'.allNotesForDedup = [] := by
  rw [List.eq_nil_iff_forall_not_mem]
  intro g hg
  obtain ⟨entity, -, hmade⟩ := List.mem_filterMap.mp hg
  rw [duplicateGroup?] at hmade
  split at hmade
  case h_1 survivor loser losers heq =>
    obtain rfl := Option.some.inj hmade
    have hmem (n : Note) (hn : n ∈ survivor :: loser :: losers) :
        n ∈ s'.rows ∧ noteEntityId env.sha n = entity := by
      rw [← heq, List.mem_filter, mem_allNotesForDedup, decide_eq_true_eq] at hn
      exact hn
    obtain ⟨hsurvivor, hcontent⟩ := hmem survivor List.mem_cons_self
    obtain ⟨hloser, hcontent'⟩ := hmem loser (List.mem_cons_of_mem _ List.mem_cons_self)
    obtain ⟨n, hn, hearliest, rfl⟩ := h.mem_rows.mp hsurvivor
    obtain ⟨m, hm, hearliest', rfl⟩ := h.mem_rows.mp hloser
    have hsame : SameContent env.sha n m :=
      (sameContent_rewrittenRow _ n).symm.trans
        ((hcontent.trans hcontent'.symm).trans (sameContent_rewrittenRow _ m))
    obtain rfl := isEarliest_unique hearliest hearliest' hsame
    refine not_isLoser_survivor allNotesForDedup_ids hg ⟨_, hg, _, List.mem_cons_self, rfl⟩
  case h_2 => exact absurd hmade (by simp)

end

/-! ## The transaction -/

section

variable {env : DedupeEnv} {faults : Faults} {groups : List DuplicateGroup} {s s' : Store}
variable {l : List Note} {i : Nat}

/-- Phase 1 goes through without a refused path, and as if nothing could fail. -/
theorem collapseSurvivors_eq_some {l : List DuplicateGroup}
    (h : collapseSurvivors env faults groups i l s = some s') :
    (∀ g ∈ l, (planGroup groups g).newFiles.any env.refuses = false)
      ∧ s' = l.foldl (collapseGroupSurvivor env.toStoreEnv groups) s := by
  induction l generalizing i s with
  | nil => exact ⟨by simp, (Option.some.inj h).symm⟩
  | cons g l ih =>
    rw [collapseSurvivors] at h
    split at h
    case isTrue => exact absurd h (by simp)
    case isFalse hok =>
      obtain ⟨hrest, rfl⟩ := ih h
      refine ⟨?_, rfl⟩
      rw [List.forall_mem_cons]
      rw [Bool.or_eq_true, not_or] at hok
      exact ⟨Bool.eq_false_iff.mpr hok.1, hrest⟩

theorem collapseSurvivors_none {l : List DuplicateGroup}
    (h : ∀ g ∈ l, (planGroup groups g).newFiles.any env.refuses = false) :
    collapseSurvivors env .none groups i l s
      = some (l.foldl (collapseGroupSurvivor env.toStoreEnv groups) s) := by
  induction l generalizing i s with
  | nil => rfl
  | cons g l ih =>
    rw [collapseSurvivors, h g List.mem_cons_self]
    exact ih fun g' hg' => h g' (List.mem_cons_of_mem _ hg')

theorem rewriteCrossReferences_eq_some (h : rewriteCrossReferences faults groups i l s = some s') :
    s' = l.foldl (rewriteReference groups) s := by
  induction l generalizing i s with
  | nil => exact (Option.some.inj h).symm
  | cons n l ih =>
    rw [rewriteCrossReferences] at h
    split at h
    · exact absurd h (by simp)
    · exact ih h

theorem rewriteCrossReferences_none :
    rewriteCrossReferences .none groups i l s = some (l.foldl (rewriteReference groups) s) := by
  induction l generalizing i s with
  | nil => rfl
  | cons n l ih => exact ih

theorem deleteLosers_eq_some
    (h : deleteLosers faults i l s = some s') : deleteNotes s l = some s' := by
  induction l generalizing i s with
  | nil => exact h
  | cons n l ih =>
    rw [deleteLosers] at h
    obtain ⟨s₁, hdelete, hrest⟩ := Option.bind_eq_some_iff.mp h
    split at hrest
    · exact absurd hrest (by simp)
    · rw [deleteNotes, hdelete, Option.bind_some]
      exact ih hrest

theorem deleteLosers_none : deleteLosers .none i l s = deleteNotes s l := by
  induction l generalizing i s with
  | nil => rfl
  | cons n l ih =>
    rw [deleteLosers, deleteNotes]
    exact congrArg _ (funext fun s₁ => ih)

/-- No path leaves the project exactly when no group's merge is refused. -/
theorem pathsStay_iff : PathsStay env s ↔ ∀ g ∈ duplicateGroups env.sha s.allNotesForDedup,
    (planGroup (duplicateGroups env.sha s.allNotesForDedup) g).newFiles.any env.refuses = false := by
  simp only [List.any_eq_false, Bool.not_eq_true]
  constructor
  · intro hstay g hg f hf
    have hsurvivor := mem_allNotesForDedup.mp (mem_of_mem_members hg List.mem_cons_self)
    obtain ⟨⟨m, hm, hsame, hfm⟩, hheld⟩ :=
      (mem_newValues_group rfl (members_eq_of_survivor hg rfl) Note.linkedFiles).mp hf
    exact hstay g.survivor hsurvivor (isEarliest_survivor hg) m hm hsame f hfm hheld
  · intro hgroups n hn hearliest m hm hsame f hf hheld
    rcases earliest_cases hn hearliest with ⟨g, hg, -, hsurvivor, hmembers⟩ | ⟨-, hsingle⟩
    · refine hgroups g hg f ?_
      exact (mem_newValues_group hsurvivor hmembers Note.linkedFiles).mpr ⟨⟨m, hm, hsame, hf⟩, hheld⟩
    · have hmn := mem_sameContent.mpr ⟨hm, hsame⟩
      rw [hsingle, List.mem_singleton] at hmn
      exact absurd (hmn ▸ hf) hheld

/-- What a transaction leaves when no statement fails and no path is refused. -/
def Store.dedupedRows (env : DedupeEnv) (s : Store) : Option Store :=
  deleteNotes
    (rewriteAll env.toStoreEnv (duplicateGroups env.sha s.allNotesForDedup) s)
    ((duplicateGroups env.sha s.allNotesForDedup).flatMap DuplicateGroup.losers)

theorem dedupeTransaction_eq_some (h : s.dedupeTransaction env faults = some s') :
    PathsStay env s ∧ s.dedupedRows env = some s' := by
  obtain ⟨s₁, hphase1, hrest⟩ := Option.bind_eq_some_iff.mp h
  obtain ⟨s₂, hphase2, hphase3⟩ := Option.bind_eq_some_iff.mp hrest
  obtain ⟨hstay, rfl⟩ := collapseSurvivors_eq_some hphase1
  obtain rfl := rewriteCrossReferences_eq_some hphase2
  exact ⟨pathsStay_iff.mpr hstay, deleteLosers_eq_some hphase3⟩

theorem dedupeTransaction_none (h : PathsStay env s) :
    s.dedupeTransaction env .none = s.dedupedRows env := by
  rw [Store.dedupeTransaction]
  simp only [collapseSurvivors_none (pathsStay_iff.mp h), Option.bind_some,
    rewriteCrossReferences_none, deleteLosers_none]
  rfl

theorem rewritten_of_no_groups (h : duplicateGroups env.sha s.allNotesForDedup = []) :
    Rewritten env s s := by
  obtain ⟨s₁, hs₁, hrows, -⟩ := s.dedupeEntityIds_rows env.toStoreEnv
  have hs : s₁ = s := by
    simp only [Store.dedupeEntityIds, h, true_or, if_true, Option.some.injEq, Prod.mk.injEq] at hs₁
    exact hs₁.2.symm
  exact hs ▸ hrows

theorem rewritten_of_dedupedRows (hsome : duplicateGroups env.sha s.allNotesForDedup ≠ [])
    (h : s.dedupedRows env = some s') : Rewritten env s s' := by
  obtain ⟨s₁, hs₁, hrows, -⟩ := s.dedupeEntityIds_rows env.toStoreEnv
  have hs : s₁ = s' := by
    rw [Store.dedupedRows] at h
    simp only [Store.dedupeEntityIds, hsome, Bool.false_eq_true, or_false, if_false, h,
      Option.map_some, Option.some.injEq, Prod.mk.injEq] at hs₁
    exact hs₁.2.symm
  exact hs ▸ hrows

/-! ## Runs -/

/-- A run is rolled back, finds no group, or commits its transaction. -/
theorem dedupeRun_cases (env : DedupeEnv) (faults : Faults) (s : Store) :
    s.dedupeRun env faults false = (none, s)
      ∨ faults.read = false ∧ ∃ s', s.dedupeRun env faults false
          = (some (dedupeSummary (duplicateGroups env.sha s.allNotesForDedup)
            s.allNotesForDedup), s')
        ∧ (duplicateGroups env.sha s.allNotesForDedup = [] ∧ s' = s
          ∨ duplicateGroups env.sha s.allNotesForDedup ≠ []
            ∧ s.dedupeTransaction env faults = some s') := by
  simp only [Store.dedupeRun, Bool.false_eq_true, or_false]
  cases hread : faults.read with
  | true => exact .inl rfl
  | false =>
    by_cases hnone : duplicateGroups env.sha s.allNotesForDedup = []
    · exact .inr ⟨rfl, s, by simp [hnone], .inl ⟨hnone, rfl⟩⟩
    · cases hstart : faults.start with
      | true => exact .inl (by simp [hnone])
      | false =>
        cases htransaction : s.dedupeTransaction env faults with
        | none => exact .inl (by simp [hnone])
        | some s' =>
          cases hcommit : faults.commit with
          | true => exact .inl (by simp [hnone])
          | false => exact .inr ⟨rfl, s', by simp [hnone], .inr ⟨hnone, rfl⟩⟩

/-- A run that reports a summary had no path refused, and left its rows rewritten. -/
theorem dedupeRun_eq_some {summary : DedupeSummary}
    (h : (s.dedupeRun env faults false).1 = some summary) :
    PathsStay env s ∧ Rewritten env s (s.dedupeRun env faults false).2
      ∧ (s.dedupeRun env faults true).1 = some summary := by
  rcases dedupeRun_cases env faults s with hfail | ⟨hread, s', hrun, hleft⟩
  · rw [hfail] at h
    exact absurd h (by simp)
  · have hdry : (s.dedupeRun env faults true).1
        = some (dedupeSummary (duplicateGroups env.sha s.allNotesForDedup) s.allNotesForDedup) := by
      simp [Store.dedupeRun, hread]
    rw [hrun] at h ⊢
    rcases hleft with ⟨hnone, rfl⟩ | ⟨hsome, htransaction⟩
    · refine ⟨pathsStay_iff.mpr (by simp [hnone]), ?_, hdry.trans h⟩
      exact rewritten_of_no_groups hnone
    · obtain ⟨hstay, hrows⟩ := dedupeTransaction_eq_some htransaction
      exact ⟨hstay, rewritten_of_dedupedRows hsome hrows, hdry.trans h⟩

theorem dedupeRun_eq_none (h : (s.dedupeRun env faults false).1 = none) :
    (s.dedupeRun env faults false).2 = s := by
  rcases dedupeRun_cases env faults s with hfail | ⟨-, s', hrun, -⟩
  · rw [hfail]
  · rw [hrun] at h
    exact absurd h (by simp)

/-- Where no path is refused and nothing fails, a run reports a summary. -/
theorem dedupeRun_none (h : PathsStay env s) :
    ∃ summary, (s.dedupeRun env .none false).1 = some summary := by
  obtain ⟨s₁, hs₁, -⟩ := s.dedupeEntityIds_rows env.toStoreEnv
  refine ⟨dedupeSummary (duplicateGroups env.sha s.allNotesForDedup) s.allNotesForDedup, ?_⟩
  rw [Store.dedupeRun]
  by_cases hnone : duplicateGroups env.sha s.allNotesForDedup = []
  · simp [Faults.none, hnone]
  · have hrows : s.dedupedRows env = some s₁ := by
      simp only [Store.dedupeEntityIds, hnone, Bool.false_eq_true, or_false, if_false,
        Option.map_eq_some_iff, Prod.mk.injEq] at hs₁
      obtain ⟨s₂, hs₂, -, rfl⟩ := hs₁
      exact hs₂
    simp only [(dedupeTransaction_none h).trans hrows]
    simp [Faults.none, hnone]

end

/-- A run leaves the quotient of a store by content, reports what a dry run reports and
    changes nothing the second time, or fails and leaves the store as it is, exactly for
    the stores whose merges are refused or go right. -/
theorem dedupeHolds_iff (env : DedupeEnv) (s : Store) :
    DedupeHolds env s ↔ (PathsStay env s → Collapsible env s) := by
  constructor
  · intro h hstay
    obtain ⟨summary, hsummary⟩ := dedupeRun_none hstay
    obtain ⟨-, hrewritten, -⟩ := dedupeRun_eq_some hsummary
    exact hrewritten.quotient_iff.mp ((h .none).1 summary hsummary).1
  · intro h faults
    refine ⟨fun summary hsummary => ?_, dedupeRun_eq_none⟩
    obtain ⟨hstay, hrewritten, hdry⟩ := dedupeRun_eq_some hsummary
    refine ⟨hrewritten.quotient_iff.mpr (h hstay), hdry, fun faults' => ?_⟩
    generalize (s.dedupeRun env faults false).2 = s' at hrewritten
    -- without groups a run writes nothing
    rw [Store.dedupeRun]
    simp only [hrewritten.no_groups, true_or, if_true]
    split <;> rfl

/-! ## A status a dump carries -/

/-- A row as a dump carries it, with a convergence key and a status of its own. -/
def carriedRow (token entityId : String) (createdAt : Int) (status : String) : Note where
  id := ⟨token⟩
  entityId := entityId
  kind := "decision"
  title := "Old choice"
  body := "we did X"
  tags := []
  linkedFiles := []
  createdAt := createdAt
  status := status
  supersededBy := none
  sourceRef := none
  validAt := none
  invalidAt := none
  remoteId := none
  origin := none

/-- One content under two carried keys: superseded in the older row, archived in the other. -/
def carriedStore : Store where
  rows := [carriedRow "a" "ent-1" 1000 "superseded", carriedRow "b" "ent-2" 2000 "archived"]
  edges := []
  uuidUnique := by decide
  entityUnique := by decide
  remoteUnique := List.nodup_nil

def plainDedupeEnv : DedupeEnv := { plainEnv with escapes := fun _ => false }

/-- The survivor keeps the dump's status, and what was archived is not. -/
theorem not_dedupeHolds_of_superseded : ¬ DedupeHolds plainDedupeEnv carriedStore := by
  intro h
  have hsummary : (carriedStore.dedupeRun plainDedupeEnv .none false).1
      = some ⟨2, 1, 1, 0, 0, 0, 0⟩ := by
    decide +kernel
  have hrows : (carriedStore.dedupeRun plainDedupeEnv .none false).2.rows
      = [carriedRow "a" "ent-1" 1000 "superseded"] := by
    decide +kernel
  have harchived := ((h .none).1 _ hsummary).1.archived
  rw [hrows] at harchived
  have hlost := (harchived _ List.mem_cons_self).mpr
    ⟨carriedRow "b" "ent-2" 2000 "archived", by decide, rfl, rfl⟩
  exact absurd hlost (by decide)

end Memory
end Inkentry
