/-
  Inkentry.Memory.ReconcileRun

  What `memory reconcile` does with its candidates.

  Rows collapse one after the other: `Folds` is what an entry has of the rows read
  so far, and the entries together have each row once (`Collapsed`).  The import
  then adds one row an entry, and the succession step writes one column of it.
-/

import Inkentry.Memory.Reconcile

namespace Inkentry
namespace Memory
namespace Reconcile

open OrderLimit SortedSet

/-! ## Collapsing -/

theorem mem_foldl_pushNew {new list : List String} {x : String} :
    x ∈ new.foldl pushNew list ↔ x ∈ list ∨ x ∈ new := by
  induction new generalizing list with
  | nil => simp
  | cons y new ih =>
    have hpush : x ∈ pushNew list y ↔ x ∈ list ∨ x = y := by
      rw [pushNew]
      split
      case isTrue h =>
        constructor
        · exact Or.inl
        · rintro (hx | rfl)
          · exact hx
          · exact h
      case isFalse => rw [List.mem_append, List.mem_singleton]
    rw [List.foldl_cons, ih, hpush, List.mem_cons, or_assoc]

section Collapse

variable {sha : String → String}
variable {c : ServerNote} {merged : List MergedNote}

/-- An entry has what the rows of its entity have between them. -/
structure Folds (sha : String → String) (candidates : List ServerNote) (m : MergedNote) : Prop where
  content : entityId sha m.kind m.title m.body = m.entityId
  tags : ∀ t, t ∈ m.tags ↔ ∃ c ∈ group sha candidates m.entityId, t ∈ c.tags
  linkedFiles : ∀ f, f ∈ m.linkedFiles ↔ ∃ c ∈ group sha candidates m.entityId, f ∈ c.linkedFiles
  archived : m.status = "archived" ↔ ∃ c ∈ group sha candidates m.entityId, c.isArchived = true
  positive : 0 < m.sourceRows

/-- The entries of some rows. -/
structure Collapsed (sha : String → String) (candidates : List ServerNote)
    (merged : List MergedNote) : Prop where
  distinct : (merged.map MergedNote.entityId).Nodup
  folds : ∀ m ∈ merged, Folds sha candidates m
  covers : ∀ c ∈ candidates, ∃ m ∈ merged, m.entityId = c.entityId sha
  total : (merged.map MergedNote.sourceRows).sum = candidates.length

theorem group_concat (candidates : List ServerNote) (c : ServerNote) (entity : String) :
    group sha (candidates ++ [c]) entity
      = if c.entityId sha = entity then group sha candidates entity ++ [c]
        else group sha candidates entity := by
  rw [group, List.filter_append, group]
  split
  case isTrue h => rw [List.filter_cons_of_pos (by simpa using h), List.filter_nil]
  case isFalse h => rw [List.filter_cons_of_neg (by simpa using h), List.filter_nil, List.append_nil]

theorem Folds.absorb {candidates : List ServerNote} {m : MergedNote} (h : Folds sha candidates m)
    (hc : m.entityId = c.entityId sha) : Folds sha (candidates ++ [c]) (m.absorb c) := by
  have hgroup : group sha (candidates ++ [c]) (m.absorb c).entityId
      = group sha candidates m.entityId ++ [c] := by
    rw [group_concat]
    exact if_pos hc.symm
  have hlast (P : ServerNote → Prop) : (∃ d ∈ group sha candidates m.entityId ++ [c], P d)
      ↔ (∃ d ∈ group sha candidates m.entityId, P d) ∨ P c := by
    simp only [List.mem_append, List.mem_singleton, or_and_right, exists_or, exists_eq_left]
  refine ⟨h.content, fun t => ?_, fun f => ?_, ?_, Nat.succ_pos _⟩
  · rw [hgroup, hlast, ← h.tags]
    exact mem_foldl_pushNew
  · rw [hgroup, hlast, ← h.linkedFiles]
    exact mem_foldl_pushNew
  · rw [hgroup, hlast, ← h.archived]
    show (if c.isArchived then "archived" else m.status) = "archived" ↔ _
    cases c.isArchived with
    | true => simp
    | false => simp

theorem Folds.concat_of_ne {candidates : List ServerNote} {m : MergedNote}
    (h : Folds sha candidates m) (hc : m.entityId ≠ c.entityId sha) :
    Folds sha (candidates ++ [c]) m := by
  have hgroup : group sha (candidates ++ [c]) m.entityId = group sha candidates m.entityId := by
    rw [group_concat, if_neg fun heq => hc heq.symm]
  exact ⟨h.content, fun t => hgroup ▸ h.tags t, fun f => hgroup ▸ h.linkedFiles f,
    hgroup ▸ h.archived, h.positive⟩

theorem folds_fromServer {candidates : List ServerNote}
    (h : ∀ d ∈ candidates, d.entityId sha ≠ c.entityId sha) :
    Folds sha (candidates ++ [c]) (.fromServer (c.entityId sha) c) := by
  have hnil : group sha candidates (c.entityId sha) = [] := by
    rw [group, List.filter_eq_nil_iff]
    intro d hd
    simpa using h d hd
  have hgroup : group sha (candidates ++ [c])
      (MergedNote.fromServer (c.entityId sha) c).entityId = [c] := by
    rw [group_concat]
    show (if c.entityId sha = c.entityId sha then group sha candidates (c.entityId sha) ++ [c] else _) = _
    rw [if_pos rfl, hnil, List.nil_append]
  have hone (P : ServerNote → Prop) : (∃ d ∈ [c], P d) ↔ P c := by
    simp only [List.mem_singleton, exists_eq_left]
  refine ⟨rfl, fun t => ?_, fun f => ?_, ?_, Nat.one_pos⟩
  · rw [hgroup, hone]
    rfl
  · rw [hgroup, hone]
    rfl
  · rw [hgroup, hone, ServerNote.isArchived, decide_eq_true_eq]
    rfl

/-- Adding one to the entry of an entity adds one to the sum. -/
theorem sum_map_absorb {entity : String} (hdistinct : (merged.map MergedNote.entityId).Nodup)
    (hmem : ∃ m ∈ merged, m.entityId = entity) :
    ((merged.map fun m => if m.entityId = entity then m.absorb c else m).map
      MergedNote.sourceRows).sum = (merged.map MergedNote.sourceRows).sum + 1 := by
  induction merged with
  | nil =>
    obtain ⟨m, hm, -⟩ := hmem
    cases hm
  | cons m merged ih =>
    obtain ⟨hfirst, hrest⟩ := List.nodup_cons.mp hdistinct
    simp only [List.map_cons, List.sum_cons]
    by_cases hm : m.entityId = entity
    · have hothers : (merged.map fun m => if m.entityId = entity then m.absorb c else m) = merged := by
        refine (List.map_congr_left fun m' hm' => ?_).trans (List.map_id merged)
        rw [if_neg, id]
        intro heq
        exact hfirst (List.mem_map.mpr ⟨m', hm', heq.trans hm.symm⟩)
      rw [if_pos hm, hothers]
      show m.sourceRows + 1 + _ = _
      omega
    · have hin : ∃ m ∈ merged, m.entityId = entity := by
        obtain ⟨m', hm', heq⟩ := hmem
        rcases List.mem_cons.mp hm' with rfl | hm'
        · exact absurd heq hm
        · exact ⟨m', hm', heq⟩
      rw [if_neg hm, ih hrest hin]
      omega

theorem Collapsed.step {candidates : List ServerNote} (h : Collapsed sha candidates merged)
    (c : ServerNote) : Collapsed sha (candidates ++ [c]) (collapseStep sha merged c) := by
  rw [collapseStep]
  split
  -- the entity is there: its merged row takes the candidate in
  case isTrue hany =>
    have hex : ∃ m ∈ merged, m.entityId = c.entityId sha := by
      simpa [List.any_eq_true] using hany
    have hids : (merged.map fun m => if m.entityId = c.entityId sha then m.absorb c else m).map
        MergedNote.entityId = merged.map MergedNote.entityId := by
      rw [List.map_map]
      refine List.map_congr_left fun m _ => ?_
      show (if m.entityId = c.entityId sha then m.absorb c else m).entityId = m.entityId
      split <;> rfl
    refine ⟨?_, ?_, ?_, ?_⟩
    · rw [hids]
      exact h.distinct
    · intro m' hm'
      obtain ⟨m, hm, rfl⟩ := List.mem_map.mp hm'
      split
      case isTrue heq => exact (h.folds m hm).absorb heq
      case isFalse hne => exact (h.folds m hm).concat_of_ne hne
    · have hcover : ∀ entity, (∃ m ∈ merged, m.entityId = entity) →
          ∃ m ∈ merged.map fun m => if m.entityId = c.entityId sha then m.absorb c else m,
            m.entityId = entity := by
        rintro entity ⟨m, hm, rfl⟩
        have hmem : m.entityId ∈ merged.map MergedNote.entityId := List.mem_map_of_mem hm
        rw [← hids] at hmem
        exact List.mem_map.mp hmem
      intro d hd
      rcases List.mem_append.mp hd with hd | hd
      · exact hcover _ (h.covers d hd)
      · rw [List.mem_singleton.mp hd]
        exact hcover _ hex
    · rw [sum_map_absorb h.distinct hex, h.total, List.length_append, List.length_singleton]
  -- the first candidate of its entity
  case isFalse hany =>
    have hnone : ∀ m ∈ merged, m.entityId ≠ c.entityId sha := by
      intro m hm heq
      exact hany (List.any_eq_true.mpr ⟨m, hm, decide_eq_true heq⟩)
    have hnew : ∀ d ∈ candidates, d.entityId sha ≠ c.entityId sha := by
      intro d hd heq
      obtain ⟨m, hm, hmd⟩ := h.covers d hd
      exact hnone m hm (hmd.trans heq)
    refine ⟨?_, ?_, ?_, ?_⟩
    · rw [List.map_append, List.nodup_append]
      refine ⟨h.distinct, List.nodup_singleton _, ?_⟩
      intro x hx y hy
      obtain ⟨m, hm, rfl⟩ := List.mem_map.mp hx
      rw [List.mem_singleton.mp hy]
      exact hnone m hm
    · intro m hm
      rcases List.mem_append.mp hm with hm | hm
      · exact (h.folds m hm).concat_of_ne (hnone m hm)
      · rw [List.mem_singleton.mp hm]
        exact folds_fromServer hnew
    · intro d hd
      rcases List.mem_append.mp hd with hd | hd
      · obtain ⟨m, hm, hmd⟩ := h.covers d hd
        exact ⟨m, List.mem_append_left _ hm, hmd⟩
      · rw [List.mem_singleton.mp hd]
        exact ⟨_, List.mem_append_right _ (List.mem_singleton_self _), rfl⟩
    · rw [List.map_append, List.sum_append, h.total, List.length_append]
      rfl

theorem collapsed_collapseCandidates (sha : String → String) (candidates : List ServerNote) :
    Collapsed sha candidates (collapseCandidates sha candidates) := by
  induction candidates using List.reverseRecOn with
  | nil => exact ⟨List.nodup_nil, List.forall_mem_nil _, List.forall_mem_nil _, rfl⟩
  | append_singleton candidates c ih =>
    rw [collapseCandidates, List.foldl_append, List.foldl_cons, List.foldl_nil]
    exact ih.step c

/-! ## Successors -/

theorem lookup_concat {β : Type*} (map : List (String × β)) (k : String) (v : β) (key : String) :
    lookup (map ++ [(k, v)]) key = (lookup map key).or (if k = key then some v else none) := by
  rw [lookup, List.find?_append, lookup]
  cases map.find? fun e => e.1 = key with
  | some e => rfl
  | none =>
    by_cases hk : k = key
    · simp [hk]
    · simp [hk]

theorem lookup_isSome_iff {β : Type*} {map : List (String × β)} {key : String} :
    (lookup map key).isSome = true ↔ map.any (fun e => e.1 = key) = true := by
  rw [lookup, Option.isSome_map, List.find?_isSome, List.any_eq_true]

theorem lookup_foldl_pushEdge (all candidates : List ServerNote) (edges : List (String × String))
    (entity : String) :
    lookup (candidates.foldl (pushEdge sha all) edges) entity
      = (lookup edges entity).or (((group sha candidates entity).filterMap fun c =>
        (successor? all c).map fun d => d.entityId sha).head?) := by
  induction candidates generalizing edges with
  | nil =>
    rw [List.foldl_nil, group, List.filter_nil, List.filterMap_nil, List.head?_nil, Option.or_none]
  | cons c candidates ih =>
    rw [List.foldl_cons, ih, pushEdge]
    cases hsucc : successor? all c with
    | none =>
      dsimp only
      by_cases hc : c.entityId sha = entity
      · rw [group, group, List.filter_cons_of_pos (by simpa using hc), List.filterMap_cons_none]
        rw [hsucc]
        rfl
      · rw [group, group, List.filter_cons_of_neg (by simpa using hc)]
    -- the first edge of an entity stands; a later one is not pushed
    | some succ =>
      dsimp only
      by_cases hc : c.entityId sha = entity
      · have hhead : ((group sha (c :: candidates) entity).filterMap fun c =>
            (successor? all c).map fun d => d.entityId sha).head? = some (succ.entityId sha) := by
          rw [group, List.filter_cons_of_pos (by simpa using hc),
            List.filterMap_cons_some (by rw [hsucc]; rfl)]
          rfl
        rw [hhead]
        split
        case isTrue hany =>
          rw [hc] at hany
          obtain ⟨v, hv⟩ := Option.isSome_iff_exists.mp (lookup_isSome_iff.mpr hany)
          rw [hv, Option.some_or, Option.some_or]
        case isFalse hany =>
          rw [lookup_concat, if_pos hc, Option.or_assoc, Option.some_or]
      · have hgroup : group sha (c :: candidates) entity = group sha candidates entity := by
          rw [group, List.filter_cons_of_neg (by simpa using hc), group]
        rw [hgroup]
        split
        case isTrue => rfl
        case isFalse => rw [lookup_concat, if_neg hc, Option.or_none]

theorem lookup_buildSupersedeEdges (candidates : List ServerNote) (entity : String) :
    lookup (buildSupersedeEdges sha candidates) entity
      = (successorEntities sha candidates entity).head? := by
  rw [buildSupersedeEdges, lookup_foldl_pushEdge]
  rfl

end Collapse

/-! ## What is held -/

section Held

variable {sha : String → String} {s : Store} {candidates : List ServerNote}
variable {m : MergedNote}

theorem entityToLocal_eq_none_iff {entity : String} :
    entityToLocal sha s entity = none ↔ ∀ n ∈ s.rows, noteEntityId sha n ≠ entity := by
  rw [entityToLocal, Option.map_eq_none_iff, List.find?_eq_none]
  simp only [mem_allNotesForDedup, decide_eq_true_eq, ne_eq]

theorem exists_of_entityToLocal {entity : String} {id : NoteId}
    (h : entityToLocal sha s entity = some id) :
    ∃ n ∈ s.rows, n.id = id ∧ noteEntityId sha n = entity := by
  obtain ⟨n, hn, rfl⟩ := Option.map_eq_some_iff.mp h
  exact ⟨n, mem_allNotesForDedup.mp (List.mem_of_find?_eq_some hn), rfl,
    by simpa using List.find?_some hn⟩

theorem mem_toImport : m ∈ toImport sha s candidates
    ↔ m ∈ collapseCandidates sha candidates ∧ entityToLocal sha s m.entityId = none := by
  rw [toImport, mem_sortBy, List.mem_filter, Option.isNone_iff_eq_none]

theorem toImport_distinct : ((toImport sha s candidates).map MergedNote.entityId).Nodup := by
  have hperm := (sortBy_perm MergedNote.createdAt ((collapseCandidates sha candidates).filter
    fun m => (entityToLocal sha s m.entityId).isNone)).map MergedNote.entityId
  rw [toImport, hperm.nodup_iff]
  exact (collapsed_collapseCandidates sha candidates).distinct.sublist (List.filter_sublist.map _)

theorem exists_mem_toImport {c : ServerNote} (hc : c ∈ candidates)
    (hnone : entityToLocal sha s (c.entityId sha) = none) :
    ∃ m ∈ toImport sha s candidates, m.entityId = c.entityId sha := by
  obtain ⟨m, hm, hmc⟩ := (collapsed_collapseCandidates sha candidates).covers c hc
  exact ⟨m, mem_toImport.mpr ⟨hm, hmc ▸ hnone⟩, hmc⟩

theorem folds_of_mem_toImport (hm : m ∈ toImport sha s candidates) : Folds sha candidates m :=
  (collapsed_collapseCandidates sha candidates).folds m (mem_toImport.mp hm).1

theorem exists_candidate_of_mem_toImport (hm : m ∈ collapseCandidates sha candidates) :
    ∃ c ∈ candidates, c.entityId sha = m.entityId := by
  by_contra hnone
  have hempty : ∀ l : List ServerNote, (∀ c ∈ l, c.entityId sha ≠ m.entityId) →
      ∀ m' ∈ collapseCandidates sha l, m'.entityId ≠ m.entityId := by
    intro l
    induction l using List.reverseRecOn with
    | nil =>
      intro _ m' hm'
      cases hm'
    | append_singleton l c ih =>
      intro hl m' hm'
      have hprev := ih fun d hd => hl d (List.mem_append_left _ hd)
      have hc : c.entityId sha ≠ m.entityId := hl c (List.mem_append_right _ (List.mem_singleton_self c))
      rw [collapseCandidates, List.foldl_append, List.foldl_cons, List.foldl_nil, collapseStep] at hm'
      split at hm'
      · obtain ⟨m'', hm'', rfl⟩ := List.mem_map.mp hm'
        split
        · exact hprev m'' hm''
        · exact hprev m'' hm''
      · rcases List.mem_append.mp hm' with hm' | hm'
        · exact hprev m' hm'
        · rw [List.mem_singleton.mp hm']
          exact hc
  refine hempty candidates ?_ m hm rfl
  intro c hc heq
  exact hnone ⟨c, hc, heq⟩

theorem sum_filter_add_sum_filter_not (p : MergedNote → Bool) (l : List MergedNote) :
    ((l.filter p).map MergedNote.sourceRows).sum
      + ((l.filter fun m => !p m).map MergedNote.sourceRows).sum = (l.map MergedNote.sourceRows).sum := by
  induction l with
  | nil => rfl
  | cons m l ih =>
    cases hp : p m with
    | true =>
      rw [List.filter_cons_of_pos hp, List.filter_cons_of_neg (by simp [hp])]
      simp only [List.map_cons, List.sum_cons]
      omega
    | false =>
      rw [List.filter_cons_of_neg (by simp [hp]), List.filter_cons_of_pos (by simp [hp])]
      simp only [List.map_cons, List.sum_cons]
      omega

theorem sum_sub_one_add_length {l : List MergedNote} (h : ∀ m ∈ l, 0 < m.sourceRows) :
    (l.map fun m => m.sourceRows - 1).sum + l.length = (l.map MergedNote.sourceRows).sum := by
  induction l with
  | nil => rfl
  | cons m l ih =>
    have hm := h m List.mem_cons_self
    have hrest := ih fun m' hm' => h m' (List.mem_cons_of_mem m hm')
    simp only [List.map_cons, List.sum_cons, List.length_cons]
    omega

/-- Every candidate is in an entry that is held, is the first row of one to import, or a further
    row of one. -/
theorem length_candidates (sha : String → String) (s : Store) (candidates : List ServerNote) :
    candidates.length = ((present sha s candidates).map MergedNote.sourceRows).sum
      + ((toImport sha s candidates).map fun m => m.sourceRows - 1).sum
      + (toImport sha s candidates).length := by
  have hcollapsed := collapsed_collapseCandidates sha candidates
  have hpositive := sum_sub_one_add_length fun m (hm : m ∈ toImport sha s candidates) =>
    (folds_of_mem_toImport hm).positive
  have hsorted : ((toImport sha s candidates).map MergedNote.sourceRows).sum
      = (((collapseCandidates sha candidates).filter fun m =>
        !(entityToLocal sha s m.entityId).isSome).map MergedNote.sourceRows).sum := by
    rw [toImport]
    simp only [Option.not_isSome]
    exact ((sortBy_perm _ _).map _).sum_nat
  have hparts := sum_filter_add_sum_filter_not (fun m => (entityToLocal sha s m.entityId).isSome)
    (collapseCandidates sha candidates)
  rw [present, ← hcollapsed.total]
  omega

end Held

/-! ## The batch -/

section Batch

variable {env : DedupeEnv} {mint : Nat → NoteId}

/-- A row as it is stored. -/
def storedRow (env : DedupeEnv) (uuid : NoteId) (m : MergedNote) : Note :=
  (attachEdit env.toStoreEnv m.tags m.linkedFiles).apply (importedRow env.toStoreEnv uuid m)

/-- The rows of some entries, from the id at a position on. -/
def storedRows (env : DedupeEnv) (mint : Nat → NoteId) : Nat → List MergedNote → List Note
  | _, [] => []
  | i, m :: rest => storedRow env (mint i) m :: storedRows env mint (i + 1) rest

/-- The entity an entry is inserted under. -/
def rowEntity (env : DedupeEnv) (m : MergedNote) : String := entityId env.sha m.kind m.title m.body

theorem noteEntityId_storedRow (uuid : NoteId) (m : MergedNote) :
    noteEntityId env.sha (storedRow env uuid m) = rowEntity env m := rfl

theorem edit_same (s : Store) (e : RowEdit) (p : Note → Bool) {n : Note} (hn : n ∈ (s.edit e p).rows) :
    ∃ n₀ ∈ s.rows, n₀.id = n.id ∧ n₀.entityId = n.entityId
      ∧ noteEntityId env.sha n₀ = noteEntityId env.sha n := by
  rw [Store.edit_rows] at hn
  obtain ⟨n₀, hn₀, rfl⟩ := List.mem_map.mp hn
  refine ⟨n₀, hn₀, ?_⟩
  split
  · obtain ⟨hkind, htitle, hbody⟩ := e.content_apply n₀
    refine ⟨(e.id_apply n₀).symm, (e.entityId_apply n₀).symm, ?_⟩
    rw [noteEntityId, noteEntityId, hkind, htitle, hbody]
  · exact ⟨rfl, rfl, rfl⟩

theorem edit_entityIds (s : Store) (e : RowEdit) (p : Note → Bool) :
    (s.edit e p).rows.map Note.entityId = s.rows.map Note.entityId := by
  rw [Store.edit_rows, List.map_map]
  refine List.map_congr_left fun n _ => ?_
  show (if p n then e.apply n else n).entityId = n.entityId
  split
  · exact e.entityId_apply n
  · rfl

/-- A batch that goes through had no path refused; its rows are those before, and rows whose
    entity no row had. -/
theorem importBatch_eq_some {l : List MergedNote} {i : Nat} {s s' : Store} {ids : List NoteId}
    (h : importBatch env mint i l s = some (ids, s')) :
    (∀ m ∈ l, m.linkedFiles.any env.refuses = false) ∧ ids.length = l.length
      ∧ (∀ entity ∈ s.rows.map Note.entityId, entity ∈ s'.rows.map Note.entityId)
      ∧ ∀ n ∈ s'.rows, (∃ n₀ ∈ s.rows, noteEntityId env.sha n₀ = noteEntityId env.sha n)
        ∨ noteEntityId env.sha n ∉ s.rows.map Note.entityId := by
  induction l generalizing i s ids with
  | nil =>
    obtain ⟨rfl, rfl⟩ := Prod.mk.inj (Option.some.inj h)
    exact ⟨List.forall_mem_nil _, rfl, fun entity he => he, fun n hn => Or.inl ⟨n, hn, rfl⟩⟩
  | cons m l ih =>
    rw [importBatch] at h
    split at h
    case isTrue => cases h
    case isFalse hrefused =>
      obtain ⟨⟨id, created, s₁⟩, hinsert, hrest⟩ := Option.bind_eq_some_iff.mp h
      obtain ⟨⟨ids', s''⟩, hbatch, heq⟩ := Option.map_eq_some_iff.mp hrest
      obtain ⟨rfl, rfl⟩ := Prod.mk.inj heq
      obtain ⟨hinside, hlen, hkeys, hrows⟩ := ih hbatch
      refine ⟨List.forall_mem_cons.mpr ⟨by simpa using hrefused, hinside⟩, by simp [hlen], ?_⟩
      -- inserted, with a key the store did not have, or an old row with more tags and files
      rcases Store.insertOrRecover_cases hinsert with
        ⟨-, -, s₂, hinserted, rfl⟩ | ⟨-, row, -, -, -, rfl⟩
      · obtain ⟨hrows₂, -, -, hfresh⟩ := Store.insertRow_eq_some hinserted
        have hkeys₂ : ∀ entity ∈ s.rows.map Note.entityId,
            entity ∈ (s₂.attachTagsAndFiles env.toStoreEnv
              (importedRow env.toStoreEnv (mint i) m).id m.tags m.linkedFiles).rows.map
                Note.entityId := by
          intro entity he
          rw [Store.attachTagsAndFiles, edit_entityIds, hrows₂, List.map_append]
          exact List.mem_append_left _ he
        refine ⟨fun entity he => hkeys entity (hkeys₂ entity he), ?_⟩
        intro n hn
        rcases hrows n hn with ⟨n₁, hn₁, hsame⟩ | hnew
        · obtain ⟨n₀, hn₀, -, -, hsame₀⟩ := edit_same s₂ _ _ hn₁
          rw [hrows₂] at hn₀
          rcases List.mem_append.mp hn₀ with hn₀ | hn₀
          · exact Or.inl ⟨n₀, hn₀, hsame₀.trans hsame⟩
          · rw [List.mem_singleton.mp hn₀] at hsame₀
            right
            rw [← hsame, ← hsame₀]
            exact hfresh
        · exact Or.inr fun hmem => hnew (hkeys₂ _ hmem)
      · have hkeys₂ := edit_entityIds s (attachEdit env.toStoreEnv m.tags m.linkedFiles)
          fun n => n.id = row.id
        refine ⟨fun entity he => hkeys entity ?_, ?_⟩
        · rw [Store.attachTagsAndFiles, hkeys₂]
          exact he
        · intro n hn
          rcases hrows n hn with ⟨n₁, hn₁, hsame⟩ | hnew
          · obtain ⟨n₀, hn₀, -, -, hsame₀⟩ := edit_same s _ _ hn₁
            exact Or.inl ⟨n₀, hn₀, hsame₀.trans hsame⟩
          · rw [Store.attachTagsAndFiles, hkeys₂] at hnew
            exact Or.inr hnew

/-- Attaching to a row that was just added leaves the others. -/
theorem insertOrRecover_of_fresh {s : Store} {uuid : NoteId} {m : MergedNote}
    (hid : uuid ∉ s.rows.map Note.id) (hkey : rowEntity env m ∉ s.rows.map Note.entityId) :
    ∃ s', s.insertOrRecover env.toStoreEnv (importedRow env.toStoreEnv uuid m) m.tags m.linkedFiles
        = some (uuid, true, s')
      ∧ s'.rows = s.rows ++ [storedRow env uuid m] := by
  have hinsert : ∃ s₁, s.insertRow (importedRow env.toStoreEnv uuid m) = some s₁ := by
    unfold Store.insertRow
    rw [dif_pos]
    · exact ⟨_, rfl⟩
    · refine ⟨hid, hkey, ?_⟩
      intro r hr
      cases hr
  obtain ⟨s₁, hs₁⟩ := hinsert
  refine ⟨_, Store.insertOrRecover_of_insert env.toStoreEnv hs₁ m.tags m.linkedFiles, ?_⟩
  have hothers : s.rows.map (fun n => if n.id = uuid then
      (attachEdit env.toStoreEnv m.tags m.linkedFiles).apply n else n) = s.rows := by
    refine (List.map_congr_left fun n hn => ?_).trans (List.map_id s.rows)
    rw [if_neg, id]
    rintro rfl
    exact hid (List.mem_map_of_mem hn)
  have hself : (importedRow env.toStoreEnv uuid m).id = uuid := rfl
  rw [Store.attachTagsAndFiles, Store.edit_rows, (Store.insertRow_eq_some hs₁).1, List.map_append]
  simp only [hself, decide_eq_true_eq, hothers, List.map_singleton, if_true]
  rfl

/-- When no path is refused and no entity is there, every entry gets a row of its own. -/
theorem importBatch_of_fresh {l : List MergedNote} {i : Nat} {s : Store}
    (hinside : ∀ m ∈ l, m.linkedFiles.any env.refuses = false)
    (hdistinct : (l.map (rowEntity env)).Nodup)
    (hkeys : ∀ m ∈ l, rowEntity env m ∉ s.rows.map Note.entityId)
    (hinj : ∀ i j, mint i = mint j → i = j) (hfresh : ∀ j, i ≤ j → mint j ∉ s.rows.map Note.id) :
    ∃ s', importBatch env mint i l s = some ((storedRows env mint i l).map Note.id, s')
      ∧ s'.rows = s.rows ++ storedRows env mint i l := by
  induction l generalizing i s with
  | nil => exact ⟨s, rfl, (List.append_nil _).symm⟩
  | cons m l ih =>
    obtain ⟨hfirst, hrest⟩ := List.nodup_cons.mp hdistinct
    obtain ⟨s₁, hinsert, hrows₁⟩ := insertOrRecover_of_fresh (hfresh i le_rfl)
      (hkeys m List.mem_cons_self)
    -- the row just stored has neither a later key nor a later id
    obtain ⟨s', hbatch, hrows⟩ := @ih (i + 1) s₁ (fun m' hm' => hinside m' (List.mem_cons_of_mem m hm'))
      hrest
      (by
        intro m' hm' hmem
        rw [hrows₁, List.map_append] at hmem
        rcases List.mem_append.mp hmem with hmem | hmem
        · exact hkeys m' (List.mem_cons_of_mem m hm') hmem
        · have heq : rowEntity env m' = rowEntity env m := List.mem_singleton.mp hmem
          exact hfirst (heq ▸ List.mem_map_of_mem hm'))
      (by
        intro j hj hmem
        rw [hrows₁, List.map_append] at hmem
        rcases List.mem_append.mp hmem with hmem | hmem
        · exact hfresh j (by omega) hmem
        · have heq : mint j = mint i := List.mem_singleton.mp hmem
          have hji := hinj j i heq
          omega)
    refine ⟨s', ?_, ?_⟩
    · have hok : m.linkedFiles.any env.refuses = false := hinside m List.mem_cons_self
      rw [importBatch, if_neg (by simp [hok]), hinsert, Option.bind_some]
      dsimp only
      rw [hbatch, Option.map_some]
      rfl
    · rw [hrows, hrows₁, List.append_assoc]
      rfl

end Batch

/-! ## Links -/

section Links

variable {env : DedupeEnv} {edges : List (String × String)} {toLocal : String → Option NoteId}

/-- The successor written for an imported entry. -/
def linkOf (edges : List (String × String)) (toLocal : String → Option NoteId)
    (x : MergedNote × NoteId) : Option NoteId :=
  if x.1.status = "archived" then ((lookup edges x.1.entityId).bind toLocal).filter fun id => id ≠ x.2
  else none

def applyLink : Option NoteId → Note → Note
  | some id, n => { n with supersededBy := some id }
  | none, n => n

/-- A row as the links leave it. -/
def linkedRow (edges : List (String × String)) (toLocal : String → Option NoteId)
    (l : List (MergedNote × NoteId)) (n : Note) : Note :=
  match l.find? fun x => x.2 = n.id with
  | some x => applyLink (linkOf edges toLocal x) n
  | none => n

theorem applyLink_id (link : Option NoteId) (n : Note) : (applyLink link n).id = n.id := by
  cases link <;> rfl

theorem linkedRow_id (l : List (MergedNote × NoteId)) (n : Note) :
    (linkedRow edges toLocal l n).id = n.id := by
  rw [linkedRow]
  split
  · exact applyLink_id _ n
  · rfl

theorem noteEntityId_linkedRow (l : List (MergedNote × NoteId)) (n : Note) :
    noteEntityId env.sha (linkedRow edges toLocal l n) = noteEntityId env.sha n := by
  rw [linkedRow]
  split
  · next x _ => cases linkOf edges toLocal x <;> rfl
  · rfl

theorem linkImported_rows (acc : Nat × Store) (x : MergedNote × NoteId) :
    (linkImported edges toLocal acc x).2.rows
      = acc.2.rows.map fun n => if x.2 = n.id then applyLink (linkOf edges toLocal x) n else n := by
  have hsame (h : linkOf edges toLocal x = none) :
      acc.2.rows.map (fun n => if x.2 = n.id then applyLink (linkOf edges toLocal x) n else n)
        = acc.2.rows := by
    refine (List.map_congr_left fun n _ => ?_).trans (List.map_id _)
    rw [h, applyLink, ite_self, id]
  rw [linkImported]
  -- a link needs an archived row, an edge, a local successor, and not the row itself
  by_cases harchived : x.1.status = "archived"
  · rw [if_neg (by simpa using harchived)]
    cases hedge : lookup edges x.1.entityId with
    | none =>
      rw [hsame]
      rw [linkOf, if_pos harchived, hedge]
      rfl
    | some entity =>
      dsimp only
      cases hlocal : toLocal entity with
      | none =>
        rw [hsame]
        rw [linkOf, if_pos harchived, hedge, Option.bind_some, hlocal]
        rfl
      | some id =>
        dsimp only
        by_cases hself : id = x.2
        · rw [if_pos hself, hsame]
          rw [linkOf, if_pos harchived, hedge, Option.bind_some, hlocal, Option.filter_some,
            if_neg (by simp [hself])]
        · have hlink : linkOf edges toLocal x = some id := by
            rw [linkOf, if_pos harchived, hedge, Option.bind_some, hlocal, Option.filter_some,
              if_pos (by simp [hself])]
          rw [if_neg hself, hlink, Store.setSupersededBy, Store.edit_rows]
          refine List.map_congr_left fun n _ => ?_
          by_cases hn : x.2 = n.id
          · rw [if_pos (by simp [hn]), if_pos hn]
            rfl
          · rw [if_neg (by simpa using fun heq => hn heq.symm), if_neg hn]
  · rw [if_pos (by simpa using harchived), hsame]
    rw [linkOf, if_neg harchived]

theorem foldl_linkImported_rows {l : List (MergedNote × NoteId)} (hids : (l.map Prod.snd).Nodup)
    (acc : Nat × Store) : (l.foldl (linkImported edges toLocal) acc).2.rows
      = acc.2.rows.map (linkedRow edges toLocal l) := by
  induction l generalizing acc with
  | nil => exact (List.map_id _).symm
  | cons x l ih =>
    obtain ⟨hfirst, hrest⟩ := List.nodup_cons.mp hids
    rw [List.foldl_cons, ih hrest, linkImported_rows, List.map_map]
    refine List.map_congr_left fun n _ => ?_
    show linkedRow edges toLocal l (if x.2 = n.id then applyLink (linkOf edges toLocal x) n else n) = _
    by_cases hn : x.2 = n.id
    · -- no later entry has this row's id
      have hnone (n' : Note) (hn' : n'.id = n.id) : (l.find? fun y => y.2 = n'.id) = none := by
        rw [List.find?_eq_none]
        intro y hy heq
        rw [decide_eq_true_eq, hn', ← hn] at heq
        exact hfirst (heq ▸ List.mem_map_of_mem hy)
      rw [if_pos hn, linkedRow, hnone _ (applyLink_id _ n), linkedRow,
        List.find?_cons_of_pos (by simpa using hn)]
    · rw [if_neg hn, linkedRow, linkedRow, List.find?_cons_of_neg (by simpa using hn)]

end Links

/-! ## Entries with their ids -/

section Minted

variable {env : DedupeEnv} {mint : Nat → NoteId}
variable {x : MergedNote × NoteId}

def minted (mint : Nat → NoteId) : Nat → List MergedNote → List (MergedNote × NoteId)
  | _, [] => []
  | i, m :: rest => (m, mint i) :: minted mint (i + 1) rest

theorem storedRows_eq (i : Nat) (l : List MergedNote) :
    storedRows env mint i l = (minted mint i l).map fun x => storedRow env x.2 x.1 := by
  induction l generalizing i with
  | nil => rfl
  | cons m l ih =>
    rw [storedRows, ih]
    rfl

theorem zip_storedRows (i : Nat) (l : List MergedNote) :
    l.zip ((storedRows env mint i l).map Note.id) = minted mint i l := by
  induction l generalizing i with
  | nil => rfl
  | cons m l ih =>
    rw [storedRows, List.map_cons, List.zip_cons_cons, ih]
    rfl

theorem minted_fst (i : Nat) (l : List MergedNote) : (minted mint i l).map Prod.fst = l := by
  induction l generalizing i with
  | nil => rfl
  | cons m l ih => rw [minted, List.map_cons, ih]

theorem exists_minted {i : Nat} {l : List MergedNote} {m : MergedNote} (hm : m ∈ l) :
    ∃ u, (m, u) ∈ minted mint i l := by
  rw [← @minted_fst mint i l] at hm
  obtain ⟨⟨m', u⟩, hx, rfl⟩ := List.mem_map.mp hm
  exact ⟨u, hx⟩

theorem mem_of_mem_minted {i : Nat} {l : List MergedNote} (hx : x ∈ minted mint i l) : x.1 ∈ l := by
  rw [← @minted_fst mint i l]
  exact List.mem_map_of_mem hx

theorem exists_index_of_mem_minted {i : Nat} {l : List MergedNote}
    (hx : x ∈ minted mint i l) : ∃ j, i ≤ j ∧ x.2 = mint j := by
  induction l generalizing i with
  | nil => cases hx
  | cons m l ih =>
    rcases List.mem_cons.mp hx with rfl | hx
    · exact ⟨i, le_rfl, rfl⟩
    · obtain ⟨j, hj, heq⟩ := ih hx
      exact ⟨j, by omega, heq⟩

theorem minted_ids_nodup (hinj : ∀ i j, mint i = mint j → i = j) (i : Nat) (l : List MergedNote) :
    ((minted mint i l).map Prod.snd).Nodup := by
  induction l generalizing i with
  | nil => exact List.nodup_nil
  | cons m l ih =>
    refine List.nodup_cons.mpr ⟨?_, ih (i + 1)⟩
    intro hmem
    obtain ⟨x, hx, heq⟩ := List.mem_map.mp hmem
    obtain ⟨j, hj, hxj⟩ := exists_index_of_mem_minted hx
    have hij := hinj j i (hxj.symm.trans heq)
    omega

theorem find?_of_nodup {α κ : Type*} [DecidableEq κ] {f : α → κ} {l : List α} {a : α}
    (hl : (l.map f).Nodup) (ha : a ∈ l) : l.find? (fun b => f b = f a) = some a := by
  have hsome : (l.find? fun b => f b = f a).isSome := List.find?_isSome.mpr ⟨a, ha, by simp⟩
  obtain ⟨b, hb⟩ := Option.isSome_iff_exists.mp hsome
  have hfb : f b = f a := by simpa using List.find?_some hb
  rw [hb, List.inj_on_of_nodup_map hl (List.mem_of_find?_eq_some hb) ha hfb]

theorem filter_of_nodup {α κ : Type*} [DecidableEq κ] {f : α → κ} {l : List α} {a : α}
    (hl : (l.map f).Nodup) (ha : a ∈ l) : l.filter (fun b => f b = f a) = [a] := by
  induction l with
  | nil => cases ha
  | cons b l ih =>
    obtain ⟨hfirst, hrest⟩ := List.nodup_cons.mp hl
    rcases List.mem_cons.mp ha with rfl | ha
    · rw [List.filter_cons_of_pos (by simp), List.filter_eq_nil_iff.mpr]
      intro c hc heq
      exact hfirst ((of_decide_eq_true heq) ▸ List.mem_map_of_mem hc)
    · have hne : f b ≠ f a := fun heq => hfirst (heq ▸ List.mem_map_of_mem ha)
      rw [List.filter_cons_of_neg (by simpa using hne), ih hrest ha]

end Minted

/-! ## A run -/

section Run

variable {env : DedupeEnv} {s : Store} {ids : FreshIds s} {candidates : Candidates}
variable {x : MergedNote × NoteId}

/-- What no merge of tags and files changes of a row. -/
def rowKey (env : DedupeEnv) (n : Note) : NoteId × String × String :=
  (n.id, n.entityId, noteEntityId env.sha n)

theorem edit_keys (s : Store) (e : RowEdit) (p : Note → Bool) :
    (s.edit e p).rows.map (rowKey env) = s.rows.map (rowKey env) := by
  rw [Store.edit_rows, List.map_map]
  refine List.map_congr_left fun n _ => ?_
  show rowKey env (if p n then e.apply n else n) = rowKey env n
  split
  · obtain ⟨hkind, htitle, hbody⟩ := e.content_apply n
    rw [rowKey, rowKey, noteEntityId, noteEntityId, e.id_apply, e.entityId_apply, hkind, htitle, hbody]
  · rfl

/-- The store once the entries it holds have been merged into. -/
def mergedStore (env : DedupeEnv) (s : Store) (candidates : Candidates) : Store :=
  (present env.sha s candidates.rows).foldl (mergePresent env (entityToLocal env.sha s)) s

theorem mergedStore_keys : (mergedStore env s candidates).rows.map (rowKey env)
    = s.rows.map (rowKey env) := by
  have hfold : ∀ (l : List MergedNote) (s' : Store),
      (l.foldl (mergePresent env (entityToLocal env.sha s)) s').rows.map (rowKey env)
        = s'.rows.map (rowKey env) := by
    intro l
    induction l with
    | nil => exact fun _ => rfl
    | cons m l ih =>
      intro s'
      rw [List.foldl_cons, ih, mergePresent]
      split
      · exact edit_keys s' _ _
      · rfl
  exact hfold _ s

theorem exists_row_of_key {t t' : Store} (h : t.rows.map (rowKey env) = t'.rows.map (rowKey env))
    {n : Note} (hn : n ∈ t.rows) : ∃ n' ∈ t'.rows, n'.id = n.id ∧ n'.entityId = n.entityId
      ∧ noteEntityId env.sha n' = noteEntityId env.sha n := by
  have hmem : rowKey env n ∈ t.rows.map (rowKey env) := List.mem_map_of_mem hn
  rw [h] at hmem
  obtain ⟨n', hn', heq⟩ := List.mem_map.mp hmem
  obtain ⟨hid, hrest⟩ := Prod.mk.inj heq
  obtain ⟨hkey, hcontent⟩ := Prod.mk.inj hrest
  exact ⟨n', hn', hid, hkey, hcontent⟩

/-- The entries to import, with the ids minted for them. -/
def entries (env : DedupeEnv) (s : Store) (ids : FreshIds s) (candidates : Candidates) :
    List (MergedNote × NoteId) := minted ids.mint 0 (toImport env.sha s candidates.rows)

/-- The row an entity has once the entries are imported. -/
def localOf (env : DedupeEnv) (s : Store) (ids : FreshIds s) (candidates : Candidates)
    (entity : String) : Option NoteId :=
  (lookup ((entries env s ids candidates).map fun m => (m.1.entityId, m.2)) entity).or
    (entityToLocal env.sha s entity)

/-- The rows a run leaves when every entry gets a row of its own. -/
def finalRows (env : DedupeEnv) (s : Store) (ids : FreshIds s) (candidates : Candidates) :
    List Note :=
  ((mergedStore env s candidates).rows
      ++ storedRows env ids.mint 0 (toImport env.sha s candidates.rows)).map
    (linkedRow (buildSupersedeEdges env.sha candidates.rows) (localOf env s ids candidates)
      (entries env s ids candidates))

theorem rowEntity_of_mem_toImport {m : MergedNote} (hm : m ∈ toImport env.sha s candidates.rows) :
    rowEntity env m = m.entityId := (folds_of_mem_toImport hm).content

theorem reconcileProject_of_fresh
    (hinside : ∀ m ∈ toImport env.sha s candidates.rows, m.linkedFiles.any env.refuses = false)
    (hkeys : ∀ m ∈ toImport env.sha s candidates.rows, m.entityId ∉ s.rows.map Note.entityId) :
    (reconcileProject env s ids candidates false).1.imported
        = (toImport env.sha s candidates.rows).length
      ∧ (reconcileProject env s ids candidates false).2.rows = finalRows env s ids candidates := by
  -- merging into rows that are there changes no id and no key
  have hids : (mergedStore env s candidates).rows.map Note.id = s.rows.map Note.id := by
    have h := congrArg (List.map Prod.fst) (@mergedStore_keys env s candidates)
    rw [List.map_map, List.map_map] at h
    exact h
  have hentities : (mergedStore env s candidates).rows.map Note.entityId
      = s.rows.map Note.entityId := by
    have h := congrArg (List.map fun k => k.2.1) (@mergedStore_keys env s candidates)
    rw [List.map_map, List.map_map] at h
    exact h
  have hdistinct : ((toImport env.sha s candidates.rows).map (rowEntity env)).Nodup := by
    rw [List.map_congr_left fun m hm => rowEntity_of_mem_toImport hm]
    exact toImport_distinct
  obtain ⟨s₂, hbatch, hrows⟩ := @importBatch_of_fresh env ids.mint
    (toImport env.sha s candidates.rows) 0 (mergedStore env s candidates) hinside hdistinct
    (fun m hm => by rw [hentities, rowEntity_of_mem_toImport hm]; exact hkeys m hm) ids.distinct
    (fun j _ => by rw [hids]; exact ids.fresh j)
  by_cases hnil : toImport env.sha s candidates.rows = []
  · rw [reconcileProject, if_neg (by simp), if_pos hnil, finalRows, entries, hnil]
    exact ⟨rfl, by rw [storedRows, List.append_nil]; exact (List.map_id _).symm⟩
  · have hbatch' : importBatch env ids.mint 0 (toImport env.sha s candidates.rows)
        ((present env.sha s candidates.rows).foldl
          (mergePresent env (entityToLocal env.sha s)) s) = _ := hbatch
    have hnodup : ((entries env s ids candidates).map Prod.snd).Nodup :=
      minted_ids_nodup ids.distinct 0 _
    rw [reconcileProject, if_neg (by simp), if_neg hnil, hbatch']
    dsimp only
    refine ⟨?_, ?_⟩
    · rw [List.length_map, storedRows_eq, List.length_map, ← @List.length_map _ _ _ Prod.fst,
        minted_fst]
    · rw [zip_storedRows]
      rw [entries] at hnodup
      rw [foldl_linkImported_rows hnodup, hrows]
      rfl

theorem mem_finalRows {n : Note}
    (hn : n ∈ (mergedStore env s candidates).rows
      ++ storedRows env ids.mint 0 (toImport env.sha s candidates.rows)) :
    ∃ n' ∈ finalRows env s ids candidates, n'.id = n.id
      ∧ noteEntityId env.sha n' = noteEntityId env.sha n :=
  ⟨_, List.mem_map_of_mem hn, linkedRow_id _ n, noteEntityId_linkedRow _ n⟩

theorem exists_row_of_localOf {entity : String} {id : NoteId}
    (h : localOf env s ids candidates entity = some id) :
    ∃ n ∈ finalRows env s ids candidates, n.id = id ∧ noteEntityId env.sha n = entity := by
  rw [localOf, Option.or_eq_some_iff] at h
  rcases h with hentry | ⟨-, hheld⟩
  · obtain ⟨e, he, rfl⟩ := Option.map_eq_some_iff.mp hentry
    obtain ⟨x, hx, rfl⟩ := List.mem_map.mp (List.mem_of_find?_eq_some he)
    have hentity : x.1.entityId = entity := by simpa using List.find?_some he
    have hstored : storedRow env x.2 x.1
        ∈ storedRows env ids.mint 0 (toImport env.sha s candidates.rows) := by
      rw [storedRows_eq]
      exact List.mem_map_of_mem hx
    obtain ⟨n, hn, hid, hcontent⟩ := @mem_finalRows env s ids candidates _
      (List.mem_append_right _ hstored)
    refine ⟨n, hn, hid, hcontent.trans ?_⟩
    rw [noteEntityId_storedRow, rowEntity_of_mem_toImport (mem_of_mem_minted hx), hentity]
  · obtain ⟨n₀, hn₀, hid₀, hcontent₀⟩ := exists_of_entityToLocal hheld
    obtain ⟨n₁, hn₁, hid₁, -, hcontent₁⟩ := exists_row_of_key (@mergedStore_keys env s candidates).symm hn₀
    obtain ⟨n, hn, hid, hcontent⟩ := @mem_finalRows env s ids candidates _
      (List.mem_append_left _ hn₁)
    exact ⟨n, hn, hid.trans (hid₁.trans hid₀), hcontent.trans (hcontent₁.trans hcontent₀)⟩

theorem localOf_of_mem_entries (hx : x ∈ entries env s ids candidates) :
    localOf env s ids candidates x.1.entityId = some x.2 := by
  have hdistinct : ((entries env s ids candidates).map fun y => y.1.entityId).Nodup := by
    have h := @toImport_distinct env.sha s candidates.rows
    rw [← @minted_fst ids.mint 0 (toImport env.sha s candidates.rows), List.map_map] at h
    exact h
  have hmem : (x.1.entityId, x.2) ∈ (entries env s ids candidates).map fun m => (m.1.entityId, m.2) :=
    List.mem_map_of_mem hx
  have hnodup : (((entries env s ids candidates).map fun m => (m.1.entityId, m.2)).map
      Prod.fst).Nodup := by
    rw [List.map_map]
    exact hdistinct
  have hfind := find?_of_nodup hnodup hmem
  dsimp only at hfind
  rw [localOf, lookup, hfind]
  rfl

theorem localOf_isSome {c : ServerNote} (hc : c ∈ candidates.rows) :
    (localOf env s ids candidates (c.entityId env.sha)).isSome = true := by
  cases hheld : entityToLocal env.sha s (c.entityId env.sha) with
  | some id =>
    rw [localOf, hheld, Option.isSome_or]
    simp
  | none =>
    obtain ⟨m, hm, hmc⟩ := exists_mem_toImport hc hheld
    obtain ⟨u, hu⟩ := @exists_minted ids.mint 0 _ m hm
    rw [← hmc, localOf_of_mem_entries hu]
    rfl

/-- The content of an entry to import is in one row, the one stored for it. -/
theorem filter_finalRows {x : MergedNote × NoteId} (hx : x ∈ entries env s ids candidates) :
    (finalRows env s ids candidates).filter (fun n => noteEntityId env.sha n = x.1.entityId)
      = [applyLink (linkOf (buildSupersedeEdges env.sha candidates.rows)
          (localOf env s ids candidates) x) (storedRow env x.2 x.1)] := by
  have hm : x.1 ∈ toImport env.sha s candidates.rows := mem_of_mem_minted hx
  -- nothing the store had before has the content
  have hnot : (mergedStore env s candidates).rows.filter
      (fun n => noteEntityId env.sha n = x.1.entityId) = [] := by
    rw [List.filter_eq_nil_iff]
    intro n hn heq
    obtain ⟨n₀, hn₀, -, -, hcontent⟩ := exists_row_of_key (@mergedStore_keys env s candidates) hn
    exact entityToLocal_eq_none_iff.mp (mem_toImport.mp hm).2 n₀ hn₀
      (hcontent.trans (of_decide_eq_true heq))
  have hstored : (storedRows env ids.mint 0 (toImport env.sha s candidates.rows)).filter
      (fun n => noteEntityId env.sha n = x.1.entityId) = [storedRow env x.2 x.1] := by
    have hdistinct : ((entries env s ids candidates).map fun y => y.1.entityId).Nodup := by
      have h := @toImport_distinct env.sha s candidates.rows
      rw [← @minted_fst ids.mint 0 (toImport env.sha s candidates.rows), List.map_map] at h
      exact h
    rw [storedRows_eq, List.filter_map]
    have hsame : (minted ids.mint 0 (toImport env.sha s candidates.rows)).filter
        ((fun n => decide (noteEntityId env.sha n = x.1.entityId)) ∘ fun x => storedRow env x.2 x.1)
        = [x] := by
      rw [← filter_of_nodup hdistinct hx]
      refine List.filter_congr fun y hy => ?_
      show decide (rowEntity env y.1 = x.1.entityId) = _
      rw [rowEntity_of_mem_toImport (mem_of_mem_minted hy)]
    rw [hsame, List.map_singleton]
  have hlinked : linkedRow (buildSupersedeEdges env.sha candidates.rows) (localOf env s ids candidates)
      (entries env s ids candidates) (storedRow env x.2 x.1)
      = applyLink (linkOf (buildSupersedeEdges env.sha candidates.rows)
          (localOf env s ids candidates) x) (storedRow env x.2 x.1) := by
    have hfind := find?_of_nodup (minted_ids_nodup ids.distinct 0
      (toImport env.sha s candidates.rows)) hx
    have hid : (storedRow env x.2 x.1).id = x.2 := rfl
    rw [linkedRow, hid, entries, hfind]
  rw [finalRows, List.filter_map]
  have hcomp : ((fun n => decide (noteEntityId env.sha n = x.1.entityId)) ∘
      linkedRow (buildSupersedeEdges env.sha candidates.rows) (localOf env s ids candidates)
        (entries env s ids candidates)) = fun n => decide (noteEntityId env.sha n = x.1.entityId) := by
    funext n
    show decide (noteEntityId env.sha (linkedRow _ _ _ n) = x.1.entityId) = _
    rw [noteEntityId_linkedRow]
  rw [hcomp, List.filter_append, hnot, hstored, List.nil_append, List.map_singleton, hlinked]

/-- The conditions on the candidates, as conditions on the entries to import. -/
theorem importable_fresh
    (hinside : ∀ c ∈ candidates.rows, entityToLocal env.sha s (c.entityId env.sha) = none →
      ∀ f ∈ c.linkedFiles, env.refuses f = false)
    (hunclaimed : ∀ c ∈ candidates.rows, entityToLocal env.sha s (c.entityId env.sha) = none →
      ∀ n ∈ s.rows, n.entityId ≠ c.entityId env.sha) :
    (∀ m ∈ toImport env.sha s candidates.rows, m.linkedFiles.any env.refuses = false)
      ∧ ∀ m ∈ toImport env.sha s candidates.rows, m.entityId ∉ s.rows.map Note.entityId := by
  constructor
  · intro m hm
    rw [List.any_eq_false]
    intro f hf
    obtain ⟨c, hc, hcf⟩ := ((folds_of_mem_toImport hm).linkedFiles f).mp hf
    obtain ⟨hmem, hentity⟩ := List.mem_filter.mp hc
    have hnone := (mem_toImport.mp hm).2
    rw [← of_decide_eq_true hentity] at hnone
    simpa using hinside c hmem hnone f hcf
  · intro m hm hmem
    obtain ⟨hcollapsed, hnone⟩ := mem_toImport.mp hm
    obtain ⟨c, hc, hentity⟩ := exists_candidate_of_mem_toImport hcollapsed
    obtain ⟨n, hn, hkey⟩ := List.mem_map.mp hmem
    rw [← hentity] at hnone
    exact hunclaimed c hc hnone n hn (hkey.trans hentity.symm)

/-- What the counts of a run are, but for the imported. -/
theorem reconcileProject_counts :
    (reconcileProject env s ids candidates false).1.candidates = candidates.rows.length
      ∧ (reconcileProject env s ids candidates false).1.alreadyPresent
        = ((present env.sha s candidates.rows).map MergedNote.sourceRows).sum
      ∧ (reconcileProject env s ids candidates false).1.collapsedDuplicates
        = ((toImport env.sha s candidates.rows).map fun m => m.sourceRows - 1).sum := by
  rw [reconcileProject, if_neg (by simp)]
  split
  · exact ⟨rfl, rfl, rfl⟩
  · dsimp only
    split
    · exact ⟨rfl, rfl, rfl⟩
    · exact ⟨rfl, rfl, rfl⟩

/-- So the counts partition the candidates when every entry to import is counted. -/
theorem counts_iff : (reconcileProject env s ids candidates false).1.candidates
      = (reconcileProject env s ids candidates false).1.alreadyPresent
        + (reconcileProject env s ids candidates false).1.collapsedDuplicates
        + (reconcileProject env s ids candidates false).1.imported
    ↔ (reconcileProject env s ids candidates false).1.imported
      = (toImport env.sha s candidates.rows).length := by
  obtain ⟨hcandidates, hpresent, hcollapsed⟩ := @reconcileProject_counts env s ids candidates
  have hlen := length_candidates env.sha s candidates.rows
  rw [hcandidates, hpresent, hcollapsed]
  omega

theorem linkImported_keys {edges : List (String × String)} {toLocal : String → Option NoteId}
    (l : List (MergedNote × NoteId)) (acc : Nat × Store) :
    (l.foldl (linkImported edges toLocal) acc).2.rows.map (rowKey env)
      = acc.2.rows.map (rowKey env) := by
  induction l generalizing acc with
  | nil => rfl
  | cons x l ih =>
    rw [List.foldl_cons, ih, linkImported_rows, List.map_map]
    refine List.map_congr_left fun n _ => ?_
    show rowKey env (if x.2 = n.id then applyLink (linkOf edges toLocal x) n else n) = rowKey env n
    split
    · cases linkOf edges toLocal x <;> rfl
    · rfl

/-- A run that counts an entry as imported committed its batch. -/
theorem exists_importBatch (hne : toImport env.sha s candidates.rows ≠ [])
    (himported : (reconcileProject env s ids candidates false).1.imported
      = (toImport env.sha s candidates.rows).length) :
    ∃ importedIds s₂, importBatch env ids.mint 0 (toImport env.sha s candidates.rows)
        (mergedStore env s candidates) = some (importedIds, s₂)
      ∧ (reconcileProject env s ids candidates false).2.rows.map (rowKey env)
        = s₂.rows.map (rowKey env) := by
  cases hbatch : importBatch env ids.mint 0 (toImport env.sha s candidates.rows)
      (mergedStore env s candidates) with
  | none =>
    have hbatch' : importBatch env ids.mint 0 (toImport env.sha s candidates.rows)
        ((present env.sha s candidates.rows).foldl
          (mergePresent env (entityToLocal env.sha s)) s) = none := hbatch
    rw [reconcileProject, if_neg (by simp), if_neg hne, hbatch'] at himported
    exact absurd (List.eq_nil_of_length_eq_zero himported.symm) hne
  | some result =>
    obtain ⟨importedIds, s₂⟩ := result
    have hbatch' : importBatch env ids.mint 0 (toImport env.sha s candidates.rows)
        ((present env.sha s candidates.rows).foldl
          (mergePresent env (entityToLocal env.sha s)) s) = some (importedIds, s₂) := hbatch
    refine ⟨importedIds, s₂, rfl, ?_⟩
    rw [reconcileProject, if_neg (by simp), if_neg hne, hbatch']
    exact linkImported_keys _ _

/-- What an entry is imported as: its tags and files always, its successor when the group is
    archived and names one of other content first. -/
theorem importedFrom_iff (hx : x ∈ entries env s ids candidates)
    (hunique : ((finalRows env s ids candidates).map Note.id).Nodup) :
    ImportedFrom env candidates.rows (finalRows env s ids candidates) x.1.entityId
        (applyLink (linkOf (buildSupersedeEdges env.sha candidates.rows)
          (localOf env s ids candidates) x) (storedRow env x.2 x.1))
      ↔ ((∃ e ∈ successorEntities env.sha candidates.rows x.1.entityId, e ≠ x.1.entityId) →
        (∃ d ∈ group env.sha candidates.rows x.1.entityId, d.isArchived = true)
          ∧ (successorEntities env.sha candidates.rows x.1.entityId).head? ≠ some x.1.entityId) := by
  have hfolds : Folds env.sha candidates.rows x.1 :=
    folds_of_mem_toImport (mem_of_mem_minted hx)
  have hedge := @lookup_buildSupersedeEdges env.sha candidates.rows x.1.entityId
  constructor
  · intro h hgenuine
    obtain ⟨e, -, -, n', -, -, hlink⟩ := h.linked hgenuine
    -- the row came without a successor, so one was written
    cases hof : linkOf (buildSupersedeEdges env.sha candidates.rows)
        (localOf env s ids candidates) x with
    | none =>
      rw [hof] at hlink
      cases hlink
    | some t =>
      rw [linkOf] at hof
      split at hof
      case isFalse => cases hof
      case isTrue harchived =>
        refine ⟨hfolds.archived.mp harchived, ?_⟩
        intro hself
        rw [hedge, hself, Option.bind_some, localOf_of_mem_entries hx, Option.filter_some,
          if_neg (by simp)] at hof
        cases hof
  · intro h
    have htags (link : Option NoteId) : (applyLink link (storedRow env x.2 x.1)).tags
        = unionInto [] (x.1.tags.filterMap env.normalizeTag) := by cases link <;> rfl
    have hfiles (link : Option NoteId) : (applyLink link (storedRow env x.2 x.1)).linkedFiles
        = unionInto [] (x.1.linkedFiles.filterMap env.linkPath) := by cases link <;> rfl
    refine ⟨fun t => ?_, fun f => ?_, ?_⟩
    · rw [htags, mem_unionInto, List.mem_filterMap]
      simp only [hfolds.tags, List.not_mem_nil, false_or]
      constructor
      · rintro ⟨u, ⟨c, hc, hu⟩, heq⟩
        exact ⟨c, hc, u, hu, heq⟩
      · rintro ⟨c, hc, u, hu, heq⟩
        exact ⟨u, ⟨c, hc, hu⟩, heq⟩
    · rw [hfiles, mem_unionInto, List.mem_filterMap]
      simp only [hfolds.linkedFiles, List.not_mem_nil, false_or]
      constructor
      · rintro ⟨u, ⟨c, hc, hu⟩, heq⟩
        exact ⟨c, hc, u, hu, heq⟩
      · rintro ⟨c, hc, u, hu, heq⟩
        exact ⟨u, ⟨c, hc, hu⟩, heq⟩
    · intro hgenuine
      obtain ⟨harchived, hhead⟩ := h hgenuine
      obtain ⟨e, hmem, -⟩ := hgenuine
      cases hfirst : (successorEntities env.sha candidates.rows x.1.entityId).head? with
      | none =>
        rw [List.head?_eq_none_iff] at hfirst
        rw [hfirst] at hmem
        cases hmem
      | some e₀ =>
        have hne : e₀ ≠ x.1.entityId := fun heq => hhead (heq ▸ hfirst)
        have hmem₀ := List.mem_of_mem_head? hfirst
        -- the successor is a candidate itself, so it has a row by now
        obtain ⟨c, -, hc⟩ := List.mem_filterMap.mp hmem₀
        obtain ⟨d, hd, rfl⟩ := Option.map_eq_some_iff.mp hc
        obtain ⟨id, -, hfind⟩ := Option.bind_eq_some_iff.mp hd
        obtain ⟨t, ht⟩ := Option.isSome_iff_exists.mp
          (@localOf_isSome env s ids candidates d (List.mem_of_find?_eq_some hfind))
        obtain ⟨n', hn', hid, hcontent⟩ := exists_row_of_localOf ht
        have hother : t ≠ x.2 := by
          rintro rfl
          obtain ⟨own, hown, hownId, hownContent⟩ := exists_row_of_localOf
            (localOf_of_mem_entries hx)
          obtain rfl := List.inj_on_of_nodup_map hunique hn' hown (hid.trans hownId.symm)
          exact hne (hcontent.symm.trans hownContent)
        have hlink : linkOf (buildSupersedeEdges env.sha candidates.rows)
            (localOf env s ids candidates) x = some t := by
          rw [linkOf, if_pos (hfolds.archived.mpr harchived), hedge, hfirst, Option.bind_some, ht,
            Option.filter_some, if_pos (by simp [hother])]
        refine ⟨_, hmem₀, hne, n', hn', hcontent, ?_⟩
        rw [hlink, hid]
        rfl

/-- Candidates are reconciled as they should exactly when no file of an entry to import is
    refused, no key of one is taken by other content, and every group that is superseded by
    other content is archived and names such a successor first. -/
theorem collapseHolds_iff (env : DedupeEnv) (s : Store) (ids : FreshIds s) (candidates : Candidates) :
    CollapseHolds env s ids candidates ↔ Importable env s candidates.rows := by
  constructor
  · intro h
    have himported := counts_iff.mp h.counts
    have hne (c : ServerNote) (hc : c ∈ candidates.rows)
        (hnone : entityToLocal env.sha s (c.entityId env.sha) = none) :
        toImport env.sha s candidates.rows ≠ [] := by
      obtain ⟨m, hm, -⟩ := exists_mem_toImport hc hnone
      exact List.ne_nil_of_mem hm
    have hinside : ∀ c ∈ candidates.rows, entityToLocal env.sha s (c.entityId env.sha) = none →
        ∀ f ∈ c.linkedFiles, env.refuses f = false := by
      intro c hc hnone f hf
      obtain ⟨importedIds, s₂, hsome, -⟩ := exists_importBatch (hne c hc hnone) himported
      obtain ⟨m, hm, hmc⟩ := exists_mem_toImport hc hnone
      have hfile : f ∈ m.linkedFiles := ((folds_of_mem_toImport hm).linkedFiles f).mpr
        ⟨c, List.mem_filter.mpr ⟨hc, by simp [hmc]⟩, hf⟩
      have hany := (importBatch_eq_some hsome).1 m hm
      simpa using List.any_eq_false.mp hany f hfile
    -- a row with the key but another content would have taken the import in
    have hunclaimed : ∀ c ∈ candidates.rows, entityToLocal env.sha s (c.entityId env.sha) = none →
        ∀ n ∈ s.rows, n.entityId ≠ c.entityId env.sha := by
      intro c hc hnone n hn hkey
      obtain ⟨importedIds, s₂, hsome, hrows⟩ := exists_importBatch (hne c hc hnone) himported
      obtain ⟨n', hfilter, -⟩ := h.once c hc hnone
      have hn' : n' ∈ [n'] := List.mem_singleton_self n'
      rw [← hfilter, List.mem_filter, decide_eq_true_eq] at hn'
      obtain ⟨n₂, hn₂, -, -, hcontent⟩ := exists_row_of_key hrows hn'.1
      rcases (importBatch_eq_some hsome).2.2.2 n₂ hn₂ with ⟨n₁, hn₁, hsame⟩ | hnew
      · obtain ⟨n₀, hn₀, -, -, hsame₀⟩ := exists_row_of_key (@mergedStore_keys env s candidates) hn₁
        exact entityToLocal_eq_none_iff.mp hnone n₀ hn₀
          (hsame₀.trans (hsame.trans (hcontent.trans hn'.2)))
      · obtain ⟨n₁, hn₁, -, hkey₁, -⟩ := exists_row_of_key (@mergedStore_keys env s candidates).symm hn
        refine hnew ?_
        rw [hcontent, hn'.2, ← hkey, ← hkey₁]
        exact List.mem_map_of_mem hn₁
    refine ⟨hinside, hunclaimed, ?_⟩
    intro c hc hnone
    have hfresh := importable_fresh hinside hunclaimed
    obtain ⟨m, hm, hmc⟩ := exists_mem_toImport hc hnone
    obtain ⟨u, hu⟩ := @exists_minted ids.mint 0 _ m hm
    obtain ⟨-, hrows⟩ := @reconcileProject_of_fresh env s ids candidates hfresh.1 hfresh.2
    obtain ⟨n, hfilter, hfrom⟩ := h.once c hc hnone
    have hunique := (reconcileProject env s ids candidates false).2.uuidUnique
    rw [hrows] at hfilter hfrom hunique
    have hone := @filter_finalRows env s ids candidates _ hu
    dsimp only at hone
    rw [hmc, hfilter, List.singleton_inj] at hone
    rw [hone, ← hmc] at hfrom
    rw [← hmc]
    exact (importedFrom_iff hu hunique).mp hfrom
  · intro h
    have hfresh := importable_fresh h.inside h.unclaimed
    obtain ⟨himported, hrows⟩ := @reconcileProject_of_fresh env s ids candidates hfresh.1 hfresh.2
    refine ⟨counts_iff.mpr himported, ?_⟩
    intro c hc hnone
    obtain ⟨m, hm, hmc⟩ := exists_mem_toImport hc hnone
    obtain ⟨u, hu⟩ := @exists_minted ids.mint 0 _ m hm
    have hunique := (reconcileProject env s ids candidates false).2.uuidUnique
    rw [hrows] at hunique
    rw [hrows, ← hmc]
    refine ⟨_, @filter_finalRows env s ids candidates _ hu, (importedFrom_iff hu hunique).mpr ?_⟩
    have hsuccession := h.succession c hc hnone
    rw [← hmc] at hsuccession
    exact hsuccession

end Run

/-! ## A pointer back into the group -/

/-- Two archived rows of one content and a later decision.  The first row's successor is the
    second, the second's is the decision. -/
def chained : Candidates where
  rows := [⟨1, "decision", "Cache", "Use a cache.", [], [], 1000, "archived", some 2⟩,
    ⟨2, "decision", "Cache", "Use a cache.", [], [], 2000, "archived", some 3⟩,
    ⟨3, "decision", "No cache", "Drop it.", [], [], 3000, "active", none⟩]
  idUnique := by decide

def mintNote (i : Nat) : NoteId := ⟨String.ofList (List.replicate i 'n')⟩

def chainedIds : FreshIds Store.empty where
  mint := mintNote
  distinct i j h := by
    have hlists := congrArg (fun id => id.token.toList.length) h
    simpa [mintNote] using hlists
  fresh i := List.not_mem_nil

theorem not_collapseHolds_of_chained :
    ¬ CollapseHolds plainDedupeEnv Store.empty chainedIds chained := by
  intro h
  obtain ⟨n, hfilter, hfrom⟩ := h.once
    ⟨1, "decision", "Cache", "Use a cache.", [], [], 1000, "archived", some 2⟩
    List.mem_cons_self (by decide +kernel)
  obtain ⟨e, -, -, n', -, -, hlink⟩ := hfrom.linked (by decide +kernel)
  have hrow : ∀ n ∈ (reconcileProject plainDedupeEnv Store.empty chainedIds chained false).2.rows,
      n.supersededBy = none := by decide +kernel
  have hn : n ∈ [n] := List.mem_singleton_self n
  rw [← hfilter] at hn
  rw [hrow n (List.mem_of_mem_filter hn)] at hlink
  cases hlink

end Reconcile
end Memory
end Inkentry
