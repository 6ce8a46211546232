/-
  Inkentry.Carrier.Convergence

  Two machines that read the same ref.  Each store was filled by imports of the
  ref as it stood earlier, and then of the ref as it stands now; the stores
  should agree on every entry.

  An import inserts the entries it has no row for and leaves the other rows
  alone, so what a store says about an entry is what the ref said when the entry
  was first listed (`entryState_importAll`).  Of an entry's later history only
  the supersede edges arrive (`succeeds_importAll`).
-/

import Mathlib.Data.Finset.Basic
import Inkentry.Carrier.Completeness

namespace Inkentry
namespace Carrier

open OrderLimit GitNotes Memory SortedSet

/-! ## What a store says about an entry -/

/-- The lifecycle fields of a row. -/
structure EntryState where
  status : String
  tags : Finset String
  linkedFiles : Finset String
  validAt : Option Int
  invalidAt : Option Int
  deriving DecidableEq

def rowState (n : Note) : EntryState :=
  ⟨n.status, n.tags.toFinset, n.linkedFiles.toFinset, n.validAt, n.invalidAt⟩

def entryState (s : Store) (entity : String) : Option EntryState :=
  (s.rowForEntity? entity).map rowState

/-- One entry is recorded as the successor of another, on its row or by an edge. -/
def Succeeds (s : Store) (successor entity : String) : Prop :=
  ∃ source ∈ s.rows, ∃ target ∈ s.rows,
    source.entityId = successor ∧ target.entityId = entity
      ∧ (target.supersededBy = some source.id
        ∨ (⟨source.id, target.id, "supersedes"⟩ : MemoryEdge) ∈ s.edges)

/-- Two stores say the same about an entry. -/
def Agree (s s' : Store) (entity : String) : Prop :=
  entryState s entity = entryState s' entity
    ∧ ∀ successor, Succeeds s successor entity ↔ Succeeds s' successor entity

/-! ## Imports, one after another -/

/-- The ref as it stood at one import, and the ids the import gave its rows. -/
structure RefImport where
  repo : Repo
  oid : Option String
  mint : Nat → NoteId

/-- A store's imports, each of which went through. -/
def importAll (env : ImportEnv) :
    List RefImport → Option (MemoryDb String) → Option (Option (MemoryDb String))
  | [], db? => some db?
  | i :: rest, db? =>
    (importGitNotesIntoMemory env i.mint i.repo i.oid db?).bind fun r => importAll env rest r.2

/-- What an import lists. -/
def RefImport.listed (sha : String → String) (i : RefImport) : List Note :=
  collect sha i.repo none true none GIT_NOTES_MAX_LIST

/-- The supersedes an import finds on the ref: the entity, and its replacement. -/
def RefImport.supersedes (sha : String → String) (i : RefImport) : List (String × String) :=
  (i.repo.foldedRecords sha).filterMap fun r =>
    r.supersededByEntityId.map fun successor => (r.resolveEntityId sha, successor)

/-- What the row of a listed entry starts out with. -/
def listedState (env : ImportEnv) (n : Note) : EntryState where
  status := if n.status = "archived" then "archived" else "active"
  tags := (n.tags.filterMap env.normalizeTag).toFinset
  linkedFiles := (n.linkedFiles.filterMap env.linkPath).toFinset
  validAt := none
  invalidAt := none

/-- What the first import that listed an entity said about it. -/
def firstListed (env : ImportEnv) (imports : List RefImport) (entity : String) :
    Option EntryState :=
  (imports.findSome? fun i =>
    (i.listed env.sha).find? fun n => noteEntityId env.sha n = entity).map (listedState env)

/-- Some import found a supersede when both of its ends had been listed by then, or were
    known from the start. -/
def Linked (sha : String → String) : List String → List RefImport → String → String → Prop
  | _, [], _, _ => False
  | known, i :: rest, successor, entity =>
    let known' := known ++ (i.listed sha).map (noteEntityId sha)
    ((entity, successor) ∈ i.supersedes sha ∧ successor ≠ entity
        ∧ successor ∈ known' ∧ entity ∈ known')
      ∨ Linked sha known' rest successor entity

/-! ## Stores filled by imports -/

/-- What imports alone leave: rows under the identity of their content, without a
    successor column, and edges between rows. -/
structure FilledByImports (sha : String → String) (s : Store) : Prop where
  keyed : ∀ n ∈ s.rows, n.entityId = noteEntityId sha n
  no_column : ∀ n ∈ s.rows, n.supersededBy = none
  edges_linked : ∀ e ∈ s.edges, (∃ n ∈ s.rows, n.id = e.fromId) ∧ ∃ n ∈ s.rows, n.id = e.toId

theorem filledByImports_empty (sha : String → String) : FilledByImports sha Store.empty where
  keyed n hn := absurd hn (by simp [Store.empty])
  no_column n hn := absurd hn (by simp [Store.empty])
  edges_linked e he := absurd he (by simp [Store.empty])

/-! ## One import -/

variable {notes new : List Note} {sha : String → String} {mint : Nat → NoteId}

/-- The row a listed entry is inserted as. -/
def listedRow (env : ImportEnv) (uuid : NoteId) (n : Note) : Note :=
  (attachEdit env.toStoreEnv n.tags n.linkedFiles).apply (importedRow env.toStoreEnv uuid n)

@[simp] theorem listedRow_entityId (env : ImportEnv) (uuid : NoteId) (n : Note) :
    (listedRow env uuid n).entityId = noteEntityId env.sha n := rfl

theorem rowState_listedRow (env : ImportEnv) (uuid : NoteId) (n : Note) :
    rowState (listedRow env uuid n) = listedState env n := by
  have hset (l : List String) : (unionInto [] l).toFinset = l.toFinset := by
    ext t
    simp [unionInto, mem_sortDedup]
  simp only [rowState, listedState, listedRow, attachEdit, importedRow, freshRow, hset]

/-- An entry whose content has no row is inserted as a row of its own. -/
theorem rows_addNoteWithCreatedAt {env : ImportEnv} {s s' : Store} {uuid : NoteId} {n : Note}
    (h : addNoteWithCreatedAt env s uuid n = some s')
    (hnew : noteEntityId env.sha n ∉ entities s) :
    s'.edges = s.edges ∧ s'.rows = s.rows ++ [listedRow env uuid n] := by
  rw [addNoteWithCreatedAt] at h
  split at h
  case isTrue => exact absurd h (by simp)
  case isFalse =>
    obtain ⟨⟨id, created, s₁⟩, hins, rfl⟩ := Option.map_eq_some_iff.mp h
    rcases Store.insertOrRecover_cases hins with ⟨-, -, s₂, hrow, rfl⟩ | ⟨-, row, hrow, hent, -, -⟩
    · obtain ⟨hrows, hedges, hid, -⟩ := Store.insertRow_eq_some hrow
      refine ⟨hedges, ?_⟩
      -- the tags and files are attached to the new row only, whose id is fresh
      have hothers : s.rows.map (fun m => if m.id = uuid then
          (attachEdit env.toStoreEnv n.tags n.linkedFiles).apply m else m) = s.rows := by
        refine (List.map_congr_left fun m hm => ?_).trans (List.map_id _)
        have hne : m.id ≠ uuid := fun heq => hid (List.mem_map.mpr ⟨m, hm, heq⟩)
        simp [hne]
      show s₂.rows.map _ = _
      rw [hrows, List.map_append]
      refine congrArg₂ _ ?_ ?_
      · simp only [decide_eq_true_eq]
        exact hothers
      · simp [listedRow]
    · exact absurd (List.mem_map.mpr ⟨row, hrow, hent⟩) hnew

/-- The rows of entries whose contents are new and distinct. -/
theorem rows_importNotes {env : ImportEnv} {i : Nat} {s s' : Store} {notes : List Note}
    (h : importNotes env mint i s notes = some s')
    (hnew : ∀ n ∈ notes, noteEntityId env.sha n ∉ entities s)
    (hdistinct : (notes.map (noteEntityId env.sha)).Nodup) :
    s'.edges = s.edges ∧ ∃ new, s'.rows = s.rows ++ new
      ∧ List.Forall₂ (fun n row => ∃ uuid, row = listedRow env uuid n) notes new := by
  induction notes generalizing i s with
  | nil =>
    obtain rfl := Option.some.inj h
    exact ⟨rfl, [], by simp, .nil⟩
  | cons n rest ih =>
    obtain ⟨s₁, hadd, hrest⟩ := Option.bind_eq_some_iff.mp h
    obtain ⟨hedges, hrows⟩ := rows_addNoteWithCreatedAt hadd (hnew n (by simp))
    rw [List.map_cons, List.nodup_cons] at hdistinct
    obtain ⟨hedges', new, hrows', hnewrows⟩ := ih hrest (by
      intro m hm hmem
      rw [entities, hrows, List.map_append, List.mem_append] at hmem
      rcases hmem with hold | hone
      · exact hnew m (by simp [hm]) hold
      · simp only [List.map_cons, List.map_nil, List.mem_singleton, listedRow_entityId] at hone
        exact hdistinct.1 (hone ▸ List.mem_map_of_mem hm)) hdistinct.2
    refine ⟨hedges'.trans hedges, listedRow env (mint i) n :: new, ?_, .cons ⟨_, rfl⟩ hnewrows⟩
    rw [hrows', hrows, List.append_assoc, List.singleton_append]

theorem find?_listedRows {env : ImportEnv} (entity : String)
    (h : List.Forall₂ (fun n row => ∃ uuid, row = listedRow env uuid n) notes new) :
    (new.find? fun row => row.entityId = entity).map rowState
      = (notes.find? fun n => noteEntityId env.sha n = entity).map (listedState env) := by
  induction h with
  | nil => rfl
  | cons hhead _ ih =>
    obtain ⟨uuid, rfl⟩ := hhead
    rw [List.find?_cons, List.find?_cons, listedRow_entityId]
    split
    · simp [rowState_listedRow]
    · exact ih

theorem mem_listedRows {env : ImportEnv} {row : Note}
    (h : List.Forall₂ (fun n row => ∃ uuid, row = listedRow env uuid n) notes new)
    (hrow : row ∈ new) : ∃ n uuid, row = listedRow env uuid n := by
  induction h with
  | nil => exact absurd hrow (by simp)
  | cons hhead _ ih =>
    rcases List.mem_cons.mp hrow with rfl | hrest
    · exact ⟨_, hhead⟩
    · exact ih hrest

theorem entities_listedRows {env : ImportEnv}
    (h : List.Forall₂ (fun n row => ∃ uuid, row = listedRow env uuid n) notes new) :
    new.map Note.entityId = notes.map (noteEntityId env.sha) := by
  induction h with
  | nil => rfl
  | cons hhead _ ih =>
    obtain ⟨uuid, rfl⟩ := hhead
    rw [List.map_cons, List.map_cons, ih, listedRow_entityId]

theorem newEntries_fresh (sha : String → String) (existing : List String) (notes : List Note) :
    (∀ n ∈ newEntries sha existing notes, noteEntityId sha n ∉ existing)
      ∧ ((newEntries sha existing notes).map (noteEntityId sha)).Nodup := by
  induction notes generalizing existing with
  | nil => simp [newEntries]
  | cons n rest ih =>
    rw [newEntries]
    split
    case isTrue => exact ih existing
    case isFalse hn =>
      obtain ⟨hfresh, hnodup⟩ := ih (noteEntityId sha n :: existing)
      refine ⟨?_, ?_⟩
      · rintro m (_ | ⟨_, hm⟩)
        · exact hn
        · exact fun hmem => hfresh m hm (List.mem_cons_of_mem _ hmem)
      · rw [List.map_cons, List.nodup_cons]
        refine ⟨fun hmem => ?_, hnodup⟩
        obtain ⟨m, hm, heq⟩ := List.mem_map.mp hmem
        exact hfresh m hm (heq ▸ List.mem_cons_self)

theorem find?_newEntries {existing : List String} (notes : List Note) {entity : String}
    (h : entity ∉ existing) :
    (newEntries sha existing notes).find? (fun n => noteEntityId sha n = entity)
      = notes.find? fun n => noteEntityId sha n = entity := by
  induction notes generalizing existing with
  | nil => rfl
  | cons n rest ih =>
    rw [newEntries]
    by_cases hn : noteEntityId sha n = entity
    · rw [if_neg (hn ▸ h), List.find?_cons_of_pos (by simpa using hn),
        List.find?_cons_of_pos (by simpa using hn)]
    · rw [List.find?_cons_of_neg (l := rest) (by simpa using hn)]
      split
      · exact ih h
      · rw [List.find?_cons_of_neg (by simpa using hn)]
        exact ih (by simp [h, Ne.symm hn])

/-! ## The edges of an import -/

variable {e : MemoryEdge}

theorem mem_edges_insertEdge (s : Store) (e e' : MemoryEdge) :
    e ∈ (s.insertEdge e').edges ↔ e ∈ s.edges ∨ e = e' := by
  rw [Store.insertEdge]
  split
  case isTrue hmem =>
    refine ⟨.inl, ?_⟩
    rintro (he | rfl)
    · exact he
    · exact hmem
  case isFalse => simp

theorem mem_edges_applyEdge {kind source target : String} {acc : CarriedEdgeImport × Store} :
    e ∈ (applyEdge kind source target acc).2.edges ↔ e ∈ acc.2.edges
      ∨ ∃ from? ∈ acc.2.rowForEntity? source, ∃ to? ∈ acc.2.rowForEntity? target,
        e = ⟨from?.id, to?.id, kind⟩ := by
  rw [applyEdge]
  cases hsource : acc.2.rowForEntity? source with
  | none => simp
  | some m =>
    cases htarget : acc.2.rowForEntity? target with
    | none => simp
    | some n =>
      simp only [Option.mem_some_iff, exists_eq_left']
      split
      case isTrue hmem =>
        refine ⟨.inl, ?_⟩
        rintro (he | rfl)
        · exact he
        · exact hmem
      case isFalse => exact mem_edges_insertEdge _ _ _

theorem rowForEntity?_congr {s s' : Store} (h : s'.rows = s.rows) (entity : String) :
    s'.rowForEntity? entity = s.rowForEntity? entity := by
  rw [Store.rowForEntity?, Store.rowForEntity?, h]

theorem mem_edges_importCarriedEdges {s : Store} {edges : List (String × CarriedEdge)}
    (h : e ∈ (importCarriedEdges s edges).2.edges) :
    e ∈ s.edges ∨ e.kind ≠ "supersedes" ∧ (∃ n ∈ s.rows, n.id = e.fromId)
      ∧ ∃ n ∈ s.rows, n.id = e.toId := by
  induction edges using List.reverseRecOn generalizing e with
  | nil => exact .inl h
  | append_singleton edges c ih =>
    rw [importCarriedEdges, List.foldl_append, List.foldl_cons, List.foldl_nil,
      ← importCarriedEdges] at h
    split at h
    case isFalse => exact ih h
    case isTrue hkind =>
      rcases mem_edges_applyEdge.mp h with hold | ⟨m, hm, n, hn, rfl⟩
      · exact ih hold
      · rw [rowForEntity?_congr (importCarriedEdges_rows s edges), Option.mem_def,
          Store.rowForEntity?_eq_some_iff] at hm hn
        refine .inr ⟨?_, ⟨m, hm.1, rfl⟩, n, hn.1, rfl⟩
        rcases hkind with hkind | hkind <;> simp [hkind]

theorem edges_subset_importCarriedEdges (s : Store) (edges : List (String × CarriedEdge)) :
    ∀ e ∈ s.edges, e ∈ (importCarriedEdges s edges).2.edges := by
  induction edges using List.reverseRecOn with
  | nil => exact fun _ he => he
  | append_singleton edges c ih =>
    intro e he
    rw [importCarriedEdges, List.foldl_append, List.foldl_cons, List.foldl_nil,
      ← importCarriedEdges]
    split
    · exact mem_edges_applyEdge.mpr (.inl (ih e he))
    · exact ih e he

/-- A supersede is added when both of its ends have rows, and different ones. -/
theorem mem_edges_importSupersedeEdges {s : Store} {pairs : List (String × String)} :
    e ∈ (importSupersedeEdges s pairs).2.edges ↔ e ∈ s.edges
      ∨ ∃ p ∈ pairs, ∃ m ∈ s.rowForEntity? p.2, ∃ n ∈ s.rowForEntity? p.1, m.id ≠ n.id
        ∧ e = ⟨m.id, n.id, "supersedes"⟩ := by
  -- an edge moves no row, so each pair finds the rows the first one found
  induction pairs using List.reverseRecOn generalizing e with
  | nil => simp [importSupersedeEdges]
  | append_singleton pairs p ih =>
    have hrows := importSupersedeEdges_rows s pairs
    rw [importSupersedeEdges, List.foldl_append, List.foldl_cons, List.foldl_nil,
      ← importSupersedeEdges]
    simp only [List.mem_append, List.mem_singleton, or_and_right, exists_or, exists_eq_left,
      ← or_assoc, ← ih]
    simp only [rowForEntity?_congr hrows]
    cases hm : s.rowForEntity? p.2 with
    | none =>
      simp only [mem_edges_applyEdge, rowForEntity?_congr hrows, hm]
      simp
    | some m =>
      cases hn : s.rowForEntity? p.1 with
      | none =>
        simp only [mem_edges_applyEdge, rowForEntity?_congr hrows, hm, hn]
        simp
      | some n =>
        simp only [Option.mem_some_iff, exists_eq_left']
        split
        case isTrue heq => simp [heq]
        case isFalse hne =>
          simp only [mem_edges_applyEdge, rowForEntity?_congr hrows, hm, hn, Option.mem_some_iff,
            exists_eq_left', ne_eq, hne, not_false_eq_true, true_and]

/-! ## What one import does -/

variable {outcome : GitNotesImport}

/-- The rows and edges after an import that knew the contents of every row. -/
structure ImportEffect (env : ImportEnv) (listed : List Note) (pairs : List (String × String))
    (s s' : Store) : Prop where
  rows : ∃ new, s'.rows = s.rows ++ new
    ∧ List.Forall₂ (fun n row => ∃ uuid, row = listedRow env uuid n)
      (newEntries env.sha (entities s) listed) new
  supersedes : ∀ a b, (⟨a, b, "supersedes"⟩ : MemoryEdge) ∈ s'.edges
    ↔ (⟨a, b, "supersedes"⟩ : MemoryEdge) ∈ s.edges
      ∨ ∃ p ∈ pairs, ∃ m ∈ s'.rowForEntity? p.2, ∃ n ∈ s'.rowForEntity? p.1, m.id ≠ n.id
        ∧ a = m.id ∧ b = n.id
  linked : ∀ e ∈ s'.edges, e ∈ s.edges
    ∨ (∃ n ∈ s'.rows, n.id = e.fromId) ∧ ∃ n ∈ s'.rows, n.id = e.toId

theorem ImportEffect.of_nothing {env : ImportEnv} {listed : List Note} {s : Store}
    (h : newEntries env.sha (entities s) listed = []) : ImportEffect env listed [] s s where
  rows := ⟨[], by simp, by rw [h]; exact .nil⟩
  supersedes a b := by simp
  linked e he := .inl he

theorem importEffect_importIntoMemory {Oid : Type*} {env : ImportEnv} {listed : List Note}
    {workingOid : Option Oid} {carried : List (String × CarriedEdge)}
    {pairs : List (String × String)} {db? db'? : Option (MemoryDb Oid)}
    (h : importIntoMemory env mint listed workingOid (entities (db?.getD .fresh).store) carried pairs db? = some (outcome, db'?))
    (hnil : listed = [] → pairs = []) :
    ImportEffect env listed pairs (db?.getD .fresh).store (db'?.getD .fresh).store := by
  rw [importIntoMemory] at h
  split at h
  case isTrue hlisted =>
    have hstore : (db'?.getD .fresh).store = (db?.getD .fresh).store := by
      rw [← (Prod.mk.inj (Option.some.inj h)).2]
      cases db? <;> rfl
    rw [hstore, hnil hlisted]
    exact .of_nothing (by rw [hlisted]; rfl)
  case isFalse =>
    simp only at h
    split at h
    case isTrue hnothing =>
      obtain ⟨hnew, -, rfl⟩ := hnothing
      rw [← (Prod.mk.inj (Option.some.inj h)).2]
      exact .of_nothing hnew
    case isFalse =>
      obtain ⟨s₁, hs₁, hrest⟩ := Option.map_eq_some_iff.mp h
      rw [← (Prod.mk.inj hrest).2]
      obtain ⟨hfresh, hnodup⟩ :=
        newEntries_fresh env.sha (entities (db?.getD .fresh).store) listed
      obtain ⟨hedges, new, hrows, hlistedRows⟩ := rows_importNotes hs₁ hfresh hnodup
      have hrows₂ : (importCarriedEdges s₁ carried).2.rows = s₁.rows :=
        importCarriedEdges_rows s₁ carried
      have hrows₃ : (importSupersedeEdges (importCarriedEdges s₁ carried).2 pairs).2.rows
          = s₁.rows := (importSupersedeEdges_rows _ pairs).trans hrows₂
      -- carried edges go in before the successions, and none of them is one
      have hcarried {e : MemoryEdge} (he : e ∈ (importCarriedEdges s₁ carried).2.edges) :
          e ∈ (db?.getD .fresh).store.edges ∨ e.kind ≠ "supersedes"
            ∧ (∃ n ∈ s₁.rows, n.id = e.fromId) ∧ ∃ n ∈ s₁.rows, n.id = e.toId := by
        rw [← hedges]
        exact mem_edges_importCarriedEdges he
      constructor
      · exact ⟨new, hrows₃.trans hrows, hlistedRows⟩
      · intro a b
        show _ ∈ (importSupersedeEdges (importCarriedEdges s₁ carried).2 pairs).2.edges ↔ _
        -- so the `supersedes` edges are the old ones and those of the pairs
        have hkeep : (⟨a, b, "supersedes"⟩ : MemoryEdge) ∈ (importCarriedEdges s₁ carried).2.edges
            ↔ (⟨a, b, "supersedes"⟩ : MemoryEdge) ∈ (db?.getD .fresh).store.edges := by
          refine ⟨fun he => ?_, fun he => edges_subset_importCarriedEdges s₁ carried _ (hedges ▸ he)⟩
          rcases hcarried he with hold | ⟨hkind, -, -⟩
          · exact hold
          · exact absurd rfl hkind
        rw [mem_edges_importSupersedeEdges, hkeep]
        simp only [Option.getD_some, rowForEntity?_congr hrows₂, rowForEntity?_congr hrows₃,
          MemoryEdge.mk.injEq, and_true]
      · intro e he
        rw [Option.getD_some] at he ⊢
        rw [hrows₃]
        rcases mem_edges_importSupersedeEdges.mp he with hold | ⟨p, -, m, hm, n, hn, -, rfl⟩
        · exact (hcarried hold).imp id fun hends => hends.2
        · rw [rowForEntity?_congr hrows₂, Option.mem_def, Store.rowForEntity?_eq_some_iff] at hm hn
          exact .inr ⟨⟨m, hm.1, rfl⟩, n, hn.1, rfl⟩

section

variable {env : ImportEnv} {listed : List Note} {pairs : List (String × String)} {s s' : Store}

theorem ImportEffect.subset (h : ImportEffect env listed pairs s s') :
    ∀ n ∈ s.rows, n ∈ s'.rows := by
  obtain ⟨new, hrows, -⟩ := h.rows
  exact fun n hn => hrows ▸ List.mem_append_left _ hn

theorem ImportEffect.filled (h : ImportEffect env listed pairs s s')
    (hs : FilledByImports env.sha s) : FilledByImports env.sha s' := by
  obtain ⟨new, hrows, hnew⟩ := h.rows
  have hlistedRow : ∀ n ∈ s'.rows, n ∈ s.rows ∨ ∃ m uuid, n = listedRow env uuid m := by
    intro n hn
    rw [hrows, List.mem_append] at hn
    refine hn.imp id fun hn => ?_
    exact mem_listedRows hnew hn
  constructor
  · intro n hn
    rcases hlistedRow n hn with hold | ⟨m, uuid, rfl⟩
    · exact hs.keyed n hold
    · rfl
  · intro n hn
    rcases hlistedRow n hn with hold | ⟨m, uuid, rfl⟩
    · exact hs.no_column n hold
    · rfl
  · intro e he
    rcases h.linked e he with hold | hends
    · obtain ⟨⟨m, hm, hmid⟩, n, hn, hnid⟩ := hs.edges_linked e hold
      exact ⟨⟨m, h.subset m hm, hmid⟩, n, h.subset n hn, hnid⟩
    · exact hends

theorem ImportEffect.mem_entities (h : ImportEffect env listed pairs s s') (entity : String) :
    entity ∈ entities s' ↔ entity ∈ entities s ++ listed.map (noteEntityId env.sha) := by
  obtain ⟨new, hrows, hnew⟩ := h.rows
  rw [entities, hrows, List.map_append, entities_listedRows hnew, ← entities, List.mem_append,
    List.mem_append, List.mem_map, exists_mem_newEntries, List.mem_map]
  tauto

/-- A row that was there stays as it is; a new one says what was listed. -/
theorem ImportEffect.entryState (h : ImportEffect env listed pairs s s') (entity : String) :
    entryState s' entity = (entryState s entity).or
      ((listed.find? fun n => noteEntityId env.sha n = entity).map (listedState env)) := by
  obtain ⟨new, hrows, hnew⟩ := h.rows
  rw [Carrier.entryState, Store.rowForEntity?, hrows, List.find?_append, Carrier.entryState,
    ← Store.rowForEntity?]
  cases hrow : s.rowForEntity? entity with
  | some row => simp
  | none =>
    have hout : entity ∉ entities s := by
      intro hmem
      obtain ⟨n, hn, hent⟩ := List.mem_map.mp hmem
      have hsome := Store.rowForEntity?_eq_some_iff.mpr ⟨hn, hent⟩
      rw [hrow] at hsome
      exact absurd hsome (by simp)
    rw [Option.none_or, find?_listedRows entity hnew, find?_newEntries listed hout, Option.map_none,
      Option.none_or]

/-- A successor is known from before, or the import found it and both entries have rows. -/
theorem ImportEffect.succeeds (h : ImportEffect env listed pairs s s')
    (hs : FilledByImports env.sha s) (successor entity : String) :
    Succeeds s' successor entity ↔ Succeeds s successor entity
      ∨ (entity, successor) ∈ pairs ∧ successor ≠ entity
        ∧ successor ∈ entities s' ∧ entity ∈ entities s' := by
  have hrowId {m n : Note} (hm : m ∈ s'.rows) (hn : n ∈ s'.rows) (hid : m.id = n.id) : m = n :=
    List.inj_on_of_nodup_map s'.uuidUnique hm hn hid
  have hrowEntity {m n : Note} (hm : m ∈ s'.rows) (hn : n ∈ s'.rows)
      (hent : m.entityId = n.entityId) : m = n :=
    List.inj_on_of_nodup_map s'.entityUnique hm hn hent
  constructor
  · rintro ⟨source, hsource, target, htarget, rfl, rfl, hcolumn | hedge⟩
    · rw [(h.filled hs).no_column target htarget] at hcolumn
      exact absurd hcolumn (by simp)
    -- the edge was there, or a pair brought it and both ends have rows
    · rcases (h.supersedes _ _).mp hedge with hold | ⟨p, hp, m, hm, n, hn, hne, hmid, hnid⟩
      · obtain ⟨⟨m, hm, hmid⟩, n, hn, hnid⟩ := hs.edges_linked _ hold
        obtain rfl := hrowId (h.subset m hm) hsource hmid
        obtain rfl := hrowId (h.subset n hn) htarget hnid
        exact .inl ⟨m, hm, n, hn, rfl, rfl, .inr hold⟩
      · obtain ⟨hm, hment⟩ := Store.rowForEntity?_eq_some_iff.mp hm
        obtain ⟨hn, hnent⟩ := Store.rowForEntity?_eq_some_iff.mp hn
        obtain rfl := hrowId hm hsource hmid.symm
        obtain rfl := hrowId hn htarget hnid.symm
        refine .inr ⟨?_, ?_, List.mem_map_of_mem hm, List.mem_map_of_mem hn⟩
        · rw [hment, hnent]
          exact hp
        · exact fun heq => hne (congrArg Note.id (hrowEntity hm hn heq))
  · rintro (⟨source, hsource, target, htarget, hsent, htent, hlink⟩ | ⟨hp, hne, hsucc, hent⟩)
    · refine ⟨source, h.subset _ hsource, target, h.subset _ htarget, hsent, htent, ?_⟩
      exact hlink.imp id fun hedge => (h.supersedes _ _).mpr (.inl hedge)
    · obtain ⟨source, hsource, rfl⟩ := List.mem_map.mp hsucc
      obtain ⟨target, htarget, rfl⟩ := List.mem_map.mp hent
      refine ⟨source, hsource, target, htarget, rfl, rfl, .inr ?_⟩
      refine (h.supersedes _ _).mpr (.inr ⟨_, hp, source, ?_, target, ?_, ?_, rfl, rfl⟩)
      · exact Store.rowForEntity?_eq_some_iff.mpr ⟨hsource, rfl⟩
      · exact Store.rowForEntity?_eq_some_iff.mpr ⟨htarget, rfl⟩
      · exact fun hid => hne (congrArg Note.entityId (hrowId hsource htarget hid))

end

/-! ## Runs of imports -/

/-- The store in a file, an empty one where there is none. -/
def storeOf (db? : Option (MemoryDb String)) : Store := (db?.getD .fresh).store

theorem supersedes_eq_nil {i : RefImport} (h : i.listed sha = []) : i.supersedes sha = [] := by
  have hlen : (i.repo.foldedRecords sha).length = 0 := by
    have hlisted := congrArg List.length h
    rw [RefImport.listed, collect, List.length_map, List.length_drop] at hlisted
    have hcap : 0 < GIT_NOTES_MAX_LIST := by decide
    have hall : (i.repo.foldedRecords sha).filter (fun r => (none : Option String).all
        (fun k => r.kind = k) && recordInWindow true none r) = i.repo.foldedRecords sha := by
      simp [recordInWindow]
    rw [hall, length_sortBy] at hlisted
    simp only [List.length_nil] at hlisted
    omega
  rw [RefImport.supersedes, List.length_eq_zero_iff.mp hlen, List.filterMap_nil]

theorem importEffect_of_importGitNotes {env : ImportEnv} {i : RefImport}
    {db? db'? : Option (MemoryDb String)} (hs : FilledByImports env.sha (storeOf db?))
    (h : importGitNotesIntoMemory env i.mint i.repo i.oid db? = some (outcome, db'?)) :
    ImportEffect env (i.listed env.sha) (i.supersedes env.sha) (storeOf db?) (storeOf db'?) := by
  obtain ⟨notes, hlist, h⟩ := Option.bind_eq_some_iff.mp h
  obtain ⟨carried, -, h⟩ := Option.bind_eq_some_iff.mp h
  obtain ⟨pairs, hpairs, h⟩ := Option.bind_eq_some_iff.mp h
  rw [listForImport, list] at hlist
  rw [carriedSupersedeEdges] at hpairs
  split at hlist
  case isFalse => exact absurd hlist (by simp)
  case isTrue hread =>
    rw [if_pos hread] at hpairs
    obtain rfl : i.listed env.sha = notes := Option.some.inj hlist
    obtain rfl : i.supersedes env.sha = pairs := Option.some.inj hpairs
    have hknown : knownContents env.sha db? = entities (storeOf db?) :=
      List.map_congr_left fun n hn => (hs.keyed n hn).symm
    rw [hknown] at h
    exact importEffect_importIntoMemory h supersedes_eq_nil

/-- What a store says about an entry after its imports is what it said before, or what the
    first import that listed the entry said. -/
theorem entryState_importAll {env : ImportEnv} {imports : List RefImport}
    {db? db'? : Option (MemoryDb String)} (hs : FilledByImports env.sha (storeOf db?))
    (h : importAll env imports db? = some db'?) (entity : String) :
    entryState (storeOf db'?) entity
      = (entryState (storeOf db?) entity).or (firstListed env imports entity) := by
  induction imports generalizing db? with
  | nil =>
    obtain rfl := Option.some.inj h
    simp [firstListed]
  | cons i rest ih =>
    obtain ⟨⟨outcome, db₁?⟩, hi, hrest⟩ := Option.bind_eq_some_iff.mp h
    have heffect := importEffect_of_importGitNotes hs hi
    have hfirst : firstListed env (i :: rest) entity
        = (((i.listed env.sha).find? fun n => noteEntityId env.sha n = entity).map
            (listedState env)).or (firstListed env rest entity) := by
      rw [firstListed, List.findSome?_cons]
      split <;> rename_i hfind
      · rw [hfind, Option.map_some, Option.some_or]
      · rw [hfind, Option.map_none, Option.none_or, firstListed]
    rw [ih (heffect.filled hs) hrest, heffect.entryState, Option.or_assoc, hfirst]

/-- The successors a store knows after its imports are those it knew, and those an import
    found once both entries had been listed. -/
theorem succeeds_importAll {env : ImportEnv} {imports : List RefImport}
    {db? db'? : Option (MemoryDb String)} {known : List String}
    (hs : FilledByImports env.sha (storeOf db?))
    (hknown : ∀ e, e ∈ entities (storeOf db?) ↔ e ∈ known)
    (h : importAll env imports db? = some db'?) (successor entity : String) :
    Succeeds (storeOf db'?) successor entity ↔ Succeeds (storeOf db?) successor entity
      ∨ Linked env.sha known imports successor entity := by
  induction imports generalizing db? known with
  | nil =>
    obtain rfl := Option.some.inj h
    simp [Linked]
  | cons i rest ih =>
    obtain ⟨⟨outcome, db₁?⟩, hi, hrest⟩ := Option.bind_eq_some_iff.mp h
    have heffect := importEffect_of_importGitNotes hs hi
    have hknown' : ∀ e, e ∈ entities (storeOf db₁?)
        ↔ e ∈ known ++ (i.listed env.sha).map (noteEntityId env.sha) := by
      intro e
      rw [heffect.mem_entities, List.mem_append, List.mem_append, hknown]
    rw [ih (heffect.filled hs) hknown' hrest, heffect.succeeds hs, hknown', hknown', or_assoc]
    rfl

/-- Two machines whose stores were filled from a ref agree on every entry of it exactly
    when each entry was first listed alike on both, and its supersedes were met alike. -/
theorem converge_iff {env₁ env₂ : ImportEnv} {imports₁ imports₂ : List RefImport}
    {db₁ db₂ : Option (MemoryDb String)} (h₁ : importAll env₁ imports₁ none = some db₁)
    (h₂ : importAll env₂ imports₂ none = some db₂) (repo : Repo) :
    (∀ r, OnRef repo r → Agree (storeOf db₁) (storeOf db₂) (r.resolveEntityId env₁.sha))
      ↔ ∀ r, OnRef repo r →
        firstListed env₁ imports₁ (r.resolveEntityId env₁.sha)
            = firstListed env₂ imports₂ (r.resolveEntityId env₁.sha)
          ∧ ∀ successor, Linked env₁.sha [] imports₁ successor (r.resolveEntityId env₁.sha)
            ↔ Linked env₂.sha [] imports₂ successor (r.resolveEntityId env₁.sha) := by
  have hstate (env : ImportEnv) (imports : List RefImport) (db? : Option (MemoryDb String))
      (h : importAll env imports none = some db?) (e : String) :
      entryState (storeOf db?) e = firstListed env imports e :=
    @entryState_importAll _ _ none _ (filledByImports_empty env.sha) h e
  have hsucc (env : ImportEnv) (imports : List RefImport) (db? : Option (MemoryDb String))
      (h : importAll env imports none = some db?) (successor e : String) :
      Succeeds (storeOf db?) successor e ↔ Linked env.sha [] imports successor e := by
    rw [@succeeds_importAll _ _ none _ [] (filledByImports_empty env.sha)
      (by simp [storeOf, entities, MemoryDb.fresh, Store.empty]) h]
    simp [Succeeds, storeOf, MemoryDb.fresh, Store.empty]
  refine forall_congr' fun r => imp_congr_right fun _ => ?_
  rw [Agree, hstate env₁ imports₁ db₁ h₁, hstate env₂ imports₂ db₂ h₂]
  simp only [hsucc env₁ imports₁ db₁ h₁, hsucc env₂ imports₂ db₂ h₂]

/-! ## An entry archived after it was imported -/

/-- A clone of one commit with a note of some records. -/
def notedRepo (records : List NoteRecord) : Repo where
  history := ["c1"]
  nodup := List.nodup_singleton _
  notes commit := if commit = "c1" then records else []

/-- An import of such a clone, whose rows get the ids from a number on. -/
def notedImport (firstId : Nat) (records : List NoteRecord) : RefImport :=
  ⟨notedRepo records, some "w", fun i => countedId (firstId + i)⟩

/-- The line that archives an entry. -/
def archivedRecord (r : NoteRecord) : NoteRecord :=
  stateUpdateRecord plainImportEnv.sha ⟨100, 100000⟩ (recordToNote plainImportEnv.sha r) "archived"
    (some 100) none

/-- One machine imported two entries one by one, the other both at once. -/
theorem converge_of_two_entries :
    ∃ db₁ db₂, importAll plainImportEnv [notedImport 0 [plainRecord 1],
          notedImport 1 [plainRecord 1, plainRecord 2]] none = some db₁
      ∧ importAll plainImportEnv [notedImport 0 [plainRecord 1, plainRecord 2]] none = some db₂
      ∧ ∀ r, OnRef (notedRepo [plainRecord 1, plainRecord 2]) r →
        Agree (storeOf db₁) (storeOf db₂) (r.resolveEntityId plainImportEnv.sha) := by
  have hsome₁ : (importAll plainImportEnv [notedImport 0 [plainRecord 1],
      notedImport 1 [plainRecord 1, plainRecord 2]] none).isSome := by decide +kernel
  have hsome₂ : (importAll plainImportEnv [notedImport 0 [plainRecord 1, plainRecord 2]]
      none).isSome := by decide +kernel
  obtain ⟨db₁, h₁⟩ := Option.isSome_iff_exists.mp hsome₁
  obtain ⟨db₂, h₂⟩ := Option.isSome_iff_exists.mp hsome₂
  refine ⟨db₁, db₂, h₁, h₂, (converge_iff h₁ h₂ _).mpr ?_⟩
  have hone : (notedImport 0 [plainRecord 1]).supersedes plainImportEnv.sha = [] := by
    decide +kernel
  have htwo (k : Nat) : (notedImport k [plainRecord 1, plainRecord 2]).supersedes
      plainImportEnv.sha = [] := by
    show (notedImport 0 [plainRecord 1, plainRecord 2]).supersedes plainImportEnv.sha = []
    decide +kernel
  rintro r ⟨commit, hr⟩
  refine ⟨?_, fun successor => by simp [Linked, hone, htwo]⟩
  have hcases : r = plainRecord 1 ∨ r = plainRecord 2 := by
    simp only [notedRepo] at hr
    split at hr
    · simpa using hr
    · simp at hr
  rcases hcases with rfl | rfl
  · decide +kernel
  · decide +kernel

/-- One machine imported the entry before it was archived, the other afterwards; the first
    keeps it active. -/
theorem not_converge_of_archive :
    ∃ db₁ db₂, importAll plainImportEnv [notedImport 0 [plainRecord 1],
          notedImport 1 [plainRecord 1, archivedRecord (plainRecord 1)]] none = some db₁
      ∧ importAll plainImportEnv [notedImport 0 [plainRecord 1, archivedRecord (plainRecord 1)]] none
        = some db₂
      ∧ ¬ ∀ r, OnRef (notedRepo [plainRecord 1, archivedRecord (plainRecord 1)]) r →
        Agree (storeOf db₁) (storeOf db₂) (r.resolveEntityId plainImportEnv.sha) := by
  have hsome₁ : (importAll plainImportEnv [notedImport 0 [plainRecord 1],
      notedImport 1 [plainRecord 1, archivedRecord (plainRecord 1)]] none).isSome := by decide +kernel
  have hsome₂ : (importAll plainImportEnv
      [notedImport 0 [plainRecord 1, archivedRecord (plainRecord 1)]] none).isSome := by
    decide +kernel
  obtain ⟨db₁, h₁⟩ := Option.isSome_iff_exists.mp hsome₁
  obtain ⟨db₂, h₂⟩ := Option.isSome_iff_exists.mp hsome₂
  refine ⟨db₁, db₂, h₁, h₂, fun h => ?_⟩
  have hagree := (h (plainRecord 1) ⟨"c1", by simp [notedRepo]⟩).1
  rw [@entryState_importAll _ _ none _ (filledByImports_empty _) h₁,
    @entryState_importAll _ _ none _ (filledByImports_empty _) h₂] at hagree
  revert hagree
  decide +kernel

end Carrier
end Inkentry
