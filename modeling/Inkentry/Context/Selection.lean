/-
  Inkentry.Context.Selection

  What `inkentry context` shows before any budget: one section for each kind,
  filled from the local store, then with the cross-cutting entries of the linked
  projects, and cut at the section's limit.

  The filters run over what the limit let through, and over the local entries
  only.  `selectionLaw_iff` says at which stores, options and linked projects
  the sections are what they should be all the same.
-/

import Inkentry.Context.Budget
import Inkentry.Memory.PointInTime
import Mathlib.Data.List.Infix

namespace Inkentry.Context

open OrderLimit
open Inkentry.Memory (Store rowToNote)

/-! ## Options and sections -/

structure Options where
  kind : Option String
  limit : Option Nat
  path : Option String
  tag : Option String
  file : Option String
  localOnly : Bool
  deriving DecidableEq, Repr

/-- An entry as it is shown; a linked one names the project it is from. -/
structure Entry where
  note : Note
  sourceProjectPath : Option String
  deriving DecidableEq, Repr

/-- The kinds shown by default, and how many entries of each. -/
def SECTIONS : List (String × Nat) :=
  [("intent", 20), ("handoff", 3), ("question", 10), ("decision", 10), ("requirement", 10)]

def DEFAULT_UNKNOWN_KIND_LIMIT : Nat := 20

def sectionLimit (kind : String) (limitOverride : Option Nat) : Nat :=
  limitOverride.getD
    (((SECTIONS.find? fun s => s.1 = kind).map Prod.snd).getD DEFAULT_UNKNOWN_KIND_LIMIT)

def sectionKinds (o : Options) : List String :=
  match o.kind with
  | some kind => [kind]
  | none => SECTIONS.map Prod.fst

/-! ## Local entries -/

/-- Some linked file contains the text. -/
def onPath (path : String) (n : Note) : Bool :=
  n.linkedFiles.any fun f => path.toList <:+: f.toList

/-- The normalised tag is one of the entry's; a tag that normalises to nothing is none's. -/
def onTag (tag : Option String) (n : Note) : Bool := tag.any fun t => t ∈ n.tags

def onFile (file : String) (n : Note) : Bool := n.linkedFiles.any fun f => f = file

/-- `if let Some(..)` a filter is given, `retain` what satisfies it. -/
def retainIf {β : Type} (given : Option β) (satisfies : β → Note → Bool) (notes : List Note) :
    List Note :=
  match given with
  | some value => notes.filter (satisfies value)
  | none => notes

variable (normalizeTag : String → Option String)

/-- One section of local entries: the newest of the kind, then the filters. -/
def collectSection (s : Store) (o : Options) (kind : String) : List Note :=
  let notes := s.listFiltered (some kind) (sectionLimit kind o.limit) false none
  let notes := retainIf o.path onPath notes
  let notes := retainIf (o.tag.map normalizeTag) onTag notes
  retainIf o.file onFile notes

def collectSections (s : Store) (o : Options) : List (String × List Entry) :=
  (sectionKinds o).map fun kind =>
    (kind, (collectSection normalizeTag s o kind).map fun n => ⟨n, none⟩)

/-! ## Linked entries -/

def CROSS_PROJECT_KINDS : List String := ["decision", "requirement"]

def CROSS_CUTTING_KINDS : List String := ["decision", "requirement"]

def CROSS_PROJECT_TAGS : List String := ["locked", "cross-project"]

/-- A linked project and its memory, where there is one that opens. -/
structure DepProject where
  rootPath : String
  memory : Option Store

def isCrossCutting (tags : List String) : Bool := tags.any fun t => t ∈ CROSS_PROJECT_TAGS

def queryDepCrossCutting (dep : DepProject) : List Entry :=
  match dep.memory with
  | none => []
  | some store => CROSS_CUTTING_KINDS.flatMap fun kind =>
      ((store.listFiltered (some kind) 500 false none).filter fun n => isCrossCutting n.tags).map
        fun n => ⟨n, some dep.rootPath⟩

/-- The entries of one project not seen yet, and what is seen after them. -/
def insertUnseen (root : String) :
    List (String × NoteId) → List Entry → List Entry × List (String × NoteId)
  | seen, [] => ([], seen)
  | seen, e :: rest =>
    if (root, e.note.id) ∈ seen then insertUnseen root seen rest
    else
      (e :: (insertUnseen root ((root, e.note.id) :: seen) rest).1,
        (insertUnseen root ((root, e.note.id) :: seen) rest).2)

/-- `seen` holds `(root_path, id)` pairs already emitted. -/
def collectDepCrossCutting : List (String × NoteId) → List DepProject → List Entry
  | _, [] => []
  | seen, dep :: deps =>
    (insertUnseen dep.rootPath seen (queryDepCrossCutting dep)).1
      ++ collectDepCrossCutting (insertUnseen dep.rootPath seen (queryDepCrossCutting dep)).2 deps

/-- The first section of the entry's kind takes it. -/
def pushEntry (e : Entry) : List (String × List Entry) → List (String × List Entry)
  | [] => []
  | (kind, found) :: rest =>
    if kind = e.note.kind then (kind, found ++ [e]) :: rest
    else (kind, found) :: pushEntry e rest

def appendLinked (o : Options) (sections : List (String × List Entry)) (e : Entry) :
    List (String × List Entry) :=
  if e.note.kind ∉ CROSS_PROJECT_KINDS then sections
  else if o.kind.any fun kind => e.note.kind ≠ kind then sections
  else pushEntry e sections

def capSections (sections : List (String × List Entry)) (limitOverride : Option Nat) :
    List (String × List Entry) :=
  sections.map fun s => (s.1, s.2.take (sectionLimit s.1 limitOverride))

/-! ## The selection -/

/-- The seed of `seen`: the local entries, under the empty path. -/
def seedOf (sections : List (String × List Entry)) : List (String × NoteId) :=
  sections.flatMap fun s => s.2.map fun e => ("", e.note.id)

/-- The linked entries that are offered to the sections. -/
def offered (s : Store) (deps : List DepProject) (o : Options) : List Entry :=
  if o.localOnly then []
  else collectDepCrossCutting (seedOf (collectSections normalizeTag s o)) deps

def select (s : Store) (deps : List DepProject) (o : Options) : List (String × List Entry) :=
  capSections
    ((offered normalizeTag s deps o).foldl (appendLinked o) (collectSections normalizeTag s o))
    o.limit

/-- The sections of a selection without where the entries are from. -/
def notesOf (sections : List (String × List Entry)) : List Section :=
  sections.map fun s => (s.1, s.2.map Entry.note)

/-! ## Local entries, listed and filtered -/

/-- The active entries of a kind, as they are read back. -/
def localEntries (s : Store) (kind : String) : List Note :=
  (s.rows.filter fun n => n.status = "active" && n.kind = kind).map rowToNote

def newestFirst (n : Note) : Int := -n.createdAt

/-- The entry satisfies every filter that is given. -/
def keeps (o : Options) (n : Note) : Bool :=
  o.path.all (fun path => onPath path n)
    && (o.tag.map normalizeTag).all (fun tag => onTag tag n)
    && o.file.all fun file => onFile file n

/-- The local entries of a kind that satisfy the filters. -/
def matching (s : Store) (o : Options) (kind : String) : List Note :=
  (localEntries s kind).filter (keeps normalizeTag o)

theorem listFiltered_eq (s : Store) (kind : String) (limit : Nat) :
    s.listFiltered (some kind) limit false none
      = orderLimit newestFirst (min limit 500) (localEntries s kind) := by
  have hrows : (s.rows.filter fun n => (false || (none : Option Int).isSome || n.status = "active")
      && (some kind).all (fun k => n.kind = k)
      && (none : Option Int).all fun T => Memory.rowInWindow T n)
      = s.rows.filter fun n => n.status = "active" && n.kind = kind := by
    refine List.filter_congr fun n _ => ?_
    simp
  rw [Store.listFiltered, hrows, localEntries,
    ← @orderLimit_map _ _ _ (fun n : Note => -n.createdAt) _ _ _ newestFirst rowToNote
      (fun _ _ => Iff.rfl)]

variable {normalizeTag}
variable {kind : String}
variable {s : Store}

theorem retainIf_eq {β : Type} (given : Option β) (satisfies : β → Note → Bool)
    (notes : List Note) : retainIf given satisfies notes
      = notes.filter fun n => given.all fun value => satisfies value n := by
  cases given with
  | none => exact (List.filter_true notes).symm
  | some value => rfl

theorem collectSection_eq (s : Store) (o : Options) (kind : String) :
    collectSection normalizeTag s o kind
      = (orderLimit newestFirst (min (sectionLimit kind o.limit) 500)
          (localEntries s kind)).filter (keeps normalizeTag o) := by
  rw [collectSection, listFiltered_eq]
  rw [retainIf_eq, retainIf_eq, retainIf_eq, List.filter_filter, List.filter_filter]
  refine List.filter_congr fun n _ => ?_
  rw [keeps]
  ac_rfl

theorem mem_localEntries {n : Note} (h : n ∈ localEntries s kind) :
    n.kind = kind ∧ ∃ row ∈ s.rows, row.status = "active" ∧ n = rowToNote row := by
  obtain ⟨row, hrow, rfl⟩ := List.mem_map.mp h
  obtain ⟨hmem, hkeep⟩ := List.mem_filter.mp hrow
  have hboth : row.status = "active" ∧ row.kind = kind := by simpa using hkeep
  exact ⟨hboth.2, row, hmem, hboth.1, rfl⟩

theorem localEntries_ids_nodup (s : Store) (kind : String) :
    ((localEntries s kind).map Note.id).Nodup := by
  rw [localEntries, List.map_map]
  exact s.uuidUnique.sublist ((List.filter_sublist).map Note.id)

/-! ## Sections as they stand before the cut -/

/-- The linked entries that a section takes. -/
def linkedOf (s : Store) (deps : List DepProject) (o : Options) (kind : String) : List Entry :=
  (offered normalizeTag s deps o).filter fun e =>
    e.note.kind = kind && kind ∈ CROSS_PROJECT_KINDS

theorem pushEntry_map {kinds : List String} (h : kinds.Nodup) (e : Entry)
    (f : String → List Entry) : pushEntry e (kinds.map fun kind => (kind, f kind))
      = kinds.map fun kind => (kind, f kind ++ if e.note.kind = kind then [e] else []) := by
  induction kinds with
  | nil => rfl
  | cons k rest ih =>
    obtain ⟨hfresh, hdistinct⟩ := List.nodup_cons.mp h
    rw [List.map_cons, List.map_cons, pushEntry]
    by_cases hk : k = e.note.kind
    · have hrest : ∀ kind ∈ rest, f kind = f kind ++ if e.note.kind = kind then [e] else [] := by
        intro kind hkind
        have hne : e.note.kind ≠ kind := fun heq => hfresh (by rwa [hk, heq])
        rw [if_neg hne, List.append_nil]
      rw [if_pos hk, if_pos hk.symm]
      refine congrArg _ (List.map_congr_left fun kind hkind => ?_)
      exact congrArg (Prod.mk kind) (hrest kind hkind)
    · rw [if_neg hk, if_neg (Ne.symm hk), List.append_nil, ih hdistinct]

theorem sectionKinds_nodup (o : Options) : (sectionKinds o).Nodup := by
  rw [sectionKinds]
  cases o.kind with
  | none => decide
  | some kind => exact List.nodup_singleton kind

theorem appendLinked_map (o : Options) (e : Entry) (f : String → List Entry) :
    appendLinked o ((sectionKinds o).map fun kind => (kind, f kind)) e
      = (sectionKinds o).map fun kind => (kind, f kind ++ [e].filter fun e =>
          e.note.kind = kind && kind ∈ CROSS_PROJECT_KINDS) := by
  -- an entry that no section takes leaves all of them as they are
  have hstay (hno : ∀ kind ∈ sectionKinds o,
      ¬ (e.note.kind = kind ∧ kind ∈ CROSS_PROJECT_KINDS)) :
      ((sectionKinds o).map fun kind => (kind, f kind))
        = (sectionKinds o).map fun kind => (kind, f kind ++ [e].filter fun e =>
          e.note.kind = kind && kind ∈ CROSS_PROJECT_KINDS) := by
    refine List.map_congr_left fun kind hkind => ?_
    rw [List.filter_cons_of_neg (by simpa using hno kind hkind), List.filter_nil, List.append_nil]
  rw [appendLinked]
  by_cases hcross : e.note.kind ∈ CROSS_PROJECT_KINDS
  · rw [if_neg (not_not_intro hcross)]
    by_cases hother : (o.kind.any fun kind => e.note.kind ≠ kind) = true
    · rw [if_pos hother]
      refine hstay fun kind hkind hboth => ?_
      obtain ⟨k, hk, hne⟩ := (Option.any_eq_true _ _).mp hother
      rw [sectionKinds, hk, List.mem_singleton] at hkind
      rw [hboth.1, hkind] at hne
      exact absurd hne (by simp)
    · rw [if_neg hother, pushEntry_map (sectionKinds_nodup o)]
      refine List.map_congr_left fun kind _ => ?_
      by_cases hkind : e.note.kind = kind
      · have hin : kind ∈ CROSS_PROJECT_KINDS := hkind ▸ hcross
        rw [if_pos hkind, List.filter_cons_of_pos (by simp [hkind, hin]), List.filter_nil]
      · rw [if_neg hkind, List.filter_cons_of_neg (by simp [hkind]), List.filter_nil]
  · rw [if_pos hcross]
    refine hstay fun kind _ hboth => hcross ?_
    rw [hboth.1]
    exact hboth.2

theorem foldl_appendLinked (o : Options) (es : List Entry) (f : String → List Entry) :
    es.foldl (appendLinked o) ((sectionKinds o).map fun kind => (kind, f kind))
      = (sectionKinds o).map fun kind => (kind, f kind ++ es.filter fun e =>
          e.note.kind = kind && kind ∈ CROSS_PROJECT_KINDS) := by
  induction es generalizing f with
  | nil =>
    refine List.map_congr_left fun kind _ => ?_
    rw [List.filter_nil, List.append_nil]
  | cons e rest ih =>
    rw [List.foldl_cons, appendLinked_map, ih]
    refine List.map_congr_left fun kind _ => ?_
    rw [List.append_assoc, ← List.filter_append, List.singleton_append]

theorem select_eq (s : Store) (deps : List DepProject) (o : Options) :
    select normalizeTag s deps o = (sectionKinds o).map fun kind =>
      (kind, ((collectSection normalizeTag s o kind).map (fun n => (⟨n, none⟩ : Entry))
        ++ @linkedOf normalizeTag s deps o kind).take (sectionLimit kind o.limit)) := by
  rw [select, collectSections, foldl_appendLinked, capSections, List.map_map]
  rfl

/-! ## Where linked entries are from -/

variable {deps : List DepProject}
variable {o : Options}
variable {e : Entry}

/-- A decision or a requirement of a linked project, active there and tagged for others. -/
def IsLinked (deps : List DepProject) (e : Entry) : Prop :=
  ∃ dep ∈ deps, ∃ store, dep.memory = some store ∧ e.sourceProjectPath = some dep.rootPath
    ∧ e.note.kind ∈ CROSS_CUTTING_KINDS ∧ (∃ t ∈ e.note.tags, t ∈ CROSS_PROJECT_TAGS)
    ∧ ∃ row ∈ store.rows, row.status = "active" ∧ e.note = rowToNote row

theorem isLinked_of_mem_query {dep : DepProject} (hdep : dep ∈ deps)
    (h : e ∈ queryDepCrossCutting dep) : IsLinked deps e := by
  rw [queryDepCrossCutting] at h
  split at h
  · exact absurd h List.not_mem_nil
  next store hstore =>
    obtain ⟨kind, hkind, hmem⟩ := List.mem_flatMap.mp h
    obtain ⟨n, hn, rfl⟩ := List.mem_map.mp hmem
    obtain ⟨hlisted, htags⟩ := List.mem_filter.mp hn
    rw [listFiltered_eq] at hlisted
    obtain ⟨hk, hrow⟩ := mem_localEntries (mem_of_mem_orderLimit newestFirst hlisted)
    refine ⟨dep, hdep, store, hstore, rfl, hk ▸ hkind, ?_, hrow⟩
    simpa [isCrossCutting] using htags

theorem insertUnseen_subset (root : String) (seen : List (String × NoteId)) (es : List Entry) :
    ∀ e ∈ (insertUnseen root seen es).1, e ∈ es := by
  induction es generalizing seen with
  | nil => exact fun e he => he
  | cons e rest ih =>
    intro x hx
    rw [insertUnseen] at hx
    split at hx
    · exact List.mem_cons_of_mem _ (ih _ x hx)
    · rcases List.mem_cons.mp hx with rfl | hrest
      · exact List.mem_cons_self ..
      · exact List.mem_cons_of_mem _ (ih _ x hrest)

theorem isLinked_of_mem_collect (seen : List (String × NoteId))
    (h : e ∈ collectDepCrossCutting seen deps) : IsLinked deps e := by
  induction deps generalizing seen with
  | nil => exact absurd h List.not_mem_nil
  | cons dep rest ih =>
    rw [collectDepCrossCutting] at h
    rcases List.mem_append.mp h with hhere | hlater
    · exact isLinked_of_mem_query (List.mem_cons_self ..) (insertUnseen_subset _ _ _ e hhere)
    · obtain ⟨d, hd, hlinked⟩ := ih _ hlater
      exact ⟨d, List.mem_cons_of_mem _ hd, hlinked⟩

theorem isLinked_of_mem_linkedOf
    (h : e ∈ @linkedOf normalizeTag s deps o kind) : IsLinked deps e ∧ e.note.kind = kind := by
  obtain ⟨hoffered, hkind⟩ := List.mem_filter.mp h
  have hkind : e.note.kind = kind ∧ kind ∈ CROSS_PROJECT_KINDS := by simpa using hkind
  rw [offered] at hoffered
  split at hoffered
  · exact absurd hoffered List.not_mem_nil
  · exact ⟨isLinked_of_mem_collect _ hoffered, hkind.1⟩

/-! ## What the sections should be -/

/-- An active entry of the local store. -/
def IsLocal (s : Store) (e : Entry) : Prop :=
  e.sourceProjectPath = none ∧ ∃ row ∈ s.rows, row.status = "active" ∧ e.note = rowToNote row

/-- What is owed of one section. -/
structure SectionLaw (normalizeTag : String → Option String) (s : Store) (deps : List DepProject)
    (o : Options) (kind : String) (found : List Entry) : Prop where
  fits : ∀ e ∈ found, e.note.kind = kind ∧ keeps normalizeTag o e.note = true
  local_first : ∃ here linked, found = here ++ linked ∧ (∀ e ∈ here, IsLocal s e)
    ∧ ∀ e ∈ linked, IsLinked deps e
  limit : found.length ≤ sectionLimit kind o.limit
  once : (found.map fun e => e.note.id).Nodup
  newest : sectionLimit kind o.limit < (matching normalizeTag s o kind).length →
    found = (orderLimit newestFirst (sectionLimit kind o.limit)
      (matching normalizeTag s o kind)).map fun n => ⟨n, none⟩

/-- What is owed of a selection. -/
structure SelectionLaw (normalizeTag : String → Option String) (s : Store)
    (deps : List DepProject) (o : Options) : Prop where
  kinds : (select normalizeTag s deps o).map Prod.fst = sectionKinds o
  sections : ∀ found ∈ select normalizeTag s deps o,
    SectionLaw normalizeTag s deps o found.1 found.2

/-! ## When a section is what it should be -/

/-- The newest local entries of a kind that the limit lets through. -/
def listed (s : Store) (o : Options) (kind : String) : List Note :=
  orderLimit newestFirst (min (sectionLimit kind o.limit) 500) (localEntries s kind)

/-- The linked entries for which the limit leaves room. -/
def fitting (normalizeTag : String → Option String) (s : Store) (deps : List DepProject)
    (o : Options) (kind : String) : List Entry :=
  (@linkedOf normalizeTag s deps o kind).take
    (sectionLimit kind o.limit - ((listed s o kind).filter (keeps normalizeTag o)).length)

/-- The filters and the identities of linked entries, and the limit, do no harm to a kind. -/
structure Harmless (normalizeTag : String → Option String) (s : Store) (deps : List DepProject)
    (o : Options) (kind : String) : Prop where
  linked_match : ∀ e ∈ fitting normalizeTag s deps o kind, keeps normalizeTag o e.note = true
  linked_fresh : ∀ e ∈ fitting normalizeTag s deps o kind, ∀ n ∈ listed s o kind,
    keeps normalizeTag o n = true → n.id ≠ e.note.id
  linked_once : ((fitting normalizeTag s deps o kind).map fun e => e.note.id).Nodup
  limit_first : sectionLimit kind o.limit < (matching normalizeTag s o kind).length →
    sectionLimit kind o.limit ≤ 500 ∧ ∀ n ∈ listed s o kind, keeps normalizeTag o n = true

/-- A section as the code fills it. -/
def filled (normalizeTag : String → Option String) (s : Store) (deps : List DepProject)
    (o : Options) (kind : String) : List Entry :=
  ((listed s o kind).filter (keeps normalizeTag o)).map (fun n => (⟨n, none⟩ : Entry))
    ++ fitting normalizeTag s deps o kind

theorem length_listed_le (s : Store) (o : Options) (kind : String) :
    (listed s o kind).length ≤ sectionLimit kind o.limit := by
  rw [listed, length_orderLimit]
  omega

theorem select_eq_filled (s : Store) (deps : List DepProject) (o : Options) :
    select normalizeTag s deps o
      = (sectionKinds o).map fun kind => (kind, filled normalizeTag s deps o kind) := by
  rw [select_eq]
  refine List.map_congr_left fun kind _ => congrArg (Prod.mk kind) ?_
  have hle := (List.length_filter_le (keeps normalizeTag o) (listed s o kind)).trans
    (length_listed_le s o kind)
  rw [collectSection_eq, List.take_append, List.length_map, ← listed,
    List.take_of_length_le (by rw [List.length_map]; exact hle)]
  rfl

theorem listed_ids_nodup (s : Store) (o : Options) (kind : String) :
    ((listed s o kind).map Note.id).Nodup :=
  ((((sortBy_perm newestFirst (localEntries s kind)).map Note.id).nodup_iff).mpr
    (localEntries_ids_nodup s kind)).sublist ((List.take_sublist _ _).map Note.id)

theorem ids_filled (normalizeTag : String → Option String) (s : Store) (deps : List DepProject)
    (o : Options) (kind : String) : (filled normalizeTag s deps o kind).map (fun e => e.note.id)
      = ((listed s o kind).filter (keeps normalizeTag o)).map Note.id
        ++ (fitting normalizeTag s deps o kind).map fun e => e.note.id := by
  rw [filled, List.map_append, List.map_map]
  rfl

theorem isLinked_of_mem_fitting (h : e ∈ fitting normalizeTag s deps o kind) :
    IsLinked deps e ∧ e.note.kind = kind := isLinked_of_mem_linkedOf (List.mem_of_mem_take h)

/-- Everything that is listed satisfies the filters where as many match as the limit allows. -/
theorem filter_listed_of_full
    (hlen : ((listed s o kind).filter (keeps normalizeTag o)).length = sectionLimit kind o.limit) :
    sectionLimit kind o.limit ≤ 500 ∧ ∀ n ∈ listed s o kind, keeps normalizeTag o n = true := by
  have hle := List.length_filter_le (keeps normalizeTag o) (listed s o kind)
  have hcut : (listed s o kind).length ≤ min (sectionLimit kind o.limit) 500 := by
    rw [listed, length_orderLimit]
    omega
  refine ⟨by omega, List.length_filter_eq_length_iff.mp ?_⟩
  omega

theorem sectionLaw_harmless
    (h : SectionLaw normalizeTag s deps o kind (filled normalizeTag s deps o kind)) :
    Harmless normalizeTag s deps o kind := by
  have hmem : ∀ e ∈ fitting normalizeTag s deps o kind, e ∈ filled normalizeTag s deps o kind :=
    fun e he => List.mem_append_right _ he
  have honce := h.once
  rw [ids_filled, List.nodup_append] at honce
  obtain ⟨-, hlinked, hapart⟩ := honce
  refine ⟨fun e he => (h.fits e (hmem e he)).2, ?fresh, hlinked, ?first⟩
  case fresh =>
    intro e he n hn hkeep
    exact hapart _ (List.mem_map_of_mem (List.mem_filter.mpr ⟨hn, hkeep⟩)) _
      (List.mem_map_of_mem he)
  case first =>
    intro hmany
    have hnewest := h.newest hmany
    -- a linked entry would show among local ones
    have hnone : fitting normalizeTag s deps o kind = [] := by
      refine List.eq_nil_iff_forall_not_mem.mpr fun e he => ?_
      obtain ⟨dep, -, store, -, hsource, -⟩ := (isLinked_of_mem_fitting he).1
      have hin := hmem e he
      rw [hnewest] at hin
      obtain ⟨n, -, rfl⟩ := List.mem_map.mp hin
      exact absurd hsource (by simp)
    have hlength := congrArg List.length hnewest
    rw [filled, hnone, List.append_nil, List.length_map, List.length_map, length_orderLimit]
      at hlength
    exact filter_listed_of_full (by omega)

theorem Harmless.once (h : Harmless normalizeTag s deps o kind) :
    ((filled normalizeTag s deps o kind).map fun e => e.note.id).Nodup := by
  rw [ids_filled, List.nodup_append]
  refine ⟨(listed_ids_nodup s o kind).sublist ((List.filter_sublist).map Note.id), h.linked_once,
    ?_⟩
  rintro x hx y hy
  obtain ⟨n, hn, rfl⟩ := List.mem_map.mp hx
  obtain ⟨e, he, rfl⟩ := List.mem_map.mp hy
  obtain ⟨hlisted, hkeep⟩ := List.mem_filter.mp hn
  exact h.linked_fresh e he n hlisted hkeep

theorem Harmless.newest (h : Harmless normalizeTag s deps o kind)
    (hmany : sectionLimit kind o.limit < (matching normalizeTag s o kind).length) :
    filled normalizeTag s deps o kind = (orderLimit newestFirst (sectionLimit kind o.limit)
      (matching normalizeTag s o kind)).map fun n => ⟨n, none⟩ := by
  obtain ⟨hcap, hall⟩ := h.limit_first hmany
  have hkept : (listed s o kind).filter (keeps normalizeTag o) = listed s o kind :=
    List.filter_eq_self.mpr hall
  have hmatch : (matching normalizeTag s o kind).length ≤ (localEntries s kind).length :=
    List.length_filter_le _ _
  have hfull : (listed s o kind).length = sectionLimit kind o.limit := by
    rw [listed, length_orderLimit]
    omega
  have hnone : fitting normalizeTag s deps o kind = [] := by
    rw [fitting, hkept, hfull, Nat.sub_self, List.take_zero]
  have hcount : (listed s o kind).countP (keeps normalizeTag o) = sectionLimit kind o.limit := by
    rw [List.countP_eq_length_filter, hkept, hfull]
  have hcut := orderLimit_filter newestFirst (keeps normalizeTag o)
    (min (sectionLimit kind o.limit) 500) (localEntries s kind)
  rw [← listed, hkept, hcount] at hcut
  rw [filled, hkept, hnone, List.append_nil, matching, ← hcut]

theorem Harmless.sectionLaw (h : Harmless normalizeTag s deps o kind) :
    SectionLaw normalizeTag s deps o kind (filled normalizeTag s deps o kind) := by
  have hlocal : ∀ n ∈ listed s o kind, n ∈ localEntries s kind := fun n hn =>
    mem_of_mem_orderLimit newestFirst hn
  refine ⟨?fits, ?localFirst, ?limit, h.once, h.newest⟩
  case fits =>
    intro e he
    rcases List.mem_append.mp he with hhere | hlinked
    · obtain ⟨n, hn, rfl⟩ := List.mem_map.mp hhere
      obtain ⟨hlisted, hkeep⟩ := List.mem_filter.mp hn
      exact ⟨(mem_localEntries (hlocal n hlisted)).1, hkeep⟩
    · exact ⟨(isLinked_of_mem_fitting hlinked).2, h.linked_match e hlinked⟩
  case localFirst =>
    refine ⟨_, _, rfl, ?_, fun e he => (isLinked_of_mem_fitting he).1⟩
    intro e he
    obtain ⟨n, hn, rfl⟩ := List.mem_map.mp he
    exact ⟨rfl, (mem_localEntries (hlocal n (List.mem_filter.mp hn).1)).2⟩
  case limit =>
    have hle := (List.length_filter_le (keeps normalizeTag o) (listed s o kind)).trans
      (length_listed_le s o kind)
    rw [filled, List.length_append, List.length_map, fitting, List.length_take]
    omega

/-- The selection is what it should be exactly where every kind is harmless. -/
theorem selectionLaw_iff (normalizeTag : String → Option String) (s : Store)
    (deps : List DepProject) (o : Options) : SelectionLaw normalizeTag s deps o
      ↔ ∀ kind ∈ sectionKinds o, Harmless normalizeTag s deps o kind := by
  constructor
  · intro hlaw kind hkind
    refine sectionLaw_harmless (hlaw.sections (kind, filled normalizeTag s deps o kind) ?_)
    rw [select_eq_filled]
    exact List.mem_map_of_mem hkind
  · intro hharmless
    refine ⟨?_, ?_⟩
    · rw [select_eq_filled, List.map_map]
      exact List.map_id _
    · intro found hfound
      rw [select_eq_filled] at hfound
      obtain ⟨kind, hkind, rfl⟩ := List.mem_map.mp hfound
      exact (hharmless kind hkind).sectionLaw

/-- A selection's sections have distinct kinds, which is what packing them asks for. -/
theorem kindsOf_notesOf_select_nodup (s : Store) (deps : List DepProject) (o : Options) :
    (kindsOf (notesOf (select normalizeTag s deps o))).Nodup := by
  have hkinds : kindsOf (notesOf (select normalizeTag s deps o)) = sectionKinds o := by
    rw [kindsOf, notesOf, List.map_map, select_eq_filled, List.map_map]
    exact List.map_id _
  rw [hkinds]
  exact sectionKinds_nodup o

/-! ## A tag that is asked for and not there -/

theorem remoteIds_singleton_nodup (n : Note) : ([n].filterMap Note.remoteId).Nodup := by
  rw [List.filterMap_cons]
  cases n.remoteId with
  | none => exact List.nodup_nil
  | some r => exact List.nodup_singleton _

/-- A store of one entry. -/
def storeOf (n : Note) : Store where
  rows := [n]
  edges := []
  uuidUnique := List.nodup_singleton n.id
  entityUnique := List.nodup_singleton n.entityId
  remoteUnique := remoteIds_singleton_nodup n

def lockedDecision : Note :=
  { titled "7" "decision" "keep the wire format" with tags := ["locked"] }

/-- `--tag parser`, in a project without entries that is linked to another. -/
def askParser : Options where
  kind := none
  limit := none
  path := none
  tag := some "parser"
  file := none
  localOnly := false

def linkedProject : DepProject := ⟨"/work/other", some (storeOf lockedDecision)⟩

/-- The linked decision is shown, whatever tag is asked for. -/
theorem not_selectionLaw_of_unfiltered :
    ¬ SelectionLaw some Store.empty [linkedProject] askParser := by
  intro h
  have hshown : ("decision", [(⟨rowToNote lockedDecision, some "/work/other"⟩ : Entry)])
      ∈ select some Store.empty [linkedProject] askParser := by decide
  have hkeep := ((h.sections _ hshown).fits _ (List.mem_singleton_self _)).2
  exact absurd hkeep (by decide)

end Inkentry.Context
