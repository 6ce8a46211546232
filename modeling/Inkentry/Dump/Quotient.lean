/-
  Inkentry.Dump.Quotient

  What reading makes of the records of a file.  Entries with one convergence key
  are a group, and every other entity is a group of its own; one entity is read
  for each group, and one relationship for each type and pair of different groups
  that some record relates (`read_quotient`).

  The groups are named by what is in the file, so nothing here speaks of
  positions before the fold or of the map between the two numberings.
-/

import Inkentry.Dump.ReaderOrder
import Inkentry.Lib.Pass

namespace Inkentry
namespace PortableDump

open OrderLimit SortedSet KeyedStamp

/-! ## Groups -/

/-- What is folded together: the entries with a key.  Any other entity is alone. -/
inductive Group where
  | entries (convergenceKey : String)
  | alone (dumpRef : String)
  deriving DecidableEq, Repr

def Entity.group (sha : String → String) : Entity → Group
  | .memoryEntry e => .entries (e.convergenceKey sha)
  | other => .alone other.dumpRef

/-- The group of the entity that a reference names. -/
def groupOf (sha : String → String) (entities : List Entity) (dumpRef : String) : Option Group :=
  (entities.find? fun e => e.dumpRef = dumpRef).map (Entity.group sha)

/-- The type of a record and the groups it relates. -/
def Relationship.ends (sha : String → String) (entities : List Entity) (r : Relationship) :
    RelationshipKind × Option Group × Option Group :=
  (r.kind, groupOf sha entities r.source, groupOf sha entities r.target)

/-- The group of the entity at a position of a dump. -/
def Dump.groupAt (sha : String → String) (d : Dump) (i : Nat) : Option Group :=
  d.entities[i]?.map (Entity.group sha)

def Dump.ends (sha : String → String) (d : Dump) (x : ResolvedRelationship) :
    RelationshipKind × Option Group × Option Group :=
  (x.kind, d.groupAt sha x.source, d.groupAt sha x.target)

/-- The memory entries among some entities. -/
def memoryEntries (entities : List Entity) : List MemoryEntry := entities.filterMap Entity.memory?

/-- An entry is what a group of the file is folded into: its earliest member, ties broken
    by reference, with the tags and linked files of all. -/
structure FoldOf (sha : String → String) (entities : List Entity) (k : MemoryEntry) : Prop where
  member : ∃ e ∈ memoryEntries entities, e.convergenceKey sha = k.convergenceKey sha
    ∧ k = { e with tags := k.tags, linkedFiles := k.linkedFiles }
  earliest : ∀ m ∈ memoryEntries entities, m.convergenceKey sha = k.convergenceKey sha →
    toLex (k.createdAt, k.dumpRef) ≤ toLex (m.createdAt, m.dumpRef)
  tags : ∀ t, t ∈ k.tags ↔ ∃ m ∈ memoryEntries entities,
    m.convergenceKey sha = k.convergenceKey sha ∧ t ∈ m.tags
  linkedFiles : ∀ f, f ∈ k.linkedFiles ↔ ∃ m ∈ memoryEntries entities,
    m.convergenceKey sha = k.convergenceKey sha ∧ f ∈ m.linkedFiles

/-- A dump is the quotient of the records of a file by their groups. -/
structure Quotient (sha : String → String) (entities : List Entity)
    (relationships : List Relationship) (d : Dump) : Prop where
  /-- One entry is read for each key of the file, and for no other key. -/
  one_entry : ∀ e ∈ memoryEntries entities,
    ((memoryEntries d.entities).map (MemoryEntry.convergenceKey sha)).count (e.convergenceKey sha) = 1
  entry : ∀ k ∈ memoryEntries d.entities, FoldOf sha entities k
  /-- Projects and command usages are read as they are. -/
  others : d.entities.filter (fun e => e.memory?.isNone)
    = entities.filter fun e => e.memory?.isNone
  /-- The ends are entities of the dump, and not the same one. -/
  valid : ∀ x ∈ d.relationships, x.source < d.entities.length ∧ x.target < d.entities.length
  no_loop : ∀ x ∈ d.relationships, x.source ≠ x.target
  /-- A record that relates two groups is read once, however often it is in the file. -/
  one_relationship : ∀ r ∈ relationships,
    groupOf sha entities r.source ≠ groupOf sha entities r.target →
    (d.relationships.map (d.ends sha)).count (r.ends sha entities) = 1
  recorded : ∀ x ∈ d.relationships, ∃ r ∈ relationships, r.ends sha entities = d.ends sha x
  /-- A time is one that some copy has, and there is one when some copy has one. -/
  time_recorded : ∀ x ∈ d.relationships, ∀ t, x.createdAt = some t →
    ∃ r ∈ relationships, r.ends sha entities = d.ends sha x ∧ r.createdAt = some t
  time_kept : ∀ x ∈ d.relationships, ∀ r ∈ relationships, r.ends sha entities = d.ends sha x →
    r.createdAt.isSome → x.createdAt.isSome
  merged : d.mergedMemoryEntries + (memoryEntries d.entities).length
    = (memoryEntries entities).length

theorem mem_memoryEntries {entities : List Entity} {m : MemoryEntry} :
    m ∈ memoryEntries entities ↔ .memoryEntry m ∈ entities := mem_filterMap_memory?

/-! ## Entries -/

section

variable {sha : String → String} {entities : List Entity}
variable {m : MemoryEntry}

theorem mem_pushNew {l extra : List String} {x : String} :
    x ∈ pushNew l extra ↔ x ∈ l ∨ x ∈ extra := by
  rw [pushNew]
  induction extra generalizing l with
  | nil => simp
  | cons y extra ih =>
    rw [List.foldl_cons, ih, List.mem_cons]
    by_cases hy : y ∈ l
    · rw [if_pos hy]
      constructor
      · rintro (hx | hx)
        · exact .inl hx
        · exact .inr (.inr hx)
      · rintro (hx | rfl | hx)
        · exact .inl hx
        · exact .inl hy
        · exact .inr hx
    · rw [if_neg hy, List.mem_append, List.mem_singleton, or_assoc]

theorem survivorOf_congr {m m' : MemoryEntry} (hm : .memoryEntry m ∈ entities)
    (hkey : m.convergenceKey sha = m'.convergenceKey sha) :
    survivorOf sha entities m = survivorOf sha entities m' := by
  have hne : orderedMembers sha entities (m.convergenceKey sha) ≠ [] :=
    List.ne_nil_of_mem (survivorOf_mem hm)
  obtain ⟨s, rest, hcons⟩ := List.exists_cons_of_ne_nil hne
  rw [survivorOf, survivorOf, ← hkey, hcons]
  rfl

theorem survivorOf_key (hm : .memoryEntry m ∈ entities) :
    (survivorOf sha entities m).convergenceKey sha = m.convergenceKey sha :=
  (mem_orderedMembers.mp (survivorOf_mem hm)).2

theorem memoryEntry_inj (hrefs : (entities.map Entity.dumpRef).Nodup) {m m' : MemoryEntry}
    (hm : .memoryEntry m ∈ entities) (hm' : .memoryEntry m' ∈ entities)
    (href : m.dumpRef = m'.dumpRef) : m = m' :=
  Entity.memoryEntry.inj (List.inj_on_of_nodup_map hrefs hm hm' href)

/-- What an entry that is read was: the survivor of its group, which has inherited. -/
theorem keep_eq_some_memoryEntry (hrefs : (entities.map Entity.dumpRef).Nodup)
    {e : Entity} {k : MemoryEntry} (he : e ∈ entities)
    (h : keep sha entities e = some (.memoryEntry k)) :
    ∃ m rest, e = .memoryEntry m
      ∧ orderedMembers sha entities (m.convergenceKey sha) = m :: rest ∧ k = inherit m rest := by
  cases e with
  | memoryEntry m =>
    rw [keep] at h
    split at h
    case isTrue href =>
      have hs := @survivorOf_mem sha entities m he
      have hself : survivorOf sha entities m = m :=
        memoryEntry_inj hrefs (mem_orderedMembers.mp hs).1 he href
      obtain ⟨s, rest, hcons⟩ := List.exists_cons_of_ne_nil (List.ne_nil_of_mem hs)
      have hm : s = m := by
        rw [survivorOf, hcons] at hself
        exact hself
      rw [hcons, hm] at h
      rw [hm] at hcons
      exact ⟨m, rest, rfl, hcons, (Entity.memoryEntry.inj (Option.some.inj h)).symm⟩
    case isFalse => exact absurd h (by simp)
  | project p => exact absurd (Option.some.inj h) (by simp)
  | commandUsage u => exact absurd (Option.some.inj h) (by simp)

theorem keep_group {e k : Entity} (h : keep sha entities e = some k) :
    k.group sha = e.group sha := by
  cases e with
  | memoryEntry m =>
    rw [keep] at h
    split at h
    · rw [← Option.some.inj h]
      rfl
    · exact absurd h (by simp)
  | project p => rw [← Option.some.inj h]
  | commandUsage u => rw [← Option.some.inj h]

theorem foldOf_inherit {rest : List MemoryEntry}
    (h : orderedMembers sha entities (m.convergenceKey sha) = m :: rest) :
    FoldOf sha entities (inherit m rest) := by
  have hmembers (m' : MemoryEntry) : m' ∈ m :: rest
      ↔ m' ∈ memoryEntries entities ∧ m'.convergenceKey sha = m.convergenceKey sha := by
    rw [← h, mem_orderedMembers, mem_memoryEntries]
  have hunion (f : MemoryEntry → List String) (x : String) :
      x ∈ pushNew (f m) (rest.flatMap f) ↔ ∃ m' ∈ memoryEntries entities,
        m'.convergenceKey sha = m.convergenceKey sha ∧ x ∈ f m' := by
    rw [mem_pushNew, List.mem_flatMap]
    constructor
    · rintro (hx | ⟨m', hm', hx⟩)
      · obtain ⟨hmem, hkey⟩ := (hmembers m).mp List.mem_cons_self
        exact ⟨m, hmem, hkey, hx⟩
      · obtain ⟨hmem, hkey⟩ := (hmembers m').mp (List.mem_cons_of_mem _ hm')
        exact ⟨m', hmem, hkey, hx⟩
    · rintro ⟨m', hmem, hkey, hx⟩
      rcases List.mem_cons.mp ((hmembers m').mpr ⟨hmem, hkey⟩) with rfl | hrest
      · exact .inl hx
      · exact .inr ⟨m', hrest, hx⟩
  refine ⟨⟨m, ((hmembers m).mp List.mem_cons_self).1, rfl, rfl⟩, fun m' hm' hkey => ?_,
    hunion MemoryEntry.tags, hunion MemoryEntry.linkedFiles⟩
  have hsorted : (m :: rest).Pairwise fun a b =>
      toLex (a.createdAt, a.dumpRef) ≤ toLex (b.createdAt, b.dumpRef) := by
    rw [← h]
    exact sortBy_pairwise _ _
  rcases List.mem_cons.mp ((hmembers m').mpr ⟨hm', hkey⟩) with rfl | hrest
  · exact le_rfl
  · exact (List.pairwise_cons.mp hsorted).1 m' hrest

theorem keep_inj (hrefs : (entities.map Entity.dumpRef).Nodup) {e e' k k' : Entity}
    (he : e ∈ entities) (he' : e' ∈ entities) (h : keep sha entities e = some k)
    (h' : keep sha entities e' = some k') (hgroup : e.group sha = e'.group sha) : e = e' := by
  have halone {p q : Entity} (hp : p ∈ entities) (hq : q ∈ entities)
      (hgroup : Group.alone p.dumpRef = Group.alone q.dumpRef) : p = q :=
    List.inj_on_of_nodup_map hrefs hp hq (Group.alone.inj hgroup)
  -- what is kept of a group is its survivor
  have hself {m : MemoryEntry} {k : Entity} (hm : .memoryEntry m ∈ entities)
      (h : keep sha entities (.memoryEntry m) = some k) : survivorOf sha entities m = m := by
    rw [keep] at h
    split at h
    case isTrue href =>
      exact memoryEntry_inj hrefs (mem_orderedMembers.mp (survivorOf_mem hm)).1 hm href
    case isFalse => exact absurd h (by simp)
  cases e with
  | memoryEntry m =>
    cases e' with
    | memoryEntry m' =>
      have hkey : m.convergenceKey sha = m'.convergenceKey sha := Group.entries.inj hgroup
      rw [← hself he h, survivorOf_congr he hkey, hself he' h']
    | project p => exact absurd hgroup (by simp [Entity.group])
    | commandUsage u => exact absurd hgroup (by simp [Entity.group])
  | project p =>
    cases e' with
    | memoryEntry m' => exact absurd hgroup (by simp [Entity.group])
    | project p' => exact halone he he' hgroup
    | commandUsage u => exact halone he he' hgroup
  | commandUsage u =>
    cases e' with
    | memoryEntry m' => exact absurd hgroup (by simp [Entity.group])
    | project p => exact halone he he' hgroup
    | commandUsage u' => exact halone he he' hgroup

theorem groups_nodup (hrefs : (entities.map Entity.dumpRef).Nodup) :
    ((entities.filterMap (keep sha entities)).map (Entity.group sha)).Nodup := by
  refine List.Nodup.map_on (fun k hk k' hk' hgroup => ?_) ((kept_nodup hrefs).of_map _)
  obtain ⟨e, he, h⟩ := List.mem_filterMap.mp hk
  obtain ⟨e', he', h'⟩ := List.mem_filterMap.mp hk'
  rw [keep_group h, keep_group h'] at hgroup
  obtain rfl := keep_inj hrefs he he' h h' hgroup
  exact Option.some.inj (h.symm.trans h')

theorem exists_kept_group {e : Entity} (he : e ∈ entities) :
    ∃ k ∈ entities.filterMap (keep sha entities),
      k.dumpRef = survivingRef sha entities e ∧ k.group sha = e.group sha := by
  cases e with
  | memoryEntry m =>
    have hs := (mem_orderedMembers.mp (@survivorOf_mem sha entities m he)).1
    refine ⟨_, List.mem_filterMap.mpr ⟨_, hs, keep_survivorOf he⟩, rfl, ?_⟩
    exact congrArg Group.entries (survivorOf_key he)
  | project p => exact ⟨_, List.mem_filterMap.mpr ⟨_, he, rfl⟩, rfl, rfl⟩
  | commandUsage u => exact ⟨_, List.mem_filterMap.mpr ⟨_, he, rfl⟩, rfl, rfl⟩

theorem filter_kept (l : List Entity) :
    (l.filterMap (keep sha entities)).filter (fun e => e.memory?.isNone)
      = l.filter fun e => e.memory?.isNone := by
  induction l with
  | nil => rfl
  | cons e l ih =>
    cases e with
    | memoryEntry m =>
      rw [List.filter_cons_of_neg (by simp [Entity.memory?]), ← ih]
      cases h : keep sha entities (.memoryEntry m) with
      | none => rw [List.filterMap_cons_none h]
      | some k =>
        have hgroup := keep_group h
        rw [List.filterMap_cons_some h, List.filter_cons_of_neg]
        cases k with
        | memoryEntry k => simp [Entity.memory?]
        | project p => exact absurd hgroup (by simp [Entity.group])
        | commandUsage u => exact absurd hgroup (by simp [Entity.group])
    | project p =>
      rw [List.filterMap_cons_some (show keep sha entities (.project p) = some (.project p) from rfl),
        List.filter_cons_of_pos (by simp [Entity.memory?]), ih,
        List.filter_cons_of_pos (by simp [Entity.memory?])]
    | commandUsage u =>
      rw [List.filterMap_cons_some
          (show keep sha entities (.commandUsage u) = some (.commandUsage u) from rfl),
        List.filter_cons_of_pos (by simp [Entity.memory?]), ih,
        List.filter_cons_of_pos (by simp [Entity.memory?])]

theorem length_eq_memoryEntries_add (l : List Entity) :
    l.length = (memoryEntries l).length + (l.filter fun e => e.memory?.isNone).length := by
  induction l with
  | nil => rfl
  | cons e l ih =>
    cases e with
    | memoryEntry m =>
      rw [List.filter_cons_of_neg (by simp [Entity.memory?]), List.length_cons, ih]
      show _ = (m :: memoryEntries l).length + _
      rw [List.length_cons]
      omega
    | project p =>
      rw [List.filter_cons_of_pos (by simp [Entity.memory?]), List.length_cons, List.length_cons, ih]
      show _ = (memoryEntries l).length + _
      omega
    | commandUsage u =>
      rw [List.filter_cons_of_pos (by simp [Entity.memory?]), List.length_cons, List.length_cons, ih]
      show _ = (memoryEntries l).length + _
      omega

theorem count_key (hrefs : (entities.map Entity.dumpRef).Nodup) (hm : .memoryEntry m ∈ entities) :
    ((memoryEntries (entities.filterMap (keep sha entities))).map
      (MemoryEntry.convergenceKey sha)).count (m.convergenceKey sha) = 1 := by
  have hnodup : ((memoryEntries (entities.filterMap (keep sha entities))).map
      (MemoryEntry.convergenceKey sha)).Nodup := by
    have hgroups := @groups_nodup sha entities hrefs
    refine List.Nodup.map_on (fun k hk k' hk' hkey => ?_) ?_
    · exact Entity.memoryEntry.inj (List.inj_on_of_nodup_map hgroups (mem_memoryEntries.mp hk)
        (mem_memoryEntries.mp hk') (congrArg Group.entries hkey))
    · refine (hgroups.of_map _).filterMap fun e e' k he he' => ?_
      rw [Option.mem_def] at he he'
      cases e <;> cases e' <;> simp_all [Entity.memory?]
  refine List.count_eq_one_of_mem hnodup ?_
  obtain ⟨k, hk, -, hgroup⟩ := @exists_kept_group sha entities _ hm
  cases k with
  | memoryEntry k =>
    exact List.mem_map.mpr ⟨k, mem_memoryEntries.mpr hk, Group.entries.inj hgroup⟩
  | project p => exact absurd hgroup (by simp [Entity.group])
  | commandUsage u => exact absurd hgroup (by simp [Entity.group])

end

/-! ## Relationships -/

theorem redirectOne_eq_some_iff {remap : List Nat} {x y : ResolvedRelationship} :
    redirectOne remap x = some y
      ↔ y = ⟨x.kind, remap.getD x.source 0, remap.getD x.target 0, x.createdAt⟩
        ∧ y.source ≠ y.target := by
  rw [redirectOne]
  constructor
  · intro h
    split at h
    case isTrue => exact absurd h (by simp)
    case isFalse hne =>
      rw [← Option.some.inj h]
      exact ⟨rfl, hne⟩
  · rintro ⟨rfl, hne⟩
    exact if_neg hne

section

variable {sha : String → String} {entities : List Entity} {relationships : List Relationship}
  {resolved : List ResolvedRelationship} {d : Dump}
variable {x : ResolvedRelationship}

theorem groupAt_inj (hrefs : (entities.map Entity.dumpRef).Nodup)
    (hd : d.entities = entities.filterMap (keep sha entities)) {i j : Nat} {g : Group}
    (hi : d.groupAt sha i = some g) (hj : d.groupAt sha j = some g) : i = j := by
  rw [Dump.groupAt, ← List.getElem?_map, hd] at hi hj
  obtain ⟨hlt, -⟩ := List.getElem?_eq_some_iff.mp hi
  exact (List.getElem?_inj hlt (groups_nodup hrefs)).mp (hi.trans hj.symm)

/-- Looking an end up, and its survivor, leads to the group of the end. -/
theorem groupAt_remap (hrefs : (entities.map Entity.dumpRef).Nodup)
    (hd : d.entities = entities.filterMap (keep sha entities)) {dumpRef : String} {p : Nat}
    (h : positionOf entities dumpRef = some p) :
    ∃ g, groupOf sha entities dumpRef = some g
      ∧ d.groupAt sha ((collapseByConvergenceKey sha entities).remap.getD p 0) = some g := by
  have hat := @refAt_remap sha entities dumpRef p h
  obtain ⟨hlt, hidx⟩ := List.findIdx?_eq_some_iff_findIdx_eq.mp h
  have hfind : entities.find? (fun e => e.dumpRef = dumpRef) = some entities[p] := by
    rw [List.find?_eq_getElem?_findIdx, hidx, List.getElem?_eq_getElem hlt]
  rw [refAt, survivorRef, hfind, Option.map_some, Option.getD_some] at hat
  obtain ⟨k, hk, hkref⟩ := Option.map_eq_some_iff.mp hat
  obtain ⟨k', hk', hkref', hgroup⟩ := @exists_kept_group sha entities _ (List.getElem_mem hlt)
  obtain rfl : k = k' := List.inj_on_of_nodup_map (kept_nodup hrefs) (List.mem_of_getElem? hk) hk'
    (hkref.trans hkref'.symm)
  refine ⟨entities[p].group sha, ?_, ?_⟩
  · rw [groupOf, hfind, Option.map_some]
  · have hd' : d.entities = (collapseByConvergenceKey sha entities).entities := hd
    rw [Dump.groupAt, hd', hk, Option.map_some, hgroup]

/-- What is redirected: a relationship between two positions for each record between the
    groups read there. -/
theorem mem_redirectOne (hrefs : (entities.map Entity.dumpRef).Nodup)
    (hres : List.Forall₂ (Resolves entities) relationships resolved)
    (hd : d.entities = entities.filterMap (keep sha entities)) {y : ResolvedRelationship} :
    y ∈ resolved.filterMap (redirectOne (collapseByConvergenceKey sha entities).remap)
      ↔ y.source ≠ y.target
        ∧ ∃ r ∈ relationships, r.ends sha entities = d.ends sha y ∧ y.createdAt = r.createdAt := by
  rw [List.mem_filterMap]
  constructor
  · rintro ⟨x, hx, hxy⟩
    obtain ⟨rfl, hne⟩ := redirectOne_eq_some_iff.mp hxy
    obtain ⟨r, hr, hsource, htarget, hkind, hat⟩ := Pass.exists_of_forall₂ hres.flip hx
    obtain ⟨g, hg, hg'⟩ := groupAt_remap hrefs hd hsource
    obtain ⟨g₁, hg₁, hg₁'⟩ := groupAt_remap hrefs hd htarget
    refine ⟨hne, r, hr, ?_, hat⟩
    rw [Relationship.ends, Dump.ends, hg, hg₁, hg', hg₁', hkind]
  · rintro ⟨hne, r, hr, hends, hat⟩
    obtain ⟨x, hx, hsource, htarget, hkind, hat'⟩ := Pass.exists_of_forall₂ hres hr
    obtain ⟨g, hg, hg'⟩ := groupAt_remap hrefs hd hsource
    obtain ⟨g₁, hg₁, hg₁'⟩ := groupAt_remap hrefs hd htarget
    rw [Relationship.ends, Dump.ends, hg, hg₁, Prod.mk.injEq, Prod.mk.injEq] at hends
    obtain ⟨hk, hs, ht⟩ := hends
    refine ⟨x, hx, redirectOne_eq_some_iff.mpr ⟨?_, hne⟩⟩
    rw [← groupAt_inj hrefs hd hs.symm hg', ← groupAt_inj hrefs hd ht.symm hg₁', hkind, hk, hat', ← hat]

theorem key_eq_of_ends (hrefs : (entities.map Entity.dumpRef).Nodup)
    (hd : d.entities = entities.filterMap (keep sha entities))
    {x y : ResolvedRelationship} (hx : x.source < d.entities.length ∧ x.target < d.entities.length)
    (h : d.ends sha x = d.ends sha y) : resolvedView.key x = resolvedView.key y := by
  rw [Dump.ends, Dump.ends, Prod.mk.injEq, Prod.mk.injEq] at h
  obtain ⟨hkind, hsource, htarget⟩ := h
  have hat {i : Nat} (hi : i < d.entities.length) :
      d.groupAt sha i = some (d.entities[i].group sha) := by
    rw [Dump.groupAt, List.getElem?_eq_getElem hi, Option.map_some]
  have hs := groupAt_inj hrefs hd (hat hx.1) (hsource ▸ hat hx.1)
  have ht := groupAt_inj hrefs hd (hat hx.2) (htarget ▸ hat hx.2)
  show (x.kind, x.source, x.target) = (y.kind, y.source, y.target)
  rw [hkind, hs, ht]

theorem ends_of_key {x y : ResolvedRelationship}
    (h : resolvedView.key x = resolvedView.key y) : d.ends sha x = d.ends sha y := by
  obtain ⟨hkind, hst⟩ := Prod.mk.inj h
  obtain ⟨hsource, htarget⟩ := Prod.mk.inj hst
  rw [Dump.ends, Dump.ends, hkind, hsource, htarget]

theorem Relationship.ends_of_key {r r' : Relationship}
    (h : relationshipView.key r = relationshipView.key r') :
    r.ends sha entities = r'.ends sha entities := by
  obtain ⟨hkind, hst⟩ := Prod.mk.inj h
  obtain ⟨hsource, htarget⟩ := Prod.mk.inj hst
  rw [Relationship.ends, Relationship.ends, hkind, hsource, htarget]

/-- What a relationship that is read stands for. -/
theorem mem_assemble (hrefs : (entities.map Entity.dumpRef).Nodup)
    (hres : List.Forall₂ (Resolves entities) (dedupe relationships) resolved)
    (hx : x ∈ (assemble sha entities resolved).relationships) :
    (x.source < (assemble sha entities resolved).entities.length
        ∧ x.target < (assemble sha entities resolved).entities.length)
      ∧ x.source ≠ x.target
      ∧ ∃ r ∈ relationships, r.ends sha entities = (assemble sha entities resolved).ends sha x := by
  obtain ⟨y, hy, hkey⟩ := List.mem_map.mp (mem_collapse.mp hx).1
  obtain ⟨hne, r, hr, hends, -⟩ :=
    (mem_redirectOne (d := assemble sha entities resolved) hrefs hres rfl).mp hy
  have hendsx : r.ends sha entities = (assemble sha entities resolved).ends sha x :=
    hends.trans (ends_of_key hkey)
  obtain ⟨z, -, hsource, htarget, -, -⟩ := Pass.exists_of_forall₂ hres hr
  obtain ⟨g, hg, -⟩ := groupAt_remap (d := assemble sha entities resolved) hrefs rfl hsource
  obtain ⟨g₁, hg₁, -⟩ := groupAt_remap (d := assemble sha entities resolved) hrefs rfl htarget
  have hin {i : Nat} {g : Group} (h : (assemble sha entities resolved).groupAt sha i = some g) :
      i < (assemble sha entities resolved).entities.length := by
    obtain ⟨k, hk, -⟩ := Option.map_eq_some_iff.mp h
    exact (List.getElem?_eq_some_iff.mp hk).1
  obtain ⟨-, hst⟩ := Prod.mk.inj hendsx
  obtain ⟨hs, ht⟩ := Prod.mk.inj hst
  obtain ⟨-, hst'⟩ := Prod.mk.inj hkey
  obtain ⟨hs', ht'⟩ := Prod.mk.inj hst'
  obtain ⟨r', hr', hkey'⟩ := List.mem_map.mp (mem_collapse.mp hr).1
  refine ⟨⟨hin (hs.symm.trans hg), hin (ht.symm.trans hg₁)⟩, ?_, r', hr',
    (Relationship.ends_of_key hkey').trans hendsx⟩
  rw [← show y.source = x.source from hs', ← show y.target = x.target from ht']
  exact hne

/-- A record that relates two groups is read, and once. -/
theorem count_ends (hrefs : (entities.map Entity.dumpRef).Nodup)
    (hres : List.Forall₂ (Resolves entities) (dedupe relationships) resolved) {r : Relationship}
    (hr : r ∈ relationships)
    (hne : groupOf sha entities r.source ≠ groupOf sha entities r.target) :
    ((assemble sha entities resolved).relationships.map
      ((assemble sha entities resolved).ends sha)).count (r.ends sha entities) = 1 := by
  have hkeys := collapse_keys_nodup (v := resolvedView)
    (resolved.filterMap (redirectOne (collapseByConvergenceKey sha entities).remap))
  have hnodup : ((assemble sha entities resolved).relationships.map
      ((assemble sha entities resolved).ends sha)).Nodup := by
    refine List.Nodup.map_on (fun x hx y hy hends => ?_) (hkeys.of_map _)
    exact List.inj_on_of_nodup_map hkeys hx hy
      (key_eq_of_ends hrefs rfl (mem_assemble hrefs hres hx).1 hends)
  refine List.count_eq_one_of_mem hnodup ?_
  obtain ⟨r', hr', hkey⟩ := exists_mem_collapse_iff (v := relationshipView)
    (p := fun k => k = relationshipView.key r) |>.mpr ⟨r, hr, rfl⟩
  obtain ⟨z, -, hsource, htarget, -, -⟩ := Pass.exists_of_forall₂ hres hr'
  obtain ⟨g, hg, hg'⟩ := groupAt_remap (d := assemble sha entities resolved) hrefs rfl hsource
  obtain ⟨g₁, hg₁, hg₁'⟩ := groupAt_remap (d := assemble sha entities resolved) hrefs rfl htarget
  -- the record between the positions its ends are read at
  have hends : r'.ends sha entities = (assemble sha entities resolved).ends sha
      ⟨r'.kind, (collapseByConvergenceKey sha entities).remap.getD z.source 0,
        (collapseByConvergenceKey sha entities).remap.getD z.target 0, r'.createdAt⟩ := by
    rw [Relationship.ends, Dump.ends, hg, hg₁, hg', hg₁']
  have hends' := @Relationship.ends_of_key sha entities _ _ hkey
  have hredirected := (mem_redirectOne hrefs hres rfl).mpr ⟨?_, r', hr', hends, rfl⟩
  · obtain ⟨x, hx, hxkey⟩ := List.mem_map.mp
      (((kept_collapse (v := resolvedView) _).mem_keys _).mpr (List.mem_map_of_mem hredirected))
    exact List.mem_map.mpr ⟨x, hx, (ends_of_key hxkey).trans (hends.symm.trans hends')⟩
  · intro heq
    have hgg : g = g₁ := Option.some.inj (hg'.symm.trans ((congrArg _ heq).trans hg₁'))
    obtain ⟨-, hst⟩ := Prod.mk.inj hends'
    obtain ⟨hs, ht⟩ := Prod.mk.inj hst
    exact hne (hs.symm.trans (hg.trans ((congrArg some hgg).trans (hg₁.symm.trans ht))))

theorem time_recorded (hrefs : (entities.map Entity.dumpRef).Nodup)
    (hres : List.Forall₂ (Resolves entities) (dedupe relationships) resolved)
    (hx : x ∈ (assemble sha entities resolved).relationships) {t : Int}
    (ht : x.createdAt = some t) :
    ∃ r ∈ relationships, r.ends sha entities = (assemble sha entities resolved).ends sha x
      ∧ r.createdAt = some t := by
  obtain ⟨y, hy, hkey, hyt⟩ := exists_of_stamp_collapse hx ht
  obtain ⟨-, r, hr, hends, hat⟩ :=
    (mem_redirectOne (d := assemble sha entities resolved) hrefs hres rfl).mp hy
  obtain ⟨r', hr', hkey', hrt⟩ := exists_of_stamp_collapse hr (hat.symm.trans hyt)
  exact ⟨r', hr', (Relationship.ends_of_key hkey').trans (hends.trans (ends_of_key hkey)), hrt⟩

theorem time_kept (hrefs : (entities.map Entity.dumpRef).Nodup)
    (hres : List.Forall₂ (Resolves entities) (dedupe relationships) resolved)
    (hx : x ∈ (assemble sha entities resolved).relationships) {r : Relationship}
    (hr : r ∈ relationships)
    (hends : r.ends sha entities = (assemble sha entities resolved).ends sha x)
    (hstamp : r.createdAt.isSome) : x.createdAt.isSome := by
  obtain ⟨-, hne, -⟩ := mem_assemble hrefs hres hx
  obtain ⟨r', hr', hkey⟩ := exists_mem_collapse_iff (v := relationshipView)
    (p := fun k => k = relationshipView.key r) |>.mpr ⟨r, hr, rfl⟩
  have hstamp' := stamp_collapse_isSome hr' hr hkey.symm hstamp
  -- the same relationship with the time of the kept record is among those redirected
  have hredirected : { x with createdAt := r'.createdAt } ∈ resolved.filterMap
      (redirectOne (collapseByConvergenceKey sha entities).remap) :=
    (mem_redirectOne hrefs hres rfl).mpr
      ⟨hne, r', hr', (Relationship.ends_of_key hkey).trans hends, rfl⟩
  exact stamp_collapse_isSome hx hredirected rfl hstamp'

end

/-! ## Reading -/

/-- The dump that is read is the quotient of the records by their groups. -/
theorem quotient_assemble {sha : String → String} {entities : List Entity}
    {relationships : List Relationship} {resolved : List ResolvedRelationship}
    (hrefs : (entities.map Entity.dumpRef).Nodup)
    (hres : List.Forall₂ (Resolves entities) (dedupe relationships) resolved) :
    Quotient sha entities relationships (assemble sha entities resolved) where
  one_entry e he := count_key hrefs (mem_memoryEntries.mp he)
  entry k hk := by
    obtain ⟨e, he, hkeep⟩ := List.mem_filterMap.mp (mem_memoryEntries.mp hk)
    obtain ⟨m, rest, -, hordered, rfl⟩ := keep_eq_some_memoryEntry hrefs he hkeep
    exact foldOf_inherit hordered
  others := filter_kept entities
  valid _ hx := (mem_assemble hrefs hres hx).1
  no_loop _ hx := (mem_assemble hrefs hres hx).2.1
  one_relationship _ hr hne := count_ends hrefs hres hr hne
  recorded _ hx := (mem_assemble hrefs hres hx).2.2
  time_recorded _ hx _ ht := time_recorded hrefs hres hx ht
  time_kept _ hx _ hr hends hstamp := time_kept hrefs hres hx hr hends hstamp
  merged := by
    have hlength := length_eq_memoryEntries_add entities
    have hkept := length_eq_memoryEntries_add (entities.filterMap (keep sha entities))
    have hle := List.length_filterMap_le (keep sha entities) entities
    rw [filter_kept] at hkept
    show entities.length - (entities.filterMap (keep sha entities)).length
      + (memoryEntries (entities.filterMap (keep sha entities))).length = _
    omega

/-- What is read of an accepted dump is a well-formed quotient of its records: one entry
    for each convergence key, and one relationship for each type and pair of groups. -/
theorem read_quotient {env : ReaderEnv} {text : String} {d : Dump} (h : read env text = .ok d) :
    ∃ first body last, splitLines text = .ok (first :: (body ++ [last]))
      ∧ (∀ line ∈ body, isBodyLine env line)
      ∧ Quotient env.sha256 (entitiesOf env body) (relationshipsOf env body) d := by
  obtain ⟨first, body, last, hlines, h⟩ := exists_readFramed h
  obtain ⟨-, -, hbody, hsound, resolved, hres, rfl⟩ := readFramed_eq_ok_iff.mp h
  exact ⟨first, body, last, hlines, hbody,
    quotient_assemble hsound.refs (resolve_eq_ok_iff.mp hres)⟩

/-- Two records of one relationship, the second without a time. -/
theorem read_quotient_of_one_time :
    ∃ d, read sampleEnv.toReaderEnv (sampleDump (sampleBody ",\"created_at\":10" "")) = .ok d
      ∧ ∃ first body last,
        splitLines (sampleDump (sampleBody ",\"created_at\":10" ""))
          = .ok (first :: (body ++ [last]))
        ∧ (∀ line ∈ body, isBodyLine sampleEnv.toReaderEnv line)
        ∧ Quotient sampleEnv.sha256 (entitiesOf sampleEnv.toReaderEnv body)
          (relationshipsOf sampleEnv.toReaderEnv body) d := by
  have hone := sampleBody_one_line ",\"created_at\":10" "" (by decide) (by decide)
  obtain ⟨-, -, d, hread⟩ := @read_sampleDump _ _ (some 10) none hone
    (by decide +kernel) (by decide +kernel)
  exact ⟨d, hread, read_quotient hread⟩

end PortableDump
end Inkentry
