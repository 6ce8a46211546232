/-
  Inkentry.Dump.ReaderSpec

  When a dump is accepted, and what is read from it.  Each check is restated as
  a condition on the records (`readFramed_eq_ok_iff`), and the relationships are
  restated with references for positions (`links_eq`).
-/

import Inkentry.Dump.Reader

namespace Inkentry
namespace PortableDump

open OrderLimit SortedSet KeyedStamp

theorem bind_eq_ok_iff {ε α β : Type} {x : Except ε α} {f : α → Except ε β} {b : β} :
    x >>= f = .ok b ↔ ∃ a, x = .ok a ∧ f a = .ok b := by
  cases x with
  | error e => simp [bind, Except.bind]
  | ok a => simp [bind, Except.bind]

/-! ## The records of a body -/

variable {env : ReaderEnv}

def Record.entity? : Record → Option Entity
  | .entity e => some e
  | _ => none

def Record.relationship? : Record → Option Relationship
  | .relationship r => some r
  | _ => none

/-- A line that is an entity or a relationship. -/
def isBodyLine (env : ReaderEnv) (line : String) : Prop :=
  ∃ record, env.parseRecord line = some record ∧ record ≠ .header ∧ record ≠ .footer

def entitiesOf (env : ReaderEnv) (body : List String) : List Entity :=
  body.filterMap fun line => (env.parseRecord line).bind Record.entity?

def relationshipsOf (env : ReaderEnv) (body : List String) : List Relationship :=
  body.filterMap fun line => (env.parseRecord line).bind Record.relationship?

theorem readBody_eq_ok_iff {n : Nat} {body : List String} {read : List Entity × List Relationship} :
    readBody env n body = .ok read
      ↔ (∀ line ∈ body, isBodyLine env line)
        ∧ read = (entitiesOf env body, relationshipsOf env body) := by
  induction body generalizing n read with
  | nil => simp [readBody, entitiesOf, relationshipsOf, eq_comm]
  | cons line rest ih =>
    rw [readBody, List.forall_mem_cons, entitiesOf, relationshipsOf, List.filterMap_cons,
      List.filterMap_cons, ← entitiesOf, ← relationshipsOf, isBodyLine]
    cases env.parseRecord line with
    | none => simp
    | some record =>
      -- a second header or footer is refused; entities and relationships are collected apart
      cases record with
      | header | footer => simp
      | entity x | relationship x =>
        simp only [bind_eq_ok_iff, ih, pure, Except.pure, Except.ok.injEq]
        simp only [Option.bind_some, Record.entity?, Record.relationship?]
        constructor
        · rintro ⟨-, ⟨hrest, rfl⟩, rfl⟩
          exact ⟨⟨⟨_, rfl, by simp, by simp⟩, hrest⟩, rfl⟩
        · rintro ⟨⟨-, hrest⟩, rfl⟩
          exact ⟨_, ⟨hrest, rfl⟩, rfl⟩

/-! ## The checks on identities -/

variable {entries : List MemoryEntry}

theorem refuseBlankIdentities_eq_ok_iff :
    refuseBlankIdentities entries = .ok ()
      ↔ ∀ e ∈ entries, ∀ p ∈ e.identities, ¬ p.2.any isBlank := by
  induction entries with
  | nil => simp [refuseBlankIdentities]
  | cons e rest ih =>
    rw [refuseBlankIdentities, List.forall_mem_cons]
    cases hfind : e.identities.find? fun p : String × Option String => p.2.any isBlank with
    | none => simp only [ih, iff_and_self]; exact fun _ => by simpa using hfind
    | some p =>
      refine iff_of_false (by simp) fun h => ?_
      have hblank := List.find?_some hfind
      exact h.1 p (List.mem_of_find?_eq_some hfind) hblank

/-- The identities of one kind that some entries claim are each claimed once, and not
    among those seen. -/
def Distinct (seen claimed : List String) : Prop := claimed.Nodup ∧ ∀ x ∈ claimed, x ∉ seen

theorem distinct_cons {seen claimed : List String} {x? : Option String} :
    Distinct seen (x?.toList ++ claimed)
      ↔ (∀ x ∈ x?, x ∉ seen) ∧ Distinct (x?.toList ++ seen) claimed := by
  cases x? with
  | none => simp [Distinct]
  | some x =>
    rw [Distinct, Distinct, Option.toList_some, List.singleton_append, List.nodup_cons,
      List.forall_mem_cons]
    simp only [Option.mem_def, Option.some.injEq, forall_eq', List.singleton_append, List.mem_cons,
      not_or]
    constructor
    · rintro ⟨⟨hx, hnodup⟩, hseen, hrest⟩
      exact ⟨hseen, hnodup, fun y hy => ⟨fun heq => hx (heq ▸ hy), hrest y hy⟩⟩
    · rintro ⟨hseen, hnodup, hrest⟩
      exact ⟨⟨fun hmem => (hrest x hmem).1 rfl, hnodup⟩, hseen, fun y hy => (hrest y hy).2⟩

theorem refuseRepeatedIdentities_eq_ok_iff {uuids remoteIds : List String} :
    refuseRepeatedIdentities uuids remoteIds entries = .ok ()
      ↔ Distinct uuids (entries.filterMap MemoryEntry.uuid)
        ∧ Distinct remoteIds (entries.filterMap MemoryEntry.remoteId) := by
  induction entries generalizing uuids remoteIds with
  | nil => simp [refuseRepeatedIdentities, Distinct]
  | cons e rest ih =>
    have hcons (f : MemoryEntry → Option String) :
        (e :: rest).filterMap f = (f e).toList ++ rest.filterMap f := by
      rw [List.filterMap_cons]
      cases f e <;> rfl
    rw [refuseRepeatedIdentities, hcons, hcons, distinct_cons, distinct_cons]
    have hseen (x? : Option String) (seen : List String) :
        x?.filter (fun x => decide (x ∈ seen)) = none ↔ ∀ x ∈ x?, x ∉ seen := by
      cases x? <;> simp [Option.filter]
    -- the uuid is looked at first, and then the remote id
    cases huuid : e.uuid.filter (· ∈ uuids) with
    | some uuid =>
      refine iff_of_false (by simp) fun h => ?_
      rw [← hseen, huuid] at h
      exact absurd h.1.1 (by simp)
    | none =>
      cases hremote : e.remoteId.filter (· ∈ remoteIds) with
      | some remoteId =>
        refine iff_of_false (by simp) fun h => ?_
        rw [← hseen e.remoteId, hremote] at h
        exact absurd h.2.1 (by simp)
      | none =>
        simp only [ih]
        rw [hseen] at huuid hremote
        tauto

/-! ## Resolving references -/

variable {relationships : List Relationship}

/-- A relationship with its ends looked up. -/
def Resolves (entities : List Entity) (r : Relationship) (x : ResolvedRelationship) : Prop :=
  positionOf entities r.source = some x.source ∧ positionOf entities r.target = some x.target
    ∧ x.kind = r.kind ∧ x.createdAt = r.createdAt

theorem resolve_eq_ok_iff {entities : List Entity} {resolved : List ResolvedRelationship} :
    resolve entities relationships = .ok resolved
      ↔ List.Forall₂ (Resolves entities) relationships resolved := by
  induction relationships generalizing resolved with
  | nil => simp [resolve, eq_comm]
  | cons r rest ih =>
    rw [resolve]
    cases hsource : positionOf entities r.source with
    | none =>
      refine iff_of_false (by simp) fun h => ?_
      obtain ⟨x, l, ⟨hx, -⟩, -, -⟩ := List.forall₂_cons_left_iff.mp h
      exact absurd (hsource.symm.trans hx) (by simp)
    | some source =>
      cases htarget : positionOf entities r.target with
      | none =>
        refine iff_of_false (by simp) fun h => ?_
        obtain ⟨x, l, ⟨-, hx, -⟩, -, -⟩ := List.forall₂_cons_left_iff.mp h
        exact absurd (htarget.symm.trans hx) (by simp)
      | some target =>
        simp only [bind_eq_ok_iff, ih, pure, Except.pure, Except.ok.injEq]
        rw [List.forall₂_cons_left_iff]
        constructor
        · rintro ⟨l, hl, rfl⟩
          exact ⟨_, l, ⟨hsource, htarget, rfl, rfl⟩, hl, rfl⟩
        · rintro ⟨⟨kind, source', target', createdAt⟩, l, ⟨hs, ht, rfl, rfl⟩, hl, rfl⟩
          obtain rfl := Option.some.inj (hsource.symm.trans hs)
          obtain rfl := Option.some.inj (htarget.symm.trans ht)
          exact ⟨l, hl, rfl⟩

theorem positionOf_isSome {entities : List Entity} {dumpRef : String} :
    (positionOf entities dumpRef).isSome ↔ dumpRef ∈ entities.map Entity.dumpRef := by
  simp [positionOf, List.findIdx?_isSome]

/-- Every relationship is resolved when the ends are entities of the dump. -/
theorem exists_resolve_iff {entities : List Entity} :
    (∃ resolved, resolve entities relationships = .ok resolved)
      ↔ ∀ r ∈ relationships, r.source ∈ entities.map Entity.dumpRef
        ∧ r.target ∈ entities.map Entity.dumpRef := by
  simp only [resolve_eq_ok_iff]
  induction relationships with
  | nil => exact iff_of_true ⟨[], .nil⟩ (by simp)
  | cons r rest ih =>
    rw [List.forall_mem_cons, ← ih, ← positionOf_isSome, ← positionOf_isSome,
      Option.isSome_iff_exists, Option.isSome_iff_exists]
    constructor
    · rintro ⟨resolved, h⟩
      obtain ⟨x, l, ⟨hs, ht, -, -⟩, hl, -⟩ := List.forall₂_cons_left_iff.mp h
      exact ⟨⟨⟨_, hs⟩, _, ht⟩, l, hl⟩
    · rintro ⟨⟨⟨source, hs⟩, target, ht⟩, l, hl⟩
      exact ⟨⟨r.kind, source, target, r.createdAt⟩ :: l, .cons ⟨hs, ht, rfl, rfl⟩ hl⟩

/-! ## Folding entries -/

section

variable {sha : String → String} {entities : List Entity}
variable {m : MemoryEntry}

theorem keep_dumpRef {e k : Entity} (h : keep sha entities e = some k) :
    k.dumpRef = e.dumpRef := by
  cases e with
  | memoryEntry m =>
    rw [keep] at h
    split at h
    · rw [← Option.some.inj h]
      rfl
    · exact absurd h (by simp)
  | project p => rw [← Option.some.inj h]
  | commandUsage u => rw [← Option.some.inj h]

theorem dumpRefs_kept (l : List Entity) :
    (l.filterMap (keep sha entities)).map Entity.dumpRef
      = (l.filter fun e => (keep sha entities e).isSome).map Entity.dumpRef := by
  induction l with
  | nil => rfl
  | cons e l ih =>
    cases h : keep sha entities e with
    | none => rw [List.filterMap_cons_none h, ih, List.filter_cons_of_neg (by simp [h])]
    | some k =>
      rw [List.filterMap_cons_some h, List.filter_cons_of_pos (by simp [h]), List.map_cons,
        List.map_cons, ih, keep_dumpRef h]

theorem kept_nodup (hrefs : (entities.map Entity.dumpRef).Nodup) :
    ((entities.filterMap (keep sha entities)).map Entity.dumpRef).Nodup := by
  rw [dumpRefs_kept]
  exact hrefs.sublist (List.filter_sublist.map _)

theorem mem_filterMap_memory? :
    m ∈ entities.filterMap Entity.memory? ↔ .memoryEntry m ∈ entities := by
  rw [List.mem_filterMap]
  constructor
  · rintro ⟨e, he, hm⟩
    cases e with
    | memoryEntry m' => exact Option.some.inj hm ▸ he
    | project p => exact absurd hm (by simp [Entity.memory?])
    | commandUsage u => exact absurd hm (by simp [Entity.memory?])
  · exact fun h => ⟨_, h, rfl⟩

theorem mem_orderedMembers {key : String} :
    m ∈ orderedMembers sha entities key
      ↔ .memoryEntry m ∈ entities ∧ m.convergenceKey sha = key := by
  rw [orderedMembers, mem_sortBy, List.mem_filter, mem_filterMap_memory?, decide_eq_true_eq]

theorem survivorOf_mem (hm : .memoryEntry m ∈ entities) :
    survivorOf sha entities m ∈ orderedMembers sha entities (m.convergenceKey sha) := by
  have hself : m ∈ orderedMembers sha entities (m.convergenceKey sha) :=
    mem_orderedMembers.mpr ⟨hm, rfl⟩
  rw [survivorOf]
  cases h : orderedMembers sha entities (m.convergenceKey sha) with
  | nil => exact absurd (h ▸ hself) (by simp)
  | cons s rest => exact List.mem_cons_self

theorem survivorOf_survivorOf (hm : .memoryEntry m ∈ entities) :
    survivorOf sha entities (survivorOf sha entities m) = survivorOf sha entities m := by
  have hkey := (mem_orderedMembers.mp (@survivorOf_mem sha entities m hm)).2
  have hne : orderedMembers sha entities (m.convergenceKey sha) ≠ [] :=
    List.ne_nil_of_mem (survivorOf_mem hm)
  rw [survivorOf, hkey]
  obtain ⟨s, rest, hcons⟩ := List.exists_cons_of_ne_nil hne
  rw [survivorOf, hcons]
  rfl

theorem keep_survivorOf (hm : .memoryEntry m ∈ entities) :
    keep sha entities (.memoryEntry (survivorOf sha entities m)) = some (.memoryEntry
      (inherit (survivorOf sha entities m) (orderedMembers sha entities
        ((survivorOf sha entities m).convergenceKey sha)).tail)) := by
  rw [keep, if_pos]
  rw [survivorOf_survivorOf hm]

theorem survivingRef_mem {e : Entity} (he : e ∈ entities) :
    survivingRef sha entities e
      ∈ (entities.filterMap (keep sha entities)).map Entity.dumpRef := by
  cases e with
  | memoryEntry m =>
    have hs := (mem_orderedMembers.mp (@survivorOf_mem sha entities m he)).1
    exact List.mem_map.mpr ⟨_, List.mem_filterMap.mpr ⟨_, hs, keep_survivorOf he⟩, rfl⟩
  | project p => exact List.mem_map.mpr ⟨_, List.mem_filterMap.mpr ⟨_, he, rfl⟩, rfl⟩
  | commandUsage u => exact List.mem_map.mpr ⟨_, List.mem_filterMap.mpr ⟨_, he, rfl⟩, rfl⟩

/-! ## Positions as references -/

/-- The reference of the entity at a position. -/
def refAt (entities : List Entity) (i : Nat) : Option String := entities[i]?.map Entity.dumpRef

/-- The reference that a reference leads to after the fold. -/
def survivorRef (sha : String → String) (entities : List Entity) (dumpRef : String) : String :=
  ((entities.find? fun e => e.dumpRef = dumpRef).map (survivingRef sha entities)).getD dumpRef

theorem refAt_inj (hrefs : (entities.map Entity.dumpRef).Nodup) {i j : Nat} {dumpRef : String}
    (hi : refAt entities i = some dumpRef) (hj : refAt entities j = some dumpRef) : i = j := by
  rw [refAt, ← List.getElem?_map] at hi hj
  obtain ⟨hlt, -⟩ := List.getElem?_eq_some_iff.mp hi
  exact (List.getElem?_inj hlt hrefs).mp (hi.trans hj.symm)

/-- Looking an end up, and its survivor, leads to the survivor's reference. -/
theorem refAt_remap {dumpRef : String} {i : Nat} (h : positionOf entities dumpRef = some i) :
    refAt (collapseByConvergenceKey sha entities).entities
        ((collapseByConvergenceKey sha entities).remap.getD i 0)
      = some (survivorRef sha entities dumpRef) := by
  obtain ⟨hlt, hidx⟩ := List.findIdx?_eq_some_iff_findIdx_eq.mp h
  have hfind : entities.find? (fun e => e.dumpRef = dumpRef) = some entities[i] := by
    rw [List.find?_eq_getElem?_findIdx, hidx, List.getElem?_eq_getElem hlt]
  have hremap : (collapseByConvergenceKey sha entities).remap.getD i 0
      = (entities.filterMap (keep sha entities)).findIdx fun k =>
        k.dumpRef = survivingRef sha entities entities[i] := by
    rw [collapseByConvergenceKey, List.getD_eq_getElem?_getD, List.getElem?_map,
      List.getElem?_eq_getElem hlt]
    rfl
  obtain ⟨k, hk, href⟩ := List.mem_map.mp
    (@survivingRef_mem sha entities _ (List.getElem_mem hlt))
  rw [hremap, refAt, collapseByConvergenceKey, ← List.find?_eq_getElem?_findIdx, survivorRef, hfind,
    Option.map_some, Option.getD_some]
  obtain ⟨k', hk'⟩ := Option.isSome_iff_exists.mp (List.find?_isSome (p := fun k : Entity =>
    k.dumpRef = survivingRef sha entities entities[i]).mpr ⟨k, hk, decide_eq_true href⟩)
  rw [hk', Option.map_some]
  have href' := List.find?_some hk'
  rw [of_decide_eq_true href']

end

/-! ## The relationships that are read -/

/-- A relationship of the dump with references for positions. -/
def Dump.link (d : Dump) (r : ResolvedRelationship) : Relationship where
  kind := r.kind
  source := (refAt d.entities r.source).getD ""
  target := (refAt d.entities r.target).getD ""
  createdAt := r.createdAt

def Dump.links (d : Dump) : List Relationship := d.relationships.map d.link

/-- A relationship between survivors; none where both ends were folded together. -/
def redirect (survivor : String → String) (r : Relationship) : Option Relationship :=
  if survivor r.source = survivor r.target then none
  else some { r with source := survivor r.source, target := survivor r.target }

/-- What is read from the records of a dump that is accepted. -/
def assemble (sha : String → String) (entities : List Entity)
    (resolved : List ResolvedRelationship) : Dump :=
  let collapsed := collapseByConvergenceKey sha entities
  ⟨collapsed.entities, redirectToSurvivors resolved collapsed.remap, collapsed.merged⟩

section

variable {sha : String → String} {entities : List Entity}

/-- Two looked-up ends have one survivor when their references have. -/
theorem remap_eq_iff (hrefs : (entities.map Entity.dumpRef).Nodup) {a b : String} {i j : Nat}
    (hi : positionOf entities a = some i) (hj : positionOf entities b = some j) :
    (collapseByConvergenceKey sha entities).remap.getD i 0
        = (collapseByConvergenceKey sha entities).remap.getD j 0
      ↔ survivorRef sha entities a = survivorRef sha entities b := by
  have ha := @refAt_remap sha entities a i hi
  have hb := @refAt_remap sha entities b j hj
  constructor
  · intro heq
    exact Option.some.inj (ha.symm.trans ((congrArg _ heq).trans hb))
  · intro heq
    exact refAt_inj (kept_nodup hrefs) ha (hb.trans (congrArg some heq.symm))

/-- Redirecting positions is redirecting references. -/
theorem link_redirectOne (hrefs : (entities.map Entity.dumpRef).Nodup) {d : Dump}
    (hd : d.entities = (collapseByConvergenceKey sha entities).entities) {r : Relationship}
    {x : ResolvedRelationship} (h : Resolves entities r x) :
    (redirectOne (collapseByConvergenceKey sha entities).remap x).map d.link
      = redirect (survivorRef sha entities) r := by
  obtain ⟨hsource, htarget, hkind, hat⟩ := h
  rw [redirectOne, redirect]
  simp only [remap_eq_iff hrefs hsource htarget]
  split
  · rfl
  · simp only [Option.map_some, Dump.link, hd, refAt_remap hsource, refAt_remap htarget,
      Option.getD_some, hkind, hat]

/-- The relationships read are the deduplicated ones, redirected and deduplicated again. -/
theorem links_assemble (hrefs : (entities.map Entity.dumpRef).Nodup)
    {relationships : List Relationship} {resolved : List ResolvedRelationship}
    (hres : List.Forall₂ (Resolves entities) relationships resolved) :
    (assemble sha entities resolved).links
      = collapse relationshipView
        (relationships.filterMap (redirect (survivorRef sha entities))) := by
  have hmap : (resolved.filterMap (redirectOne (collapseByConvergenceKey sha entities).remap)).map
      (assemble sha entities resolved).link
        = relationships.filterMap (redirect (survivorRef sha entities)) := by
    generalize hd : assemble sha entities resolved = d
    have hent : d.entities = (collapseByConvergenceKey sha entities).entities := by
      rw [← hd]
      rfl
    clear hd
    induction hres with
    | nil => rfl
    | cons hhead _ ih =>
      have hlink := link_redirectOne hrefs hent hhead
      rw [List.map_filterMap, List.filterMap_cons, List.filterMap_cons, ← hlink,
        ← List.map_filterMap, ih]
  -- the ends of what is redirected are survivors, told apart by their references
  have hends : ∀ x ∈ resolved.filterMap
      (redirectOne (collapseByConvergenceKey sha entities).remap),
      ∃ a b, refAt (assemble sha entities resolved).entities x.source = some a
        ∧ refAt (assemble sha entities resolved).entities x.target = some b := by
    intro x hx
    obtain ⟨y, hy, hxy⟩ := List.mem_filterMap.mp hx
    obtain ⟨r, -, hsource, htarget, -, -⟩ : ∃ r ∈ relationships, Resolves entities r y := by
      clear hmap hx
      induction hres with
      | nil => exact absurd hy (by simp)
      | cons hhead _ ih =>
        rcases List.mem_cons.mp hy with rfl | hrest
        · exact ⟨_, List.mem_cons_self, hhead⟩
        · obtain ⟨r, hr, hres⟩ := ih hrest
          exact ⟨r, List.mem_cons_of_mem _ hr, hres⟩
    rw [redirectOne] at hxy
    split at hxy
    · exact absurd hxy (by simp)
    · rw [← Option.some.inj hxy]
      exact ⟨_, _, refAt_remap hsource, refAt_remap htarget⟩
  rw [← hmap]
  refine (@collapse_map _ _ _ _ resolvedView _ _ _ relationshipView
    (assemble sha entities resolved).link _ ?_ (fun _ => rfl) (fun _ _ => rfl)).symm
  intro x hx y hy
  obtain ⟨a, b, ha, hb⟩ := hends x hx
  obtain ⟨a', b', ha', hb'⟩ := hends y hy
  have hkept := @kept_nodup sha entities hrefs
  show (x.kind, (refAt _ x.source).getD "", (refAt _ x.target).getD "")
      = (y.kind, (refAt _ y.source).getD "", (refAt _ y.target).getD "")
    ↔ (x.kind, x.source, x.target) = (y.kind, y.source, y.target)
  rw [ha, hb, ha', hb']
  simp only [Option.getD_some, Prod.mk.injEq]
  refine and_congr_right fun _ => and_congr ?_ ?_
  · exact ⟨fun heq => refAt_inj hkept ha (heq ▸ ha'), fun heq =>
      Option.some.inj (ha.symm.trans ((congrArg _ heq).trans ha'))⟩
  · exact ⟨fun heq => refAt_inj hkept hb (heq ▸ hb'), fun heq =>
      Option.some.inj (hb.symm.trans ((congrArg _ heq).trans hb'))⟩

end

/-! ## When a dump is accepted -/

/-- The references and identities of a dump's entities name one entity each. -/
structure SoundEntities (entities : List Entity) : Prop where
  refs : (entities.map Entity.dumpRef).Nodup
  no_blank : ∀ e ∈ entities.filterMap Entity.memory?, ∀ p ∈ e.identities, ¬ p.2.any isBlank
  uuids : ((entities.filterMap Entity.memory?).filterMap MemoryEntry.uuid).Nodup
  remoteIds : ((entities.filterMap Entity.memory?).filterMap MemoryEntry.remoteId).Nodup

theorem checks_eq_ok_iff {entities : List Entity} :
    (indexByRef entities = .ok ()
        ∧ refuseBlankIdentities (entities.filterMap Entity.memory?) = .ok ()
        ∧ refuseRepeatedIdentities [] [] (entities.filterMap Entity.memory?) = .ok ())
      ↔ SoundEntities entities := by
  rw [indexByRef, refuseBlankIdentities_eq_ok_iff, refuseRepeatedIdentities_eq_ok_iff]
  have hseen (claimed : List String) : Distinct [] claimed ↔ claimed.Nodup := by simp [Distinct]
  rw [hseen, hseen]
  constructor
  · rintro ⟨hrefs, hblank, huuids, hremotes⟩
    refine ⟨?_, hblank, huuids, hremotes⟩
    split at hrefs
    case isTrue hnodup => exact hnodup
    case isFalse => exact absurd hrefs (by simp)
  · rintro ⟨hrefs, hblank, huuids, hremotes⟩
    exact ⟨if_pos hrefs, hblank, huuids, hremotes⟩

/-- A framed dump is accepted when its first and last lines are a header and a footer of
    this version, every other line is a record, the counts and the digest match, the
    entities are sound and the relationships resolve. -/
theorem readFramed_eq_ok_iff {first last : String} {body : List String} {d : Dump} :
    readFramed env first body last = .ok d
      ↔ (∃ header, env.parseHeader first = some header ∧ header.format = FORMAT
          ∧ header.formatVersion = FORMAT_VERSION)
        ∧ env.parseFooter last
          = some ⟨foundCounts (entitiesOf env body) (relationshipsOf env body),
            digestOf env (first :: body)⟩
        ∧ (∀ line ∈ body, isBodyLine env line)
        ∧ SoundEntities (entitiesOf env body)
        ∧ ∃ resolved,
          resolve (entitiesOf env body) (dedupe (relationshipsOf env body)) = .ok resolved
          ∧ d = assemble env.sha256 (entitiesOf env body) resolved := by
  have hheader : checkHeader env first = .ok ()
      ↔ ∃ header, env.parseHeader first = some header ∧ header.format = FORMAT
        ∧ header.formatVersion = FORMAT_VERSION := by
    rw [checkHeader]
    cases env.parseHeader first with
    | none => simp
    | some header =>
      by_cases hformat : header.format = FORMAT <;>
        by_cases hversion : header.formatVersion = FORMAT_VERSION <;> simp [hformat, hversion]
  have hfooter (footer : Footer) : readFooter env last = .ok footer
      ↔ env.parseFooter last = some footer := by
    rw [readFooter]
    cases env.parseFooter last <;> simp
  have hcounts (declared : Counts) (entities : List Entity) (relationships : List Relationship) :
      verifyCounts declared entities relationships = .ok ()
        ↔ foundCounts entities relationships = declared := by
    rw [verifyCounts]
    split <;> simp [*]
  have hdigest (declared : String) (lines : List String) :
      verifyDigest env declared lines = .ok () ↔ digestOf env lines = declared := by
    rw [verifyDigest]
    split <;> simp [*]
  -- every check of the reader is now a condition on the lines
  simp only [readFramed, bind_eq_ok_iff, readBody_eq_ok_iff, hheader, hfooter, hcounts, hdigest,
    pure, Except.pure, Except.ok.injEq, ← checks_eq_ok_iff]
  constructor
  · rintro ⟨_, hhead, ⟨counts, digest⟩, hfoot, _, ⟨hbody, rfl⟩, _, hc, _, hd, _, hrefs, _, hblank,
      _, hrepeated, resolved, hres, rfl⟩
    obtain rfl : _ = counts := hc
    obtain rfl : _ = digest := hd
    exact ⟨hhead, hfoot, hbody, ⟨hrefs, hblank, hrepeated⟩, resolved, hres, rfl⟩
  · rintro ⟨hhead, hfoot, hbody, ⟨hrefs, hblank, hrepeated⟩, resolved, hres, rfl⟩
    exact ⟨(), hhead, _, hfoot, _, ⟨hbody, rfl⟩, (), rfl, (), rfl, (), hrefs, (), hblank, (),
      hrepeated, resolved, hres, rfl⟩

theorem exists_readFramed {text : String} {d : Dump} (h : read env text = .ok d) :
    ∃ first body last, splitLines text = .ok (first :: (body ++ [last]))
      ∧ readFramed env first body last = .ok d := by
  obtain ⟨lines, hlines, h⟩ := bind_eq_ok_iff.mp h
  split at h
  case h_1 first second rest =>
    have hlast : (second :: rest).getLastD second = (second :: rest).getLast (by simp) := by
      rw [List.getLastD_eq_getLast?, List.getLast?_eq_some_getLast (by simp), Option.getD_some]
    exact ⟨first, (second :: rest).dropLast, _, by
      rw [hlines, hlast, List.dropLast_append_getLast], h⟩
  case h_2 => exact absurd h (by simp [throw, throwThe, MonadExceptOf.throw])

end PortableDump
end Inkentry
