/-
  Inkentry.Dump.StorePasses

  What an import does, store by store.  The two loops of `apply` write to three
  stores in turn, but no store's part reads another's: the memory store sees the
  memory entries and the relationships between them, the registry the projects,
  the usage table the recorded commands.  `writeAll_eq_ok` splits an import that
  goes through into a pass over each, and `exists_writeAll` puts passes that go
  through back together, whichever attempts they are taken from.
-/

import Inkentry.Dump.Import
import Inkentry.Dump.ReaderSpec

namespace Inkentry
namespace PortableDump

open Memory Pass

theorem Attempt.reach_eq_ok_iff {a : Attempt} {step : Step} {u : Unit} :
    a.reach step = .ok u ↔ a.fails step = false := by
  rw [Attempt.reach]
  split <;> simp_all

/-! ## Entities -/

variable {e : Entity}

def Landed.memory? : Landed → Option NoteId
  | .memory id _ => some id
  | _ => none

def Landed.project? : Landed → Option Nat
  | .project id => some id
  | _ => none

/-- What an entity does to the memory store. -/
def memoryStep (env : ApplyEnv) (mint : Nat → NoteId) (i : Nat) (e : Entity) (t : MemoryTables) :
    Except ApplyError (Option NoteId × MemoryTables) :=
  match e with
  | .memoryEntry m => do
    let (id, _, store) ←
      importEntry env t.store (m.row env (m.uuidOr (mint i))) m.tags m.linkedFiles m.origin
    return (some id, { t with store })
  | _ => return (none, t)

/-- What it does to the registry. -/
def registryStep (newId : Nat → Nat) (clock : Step → Int) (i : Nat) (e : Entity)
    (r? : Option Registry) : Except ApplyError (Option Nat × Option Registry) :=
  match e, r? with
  | .project _, none => .error .noRegistry
  | .project q, some r => do
    let (id, r') ← r.register (newId i) (clock (.insert i)) q.rootPath
      (joinPath (joinPath q.rootPath ".inkentry") "index.db")
    return (some id, some r')
  | _, r? => return (none, r?)

/-- What it does to the usage table. -/
def usageStep (_ : Nat) (e : Entity) (rows? : Option (List UsageRow)) :
    Except ApplyError (Unit × Option (List UsageRow)) :=
  match e, rows? with
  | .commandUsage _, none => .error .noUsageTable
  | .commandUsage u, some rows => return ((), some (rows ++ [⟨u.command, u.calledAt⟩]))
  | _, rows? => return ((), rows?)

/-- An entity that goes in goes into each store, wherever that is its place. -/
theorem insertEntity_eq_ok {env : ApplyEnv} {a : Attempt} {i : Nat} {p q : Progress} {l : Landed}
    (h : insertEntity env a i e p = .ok (l, q)) :
    a.fails (.insert i) = false
      ∧ memoryStep env a.uuidV7At i e p.writes.memory = .ok (l.memory?, q.writes.memory)
      ∧ registryStep a.projectId a.registryClock i e p.writes.registry
        = .ok (l.project?, q.writes.registry)
      ∧ usageStep i e p.writes.usage = .ok ((), q.writes.usage) := by
  obtain ⟨u, hreach, h⟩ := bind_eq_ok_iff.mp h
  refine ⟨Attempt.reach_eq_ok_iff.mp hreach, ?_⟩
  cases e with
  | memoryEntry m =>
    obtain ⟨⟨id, created, store⟩, himport, h⟩ := bind_eq_ok_iff.mp h
    obtain ⟨rfl, rfl⟩ := Prod.mk.inj (Except.ok.inj h)
    refine ⟨bind_eq_ok_iff.mpr ⟨_, himport, rfl⟩, ?_, ?_⟩
    · cases p.writes.registry <;> rfl
    · cases p.writes.usage <;> rfl
  | project r =>
    cases hr : p.writes.registry with
    | none => simp [hr] at h
    | some r =>
      simp only [hr] at h
      obtain ⟨⟨id, r'⟩, hregister, h⟩ := bind_eq_ok_iff.mp h
      obtain ⟨rfl, rfl⟩ := Prod.mk.inj (Except.ok.inj h)
      refine ⟨rfl, bind_eq_ok_iff.mpr ⟨_, hregister, rfl⟩, ?_⟩
      cases p.writes.usage <;> rfl
  | commandUsage u =>
    cases hu : p.writes.usage with
    | none => simp [hu] at h
    | some rows =>
      simp only [hu] at h
      obtain ⟨rfl, rfl⟩ := Prod.mk.inj (Except.ok.inj h)
      refine ⟨rfl, ?_, rfl⟩
      cases p.writes.registry <;> rfl

theorem registryStep_of_not_project {newId : Nat → Nat} {clock : Step → Int} {i : Nat}
    {g? g'? : Option Registry} {project? : Option Nat} (he : ∀ q, e ≠ .project q)
    (h : registryStep newId clock i e g? = .ok (project?, g'?)) : project? = none ∧ g'? = g? := by
  cases e with
  | project q => exact absurd rfl (he q)
  | memoryEntry m =>
    cases g? <;> exact ⟨(Prod.mk.inj (Except.ok.inj h)).1.symm, (Prod.mk.inj (Except.ok.inj h)).2.symm⟩
  | commandUsage u =>
    cases g? <;> exact ⟨(Prod.mk.inj (Except.ok.inj h)).1.symm, (Prod.mk.inj (Except.ok.inj h)).2.symm⟩

theorem usageStep_of_not_usage {i : Nat} {rows? rows'? : Option (List UsageRow)}
    (he : ∀ u, e ≠ .commandUsage u)
    (h : usageStep i e rows? = .ok ((), rows'?)) : rows'? = rows? := by
  cases e with
  | commandUsage u => exact absurd rfl (he u)
  | memoryEntry m => cases rows? <;> exact (Prod.mk.inj (Except.ok.inj h)).2.symm
  | project q => cases rows? <;> exact (Prod.mk.inj (Except.ok.inj h)).2.symm

/-- And one that goes into each store goes in. -/
theorem exists_insertEntity {env : ApplyEnv} {a : Attempt} {i : Nat} {e : Entity}
    {p : Progress} {w : OpenWrites} {id? : Option NoteId} {project? : Option Nat}
    (hfails : a.fails (.insert i) = false)
    (hm : memoryStep env a.uuidV7At i e p.writes.memory = .ok (id?, w.memory))
    (hr : registryStep a.projectId a.registryClock i e p.writes.registry
      = .ok (project?, w.registry))
    (hu : usageStep i e p.writes.usage = .ok ((), w.usage)) :
    ∃ l q, insertEntity env a i e p = .ok (l, q) ∧ q.writes = w ∧ l.memory? = id?
      ∧ l.project? = project? := by
  obtain ⟨m', r', u'⟩ := w
  have hreach : a.reach (.insert i) = .ok () := Attempt.reach_eq_ok_iff.mpr hfails
  -- an entity moves one store, and the other two stay as they are
  cases e with
  | memoryEntry m =>
    obtain ⟨⟨id, created, store⟩, himport, h⟩ := bind_eq_ok_iff.mp hm
    obtain ⟨rfl, rfl⟩ := Prod.mk.inj (Except.ok.inj h)
    have hr' := registryStep_of_not_project (fun _ => Entity.noConfusion) hr
    have hu' := usageStep_of_not_usage (fun _ => Entity.noConfusion) hu
    obtain ⟨rfl, rfl⟩ : project? = none ∧ r' = p.writes.registry := hr'
    obtain rfl : u' = p.writes.usage := hu'
    exact ⟨_, _, bind_eq_ok_iff.mpr ⟨(), hreach, bind_eq_ok_iff.mpr ⟨_, himport, rfl⟩⟩,
      rfl, rfl, rfl⟩
  | project r =>
    obtain ⟨rfl, rfl⟩ := Prod.mk.inj (Except.ok.inj hm)
    have hu' := usageStep_of_not_usage (fun _ => Entity.noConfusion) hu
    obtain rfl : u' = p.writes.usage := hu'
    cases hreg : p.writes.registry with
    | none => simp [registryStep, hreg] at hr
    | some reg =>
      rw [hreg] at hr
      obtain ⟨⟨id, reg'⟩, hregister, h⟩ := bind_eq_ok_iff.mp hr
      obtain ⟨rfl, rfl⟩ := Prod.mk.inj (Except.ok.inj h)
      refine ⟨.project id, { p with
          writes := { p.writes with registry := some reg' }
          summary := { p.summary with projects := p.summary.projects + 1 } },
        bind_eq_ok_iff.mpr ⟨(), hreach, ?_⟩, rfl, rfl, rfl⟩
      simp only [hreg]
      exact bind_eq_ok_iff.mpr ⟨_, hregister, rfl⟩
  | commandUsage u =>
    obtain ⟨rfl, rfl⟩ := Prod.mk.inj (Except.ok.inj hm)
    have hr' := registryStep_of_not_project (fun _ => Entity.noConfusion) hr
    obtain ⟨rfl, rfl⟩ : project? = none ∧ r' = p.writes.registry := hr'
    cases husage : p.writes.usage with
    | none => simp [usageStep, husage] at hu
    | some rows =>
      simp only [usageStep, husage, pure, Except.pure, Except.ok.injEq, Prod.mk.injEq,
        true_and] at hu
      subst hu
      refine ⟨.commandUsage, { p with
          writes := { p.writes with usage := some (rows ++ [⟨u.command, u.calledAt⟩]) }
          summary := { p.summary with commandUsages := p.summary.commandUsages + 1 } },
        bind_eq_ok_iff.mpr ⟨(), hreach, ?_⟩, rfl, rfl, rfl⟩
      simp only [husage]
      rfl

/-- The loop over the entities is a pass over each store. -/
theorem insertEntities_iff {env : ApplyEnv} {a : Attempt} {entities : List Entity} {i : Nat}
    {p : Progress} {w : OpenWrites} {ids : List (Option NoteId)} {projects : List (Option Nat)} :
    (∃ landed q, pass (insertEntity env a) i entities p = .ok (landed, q) ∧ q.writes = w
        ∧ landed.map Landed.memory? = ids ∧ landed.map Landed.project? = projects)
      ↔ (∀ k < entities.length, a.fails (.insert (i + k)) = false)
        ∧ pass (memoryStep env a.uuidV7At) i entities p.writes.memory = .ok (ids, w.memory)
        ∧ pass (registryStep a.projectId a.registryClock) i entities p.writes.registry
          = .ok (projects, w.registry)
        ∧ ∃ us, pass usageStep i entities p.writes.usage = .ok (us, w.usage) := by
  induction entities generalizing i p ids projects with
  | nil =>
    simp only [pass_nil_eq_ok_iff]
    constructor
    · rintro ⟨landed, q, ⟨rfl, rfl⟩, rfl, rfl, rfl⟩
      exact ⟨by simp, ⟨rfl, rfl⟩, ⟨rfl, rfl⟩, [], rfl, rfl⟩
    · rintro ⟨-, ⟨rfl, hm⟩, ⟨rfl, hr⟩, us, rfl, hu⟩
      exact ⟨[], p, ⟨rfl, rfl⟩, OpenWrites.ext hm.symm hr.symm hu.symm, rfl, rfl⟩
  | cons e rest ih =>
    rw [List.length_cons, @forall_from_succ (fun k => a.fails (.insert k) = false)]
    simp only [pass_cons_eq_ok_iff]
    constructor
    · rintro ⟨landed, q, ⟨l, p', ls, he, hrest, rfl⟩, hw, rfl, rfl⟩
      obtain ⟨hfails, hm, hr, hu⟩ := insertEntity_eq_ok he
      obtain ⟨hno, hms, hrs, us, hus⟩ := ih.mp ⟨ls, q, hrest, hw, rfl, rfl⟩
      exact ⟨⟨hfails, hno⟩, ⟨_, _, _, hm, hms, rfl⟩, ⟨_, _, _, hr, hrs, rfl⟩,
        () :: us, (), _, us, hu, hus, rfl⟩
    · rintro ⟨⟨hfails, hno⟩, ⟨id?, t, ids', hm, hms, rfl⟩, ⟨project?, g?, projects', hr, hrs, rfl⟩,
        us, u, rows?, us', hu, hus, rfl⟩
      -- each store has its own next state; the entity lands in the three of them at once
      obtain ⟨l, p', he, hw', rfl, rfl⟩ := @exists_insertEntity env a i e p ⟨t, g?, rows?⟩ _ _
        hfails hm hr hu
      obtain ⟨ls, q, hrest, hw, rfl, rfl⟩ := (@ih (i + 1) p' ids' projects').mpr
        ⟨hno, by rw [hw']; exact hms, by rw [hw']; exact hrs, us', by rw [hw']; exact hus⟩
      exact ⟨l :: ls, q, ⟨l, p', ls, he, hrest, rfl⟩, hw, rfl, rfl⟩

/-! ## Relationships -/

variable {r : ResolvedRelationship}

/-- Where both ends of a relationship landed, if they landed in this store. -/
def ends {β : Type*} (ids : List (Option β)) (r : ResolvedRelationship) : Option (β × β) :=
  (ids[r.source]?).join.bind fun x => (ids[r.target]?).join.map fun y => (x, y)

/-- What a relationship does to the memory store. -/
def relateMemory (clock : Step → Int) (ids : List (Option NoteId)) (j : Nat)
    (r : ResolvedRelationship) (t : MemoryTables) : MemoryTables :=
  match r.kind, ends ids r with
  | .supersedes, some (successor, predecessor) =>
    let t' := (t.importEdge ⟨successor, predecessor, r.kind.asStr⟩ r.createdAt
      (clock (.relate j))).2
    { t' with store := t'.store.setSupersededBy predecessor successor }
  | .relatesTo, some (x, y)
  | .contradicts, some (x, y) =>
    (t.importEdge ⟨x, y, r.kind.asStr⟩ r.createdAt (clock (.relate j))).2
  | _, _ => t

/-- What it does to the registry. -/
def relateRegistry (projects : List (Option Nat)) (r : ResolvedRelationship) (g : Registry) :
    Registry :=
  match r.kind, ends projects r with
  | .dependsOn, some (project, dep) => g.addDep project dep
  | _, _ => g

/-- A relationship whose ends are of the kind it links. -/
def Linkable {β γ : Type*} (ids : List (Option β)) (projects : List (Option γ))
    (r : ResolvedRelationship) : Prop :=
  if r.kind = .dependsOn then (ends projects r).isSome else (ends ids r).isSome

/-- What it does to the stores. -/
def relate (clock : Step → Int) (ids : List (Option NoteId)) (projects : List (Option Nat))
    (j : Nat) (r : ResolvedRelationship) (w : OpenWrites) : OpenWrites :=
  ⟨relateMemory clock ids j r w.memory, w.registry.map (relateRegistry projects r), w.usage⟩

theorem ends_map {β : Type*} (f : Landed → Option β) {landed : List Landed} {x y : Landed}
    (hx : landed[r.source]? = some x) (hy : landed[r.target]? = some y) :
    ends (landed.map f) r = (f x).bind fun u => (f y).map fun v => (u, v) := by
  rw [ends, List.getElem?_map, List.getElem?_map, hx, hy]
  rfl

theorem map_relateRegistry_of_ne {projects : List (Option Nat)} (hk : r.kind ≠ .dependsOn)
    {g? : Option Registry} : g?.map (relateRegistry projects r) = g? := by
  have hid : relateRegistry projects r = id := by
    funext g
    rw [relateRegistry]
    split
    case h_1 heq _ => exact absurd heq hk
    case h_2 => rfl
  rw [hid, Option.map_id_fun, id]

/-- What the relationships from position `j` on do to the stores. -/
def relateAll (clock : Step → Int) (ids : List (Option NoteId)) (projects : List (Option Nat)) :
    Nat → List ResolvedRelationship → OpenWrites → OpenWrites
  | _, [], w => w
  | j, r :: rest, w => relateAll clock ids projects (j + 1) rest (relate clock ids projects j r w)

/-- A relationship is recorded when its ends are of the right kind, and does to each
    store what concerns it. -/
theorem insertResolved_iff {env : ApplyEnv} {a : Attempt} {landed : List Landed} {j : Nat}
    {r : ResolvedRelationship} {p : Progress} {w : OpenWrites} :
    (∃ q, insertResolved env a landed j r p = .ok ((), q) ∧ q.writes = w)
      ↔ a.fails (.relate j) = false
        ∧ Linkable (landed.map Landed.memory?) (landed.map Landed.project?) r
        ∧ (r.kind = .dependsOn → p.writes.registry.isSome)
        ∧ w = relate a.memoryClock (landed.map Landed.memory?) (landed.map Landed.project?) j r
            p.writes := by
  rw [insertResolved]
  cases hx : landed[r.source]? with
  | none => simp [Linkable, ends, hx]
  | some x =>
    cases hy : landed[r.target]? with
    | none => simp [Linkable, ends, hy]
    | some y =>
      have hmemory := ends_map Landed.memory? hx hy
      have hproject := ends_map Landed.project? hx hy
      cases hfails : a.fails (.relate j) with
      | true =>
        refine iff_of_false ?_ (by simp)
        rintro ⟨q, h, -⟩
        obtain ⟨q', h, -⟩ := bind_eq_ok_iff.mp h
        obtain ⟨u, hreach, -⟩ := bind_eq_ok_iff.mp h
        rw [Attempt.reach_eq_ok_iff, hfails] at hreach
        exact absurd hreach (by simp)
      | false =>
        have hreach : a.reach (.relate j) = .ok () := Attempt.reach_eq_ok_iff.mpr hfails
        have hregistry (hk : r.kind ≠ .dependsOn) : p.writes.registry.map
            (relateRegistry (landed.map Landed.project?) r) = p.writes.registry :=
          map_relateRegistry_of_ne hk
        rw [relate, eq_comm (a := w)]
        simp only [insertRelationship, hreach]
        -- only ends of the kind a relationship links get past the match
        cases hk : r.kind with
        | dependsOn =>
          cases hreg : p.writes.registry <;> cases x <;> cases y <;>
            simp_all [Linkable, relateMemory, relateRegistry, Landed.memory?, Landed.project?,
              bind, Except.bind, pure, Except.pure]
        | supersedes =>
          cases x <;> cases y <;>
            simp_all [Linkable, relateMemory, Landed.memory?, Landed.project?, bind, Except.bind,
              pure, Except.pure]
        | relatesTo =>
          cases x <;> cases y <;>
            simp_all [Linkable, relateMemory, Landed.memory?, Landed.project?, bind, Except.bind,
              pure, Except.pure]
        | contradicts =>
          cases x <;> cases y <;>
            simp_all [Linkable, relateMemory, Landed.memory?, Landed.project?, bind, Except.bind,
              pure, Except.pure]

/-- The loop over the relationships goes through when each of them can be recorded. -/
theorem insertRelationships_iff {env : ApplyEnv} {a : Attempt} {landed : List Landed}
    {relationships : List ResolvedRelationship} {j : Nat} {p : Progress} {w : OpenWrites} :
    (∃ us q, pass (insertResolved env a landed) j relationships p = .ok (us, q) ∧ q.writes = w)
      ↔ (∀ k < relationships.length, a.fails (.relate (j + k)) = false)
        ∧ (∀ r ∈ relationships,
          Linkable (landed.map Landed.memory?) (landed.map Landed.project?) r
            ∧ (r.kind = .dependsOn → p.writes.registry.isSome))
        ∧ w = relateAll a.memoryClock (landed.map Landed.memory?) (landed.map Landed.project?) j
            relationships p.writes := by
  induction relationships generalizing j p with
  | nil =>
    simp only [pass_nil_eq_ok_iff, relateAll]
    constructor
    · rintro ⟨us, q, ⟨rfl, rfl⟩, rfl⟩
      exact ⟨by simp, by simp, rfl⟩
    · rintro ⟨-, -, rfl⟩
      exact ⟨[], p, ⟨rfl, rfl⟩, rfl⟩
  | cons r rest ih =>
    rw [List.length_cons, @forall_from_succ (fun k => a.fails (.relate k) = false)]
    simp only [pass_cons_eq_ok_iff]
    constructor
    · rintro ⟨us, q, ⟨u, p', us', hr, hrest, rfl⟩, hw⟩
      obtain ⟨hfails, hlink, hreg, hp'⟩ := insertResolved_iff.mp ⟨p', hr, rfl⟩
      obtain ⟨hno, hlinks, rfl⟩ := ih.mp ⟨us', q, hrest, hw⟩
      rw [hp'] at hlinks
      refine ⟨⟨hfails, hno⟩, ?_, by rw [hp', relateAll]⟩
      intro r' hr'
      rcases List.mem_cons.mp hr' with rfl | hr'
      · exact ⟨hlink, hreg⟩
      · -- a relationship leaves an open registry open
        obtain ⟨hl, hreg'⟩ := hlinks r' hr'
        exact ⟨hl, fun hk => by simpa [relate] using hreg' hk⟩
    · rintro ⟨⟨hfails, hno⟩, hlinks, rfl⟩
      obtain ⟨hlink, hreg⟩ := hlinks r List.mem_cons_self
      obtain ⟨p', hr, hp'⟩ := (@insertResolved_iff env a landed j r p _).mpr
        ⟨hfails, hlink, hreg, rfl⟩
      have hlinks' : ∀ r' ∈ rest, Linkable (landed.map Landed.memory?)
          (landed.map Landed.project?) r' ∧ (r'.kind = .dependsOn → p'.writes.registry.isSome) := by
        intro r' hr'
        obtain ⟨hl, hreg'⟩ := hlinks r' (List.mem_cons_of_mem _ hr')
        exact ⟨hl, fun hk => by simpa [hp', relate] using hreg' hk⟩
      obtain ⟨us, q, hrest, hw⟩ := (@ih (j + 1) p').mpr
        ⟨hno, hlinks', congrArg (relateAll _ _ _ (j + 1) rest) hp'.symm⟩
      exact ⟨() :: us, q, ⟨(), p', us, hr, hrest, rfl⟩, hw⟩

/-! ## The whole import -/

/-- What an attempt brings to the memory store's part, and to the registry's. -/
def memoryPass (env : ApplyEnv) (mint : Nat → NoteId) (d : Dump) (t : MemoryTables) :
    Except ApplyError (List (Option NoteId) × MemoryTables) :=
  pass (memoryStep env mint) 0 d.entities t

def registryPass (newId : Nat → Nat) (clock : Step → Int) (d : Dump) (r? : Option Registry) :
    Except ApplyError (List (Option Nat) × Option Registry) :=
  pass (registryStep newId clock) 0 d.entities r?

/-- No step of the two loops fails of its own. -/
def Attempt.Writes (a : Attempt) (d : Dump) : Prop :=
  (∀ i < d.entities.length, a.fails (.insert i) = false)
    ∧ ∀ j < d.relationships.length, a.fails (.relate j) = false

/-- An import writes everything exactly when each store takes its part. -/
theorem writeAll_iff {env : ApplyEnv} {a : Attempt} {d : Dump} {w w' : OpenWrites} :
    (∃ p, writeAll env a d w = .ok p ∧ p.writes = w')
      ↔ a.Writes d ∧ ∃ ids projects v,
        memoryPass env a.uuidV7At d w.memory = .ok (ids, v.memory)
          ∧ registryPass a.projectId a.registryClock d w.registry = .ok (projects, v.registry)
          ∧ (∃ us, pass usageStep 0 d.entities w.usage = .ok (us, v.usage))
          ∧ (∀ r ∈ d.relationships, Linkable ids projects r
            ∧ (r.kind = .dependsOn → v.registry.isSome))
          ∧ w' = relateAll a.memoryClock ids projects 0 d.relationships v := by
  constructor
  · rintro ⟨p, h, hw⟩
    obtain ⟨⟨landed, q⟩, hinsert, h⟩ := bind_eq_ok_iff.mp h
    obtain ⟨⟨us, p'⟩, hrelate, h⟩ := bind_eq_ok_iff.mp h
    obtain rfl := Except.ok.inj h
    obtain ⟨hno, hm, hr, hu⟩ := insertEntities_iff.mp ⟨landed, q, hinsert, rfl, rfl, rfl⟩
    obtain ⟨hno', hlinks, rfl⟩ := insertRelationships_iff.mp ⟨us, p', hrelate, hw⟩
    simp only [Nat.zero_add] at hno hno'
    exact ⟨⟨hno, hno'⟩, _, _, q.writes, hm, hr, hu, hlinks, rfl⟩
  · rintro ⟨⟨hno, hno'⟩, ids, projects, v, hm, hr, hu, hlinks, rfl⟩
    obtain ⟨landed, q, hinsert, rfl, rfl, rfl⟩ := (@insertEntities_iff env a d.entities 0
      ⟨w, ImportSummary.start d.mergedMemoryEntries, []⟩ v ids projects).mpr
        ⟨by simpa using hno, hm, hr, hu⟩
    obtain ⟨us, p, hrelate, hp⟩ := (@insertRelationships_iff env a landed d.relationships 0 q _).mpr
      ⟨by simpa using hno', hlinks, rfl⟩
    exact ⟨p, bind_eq_ok_iff.mpr ⟨_, hinsert, bind_eq_ok_iff.mpr ⟨_, hrelate, rfl⟩⟩, hp⟩

end PortableDump
end Inkentry
