/-
  Inkentry.Dump.Atomicity

  Whether an import that fails leaves nothing behind, and whether it can be tried
  again.

  `apply` commits three stores in an order chosen for the retry: the memory store
  and the registry pass over what they hold already (`memory_again`,
  `registry_again`), and the recorded commands, a plain insert, go last.  So an
  attempt that fails in a commit leaves what the next attempt expects
  (`Partial`), and whatever attempts went before it, one that succeeds ends where
  a single import of the original stores would have (`partial_run`).

  The count of entries without a vector is taken after the last commit, and an
  error there is an error of the import.  It is the one failure that is reported
  after everything has happened, recorded commands included.
-/

import Inkentry.Lib.Runs
import Inkentry.Dump.FreshStores
import Inkentry.Dump.ReaderOrder

namespace Inkentry
namespace PortableDump

open Memory Pass Runs

variable {env : ApplyEnv}

/-! ## What an attempt does -/

variable {d : Dump} {a : Attempt}
variable {usage : Option (List UsageRow)} {s : Stores} {p : Progress}

/-- The rows the dump's recorded commands become. -/
def usageRowOf : Entity → Option UsageRow
  | .commandUsage u => some ⟨u.command, u.calledAt⟩
  | _ => none

theorem usagePass_iff {entities : List Entity} {i : Nat} {u u' : Option (List UsageRow)} :
    (∃ us, pass usageStep i entities u = .ok (us, u'))
      ↔ (entities.any Entity.isCommandUsage → u.isSome)
        ∧ u' = u.map fun rows => rows ++ entities.filterMap usageRowOf := by
  induction entities generalizing i u with
  | nil =>
    have hnil : (u.map fun rows : List UsageRow => rows ++ [].filterMap usageRowOf) = u := by
      cases u <;> simp
    rw [hnil]
    simp [pass_nil_eq_ok_iff]
  | cons e rest ih =>
    have hcons : (∃ us, pass usageStep i (e :: rest) u = .ok (us, u'))
        ↔ ∃ t, usageStep i e u = .ok ((), t)
          ∧ ∃ us, pass usageStep (i + 1) rest t = .ok (us, u') := by
      simp only [pass_cons_eq_ok_iff]
      constructor
      · rintro ⟨us, b, t, us', he, hrest, -⟩
        exact ⟨t, he, us', hrest⟩
      · rintro ⟨t, he, us', hrest⟩
        exact ⟨_, (), t, us', he, hrest, rfl⟩
    rw [hcons]
    -- only a recorded command touches the table
    cases e with
    | memoryEntry m =>
      have hstep (t : Option (List UsageRow)) :
          usageStep i (.memoryEntry m) u = .ok ((), t) ↔ t = u := by
        cases u <;> simp [usageStep, pure, Except.pure, eq_comm]
      simp only [hstep, exists_eq_left, ih]
      exact Iff.rfl
    | project q =>
      have hstep (t : Option (List UsageRow)) :
          usageStep i (.project q) u = .ok ((), t) ↔ t = u := by
        cases u <;> simp [usageStep, pure, Except.pure, eq_comm]
      simp only [hstep, exists_eq_left, ih]
      exact Iff.rfl
    | commandUsage c =>
      cases u with
      | none => simp [usageStep, Entity.isCommandUsage]
      | some rows =>
        simp [usageStep, ih, usageRowOf, pure, Except.pure]

theorem preconditions_eq_ok_iff :
    preconditions a d s = .ok usage
      ↔ (d.needsRegistry → s.registry.isSome)
        ∧ (d.needsUsage → a.fails .openUsage = false ∧ ∃ rows, s.indexDb = .usage rows)
        ∧ usage = if d.needsUsage then
            (match s.indexDb with | .usage rows => some rows | _ => none) else none := by
  rw [preconditions]
  cases d.needsRegistry <;> cases s.registry <;> cases d.needsUsage <;> cases s.indexDb <;>
    cases hopen : a.fails .openUsage <;>
    simp [openUsageStore, Attempt.reach, hopen, bind, Except.bind, pure, Except.pure, eq_comm]

theorem begin_eq_ok_iff {w : OpenWrites} :
    OpenWrites.begin a s usage = .ok w
      ↔ a.fails .beginMemory = false ∧ (s.registry.isSome → a.fails .beginRegistry = false)
        ∧ (usage.isSome → a.fails .beginUsage = false) ∧ w = ⟨s.memory, s.registry, usage⟩ := by
  rw [OpenWrites.begin]
  cases hm : a.fails .beginMemory <;> cases hr : a.fails .beginRegistry <;>
    cases hu : a.fails .beginUsage <;> cases s.registry <;> cases usage <;>
    simp [Attempt.reach, hm, hr, hu, bind, Except.bind, pure, Except.pure, eq_comm]

/-- The steps before the count that an import of a dump takes, whatever the stores are. -/
def Dump.takes (d : Dump) : Step → Prop
  | .openUsage => d.needsUsage
  | .beginMemory => True
  | .beginRegistry => d.needsRegistry
  | .beginUsage => d.needsUsage
  | .insert i => i < d.entities.length
  | .relate j => j < d.relationships.length
  | .commitMemory => True
  | .commitRegistry => d.needsRegistry
  | .commitUsage => d.needsUsage
  | .count => False

/-- What the stores hold once everything is committed. -/
def committed (s : Stores) (w : OpenWrites) : Stores where
  memory := w.memory
  registry := w.registry
  indexDb := match w.usage with
    | some rows => .usage rows
    | none => s.indexDb

/-- The usage table an import opens. -/
def usageOf (d : Dump) (s : Stores) : Option (List UsageRow) :=
  if d.needsUsage then (match s.indexDb with | .usage rows => some rows | _ => none) else none

/-- Everything before the commits goes through when the stores the dump needs are there,
    no step fails, and both loops go through. -/
theorem write_eq_ok_iff :
    write env a d s = .ok p
      ↔ (d.needsRegistry → s.registry.isSome)
        ∧ (d.needsUsage → a.fails .openUsage = false ∧ a.fails .beginUsage = false
          ∧ ∃ rows, s.indexDb = .usage rows)
        ∧ a.fails .beginMemory = false ∧ (s.registry.isSome → a.fails .beginRegistry = false)
        ∧ writeAll env a d ⟨s.memory, s.registry, usageOf d s⟩ = .ok p := by
  -- the usage table is opened exactly when a command is to go in
  have hsome (hu : d.needsUsage = true) (hrows : ∃ rows, s.indexDb = .usage rows) :
      (usageOf d s).isSome := by
    obtain ⟨rows, hrows⟩ := hrows
    simp [usageOf, hu, hrows]
  constructor
  · intro h
    obtain ⟨usage, hpre, h⟩ := bind_eq_ok_iff.mp h
    obtain ⟨w, hbegin, h⟩ := bind_eq_ok_iff.mp h
    obtain ⟨hreg, husage, rfl⟩ := preconditions_eq_ok_iff.mp hpre
    obtain ⟨hm, hr, hu, rfl⟩ := begin_eq_ok_iff.mp hbegin
    refine ⟨hreg, fun hneeds => ?_, hm, hr, h⟩
    obtain ⟨hopen, hrows⟩ := husage hneeds
    exact ⟨hopen, hu (hsome hneeds hrows), hrows⟩
  · rintro ⟨hreg, husage, hm, hr, h⟩
    refine bind_eq_ok_iff.mpr ⟨usageOf d s, preconditions_eq_ok_iff.mpr ⟨hreg, ?_, rfl⟩,
      bind_eq_ok_iff.mpr ⟨_, begin_eq_ok_iff.mpr ⟨hm, hr, ?_, rfl⟩, h⟩⟩
    · exact fun hneeds => ⟨(husage hneeds).1, (husage hneeds).2.2⟩
    · intro hs
      refine (husage ?_).2.1
      rw [usageOf] at hs
      split at hs
      case isTrue hneeds => exact hneeds
      case isFalse => exact absurd hs (by simp)

theorem commit_eq {w : OpenWrites} {s : Stores} (hm : a.fails .commitMemory = false)
    (hr : s.registry.isSome → a.fails .commitRegistry = false)
    (hu : w.usage.isSome → a.fails .commitUsage = false) :
    w.commit a s = (committed s w, .ok ()) := by
  have hr' : (s.registry.isSome && a.fails .commitRegistry) = false := by simpa using hr
  cases hrows : w.usage with
  | none => simp [OpenWrites.commit, committed, hm, hr', hrows]
  | some rows =>
    rw [hrows] at hu
    simp [OpenWrites.commit, committed, hm, hr', hrows, hu rfl]

theorem apply_cases (env : ApplyEnv) (a : Attempt) (d : Dump) (s : Stores) :
    (∃ e, apply env a d s = (s, .error e))
      ∨ ∃ p, write env a d s = .ok p ∧ a.fails .commitMemory = false
        ∧ ((s.registry.isSome ∧ a.fails .commitRegistry = true ∧ apply env a d s
              = ({ s with memory := p.writes.memory }, .error (.failed .commitRegistry)))
          ∨ (p.writes.usage.isSome ∧ a.fails .commitUsage = true ∧ apply env a d s
              = ({ s with memory := p.writes.memory, registry := p.writes.registry },
                .error (.failed .commitUsage)))
          ∨ (s.registry.isSome → a.fails .commitRegistry = false)
            ∧ (p.writes.usage.isSome → a.fails .commitUsage = false)
            ∧ ((a.fails .count = true
                ∧ apply env a d s = (committed s p.writes, .error (.failed .count)))
              ∨ a.fails .count = false ∧ ∃ o, apply env a d s = (committed s p.writes, .ok o))) := by
  rw [apply]
  cases hw : write env a d s with
  | error e => exact .inl ⟨e, rfl⟩
  | ok p =>
    cases hm : a.fails .commitMemory with
    | true => exact .inl ⟨.failed .commitMemory, by simp [OpenWrites.commit, hm]⟩
    | false =>
      refine .inr ⟨p, rfl, rfl, ?_⟩
      -- the stores commit one after the other; what is committed stays
      by_cases hr : s.registry.isSome ∧ a.fails .commitRegistry = true
      · exact .inl ⟨hr.1, hr.2, by simp [OpenWrites.commit, hm, hr.1, hr.2]⟩
      · have hr' : (s.registry.isSome && a.fails .commitRegistry) = false := by simpa using hr
        have hreg : s.registry.isSome → a.fails .commitRegistry = false := by simpa using hr
        by_cases hu : p.writes.usage.isSome ∧ a.fails .commitUsage = true
        · obtain ⟨rows, hrows⟩ := Option.isSome_iff_exists.mp hu.1
          exact .inr (.inl ⟨hu.1, hu.2, by simp [OpenWrites.commit, hm, hr', hrows, hu.2]⟩)
        · have husage : p.writes.usage.isSome → a.fails .commitUsage = false := by simpa using hu
          have hcommit := commit_eq hm hreg husage
          refine .inr (.inr ⟨hreg, husage, ?_⟩)
          cases hc : a.fails .count with
          | true => exact .inl ⟨rfl, by simp [hcommit, hc]⟩
          | false => exact .inr ⟨rfl, _, by simp [hcommit, hc]; rfl⟩

/-- An import on which nothing fails commits everything it wrote. -/
theorem apply_of_clean (hclean : ∀ i, a.fails i = false)
    (hw : write env a d s = .ok p) : ∃ o, apply env a d s = (committed s p.writes, .ok o) := by
  have hcommit := @commit_eq a p.writes s (hclean _) (fun _ => hclean _) (fun _ => hclean _)
  simp only [apply, hw, hcommit, hclean]
  exact ⟨_, rfl⟩

/-! ## The property -/

/-- The stores after an attempt. -/
def step (env : ApplyEnv) (d : Dump) (s : Stores) (a : Attempt) : Stores := (apply env a d s).1

/-- The attempt ends in an error. -/
def Fails (env : ApplyEnv) (d : Dump) (s : Stores) (a : Attempt) : Prop :=
  ∃ e, (apply env a d s).2 = .error e

/-- An attempt that ends in an error leaves the recorded commands as they were, and the
    memory store and the registry too, unless a later commit failed after an earlier one
    had succeeded. -/
def AllOrNothing (env : ApplyEnv) (d : Dump) (s : Stores) (a : Attempt) : Prop :=
  ∀ e, (apply env a d s).2 = .error e →
    (step env d s a).indexDb = s.indexDb
      ∧ (e ≠ .failed .commitRegistry ∧ e ≠ .failed .commitUsage →
        (step env d s a).memory = s.memory ∧ (step env d s a).registry = s.registry)

/-- After any failed attempts, one that succeeds leaves the stores as a single attempt
    would have on which nothing failed. -/
def SafeToRetry (env : ApplyEnv) (d : Dump) (s : Stores) (failed : List Attempt) (last : Attempt) :
    Prop :=
  EachStep (step env d) (Fails env d) s failed →
    ∀ s' o, apply env last d (run (step env d) s failed) = (s', .ok o) →
      ∃ once o', (∀ i, once.fails i = false) ∧ apply env once d s = (s', .ok o')

/-! ## A store that has its part -/

variable {ids : List (Option NoteId)} {r? r?' : Option Registry}

/-- `t'` is `t` with the dump's part in it; the entries landed on `ids`. -/
def MemoryDone (env : ApplyEnv) (d : Dump) (t t' : MemoryTables) (ids : List (Option NoteId)) :
    Prop :=
  ∃ mint clock t₁, memoryPass env mint d t = .ok (ids, t₁)
    ∧ t' = memoryLinks clock ids 0 d.relationships t₁

def RegistryDone (d : Dump) (r? r?' : Option Registry) (ids : List (Option Nat)) : Prop :=
  ∃ newId clock r?₁, registryPass newId clock d r? = .ok (ids, r?₁)
    ∧ r?' = r?₁.map (registryLinks ids d.relationships)

/-- Doing a store's part again, after it may have been done already, is doing it. -/
theorem MemoryDone.redo {t t' t'' : MemoryTables} (h : t' = t ∨ ∃ ids, MemoryDone env d t t' ids)
    (h' : MemoryDone env d t' t'' ids) : MemoryDone env d t t'' ids := by
  rcases h with rfl | ⟨ids₀, mint, clock, t₁, hpass, rfl⟩
  · exact h'
  · obtain ⟨mint', clock', t₂, hpass', rfl⟩ := h'
    obtain ⟨rfl, hsame⟩ := @memory_again _ _ _ _ _ _ _ _ _ clock clock' hpass hpass'
    exact ⟨mint, clock, t₁, hpass, hsame⟩

theorem RegistryDone.redo {r? r?' r?'' : Option Registry} {ids : List (Option Nat)}
    (h : r?' = r? ∨ ∃ ids, RegistryDone d r? r?' ids) (h' : RegistryDone d r?' r?'' ids) :
    RegistryDone d r? r?'' ids := by
  rcases h with rfl | ⟨ids₀, newId, clock, r?₁, hpass, rfl⟩
  · exact h'
  · obtain ⟨newId', clock', r?₂, hpass', rfl⟩ := h'
    obtain ⟨rfl, hsame⟩ := registry_again hpass hpass'
    exact ⟨newId, clock, r?₁, hpass, hsame⟩

theorem RegistryDone.isSome {ids : List (Option Nat)}
    (h : RegistryDone d r? r?' ids) : r?'.isSome = r?.isSome := by
  obtain ⟨newId, clock, r?₁, hpass, rfl⟩ := h
  rw [Option.isSome_map]
  refine pass_inv (fun i e u id? u' _ hstep hu => ?_) hpass rfl (P := fun u => u.isSome = r?.isSome)
  rcases registryStep_eq_ok hstep with ⟨q, r, r', id, -, rfl, rfl, -, -⟩ | ⟨-, -, rfl⟩
  · exact hu
  · exact hu

theorem relateAll_eq (clock : Step → Int) (ids : List (Option NoteId))
    (projects : List (Option Nat)) (j : Nat) (l : List ResolvedRelationship) (w : OpenWrites) :
    relateAll clock ids projects j l w
      = ⟨memoryLinks clock ids j l w.memory, w.registry.map (registryLinks projects l), w.usage⟩ := by
  induction l generalizing j w with
  | nil =>
    have hid : registryLinks projects [] = id := rfl
    rw [hid, Option.map_id]
    rfl
  | cons r l ih =>
    rw [relateAll, ih, relate, Option.map_map]
    rfl

/-- When the two loops go through every store has taken its part. -/
theorem writeAll_done {w : OpenWrites} (h : writeAll env a d w = .ok p) :
    a.Writes d ∧ ∃ ids projects, MemoryDone env d w.memory p.writes.memory ids
      ∧ RegistryDone d w.registry p.writes.registry projects
      ∧ (d.needsUsage → w.usage.isSome)
      ∧ p.writes.usage = w.usage.map (fun rows => rows ++ d.entities.filterMap usageRowOf)
      ∧ ∀ r ∈ d.relationships, Linkable ids projects r
        ∧ (r.kind = .dependsOn → w.registry.isSome) := by
  obtain ⟨hwrites, ids, projects, v, hm, hr, hu, hlinks, hp⟩ := writeAll_iff.mp ⟨p, h, rfl⟩
  rw [hp, relateAll_eq]
  have hregistry : RegistryDone d w.registry (v.registry.map (registryLinks projects
      d.relationships)) projects := ⟨_, _, _, hr, rfl⟩
  refine ⟨hwrites, ids, projects, ⟨_, _, _, hm, rfl⟩, hregistry, (usagePass_iff.mp hu).1,
    (usagePass_iff.mp hu).2, fun r hr => ⟨(hlinks r hr).1, fun hk => ?_⟩⟩
  rw [← hregistry.isSome, Option.isSome_map]
  exact (hlinks r hr).2 hk

/-- Parts that can be done, each by some attempt, can be done by one attempt. -/
theorem exists_writeAll {w w' : OpenWrites} {ids : List (Option NoteId)}
    {projects : List (Option Nat)} (hm : MemoryDone env d w.memory w'.memory ids)
    (hr : RegistryDone d w.registry w'.registry projects) (hneeds : d.needsUsage → w.usage.isSome)
    (hu : w'.usage = w.usage.map (fun rows => rows ++ d.entities.filterMap usageRowOf))
    (hlinks : ∀ r ∈ d.relationships, Linkable ids projects r ∧ (r.kind = .dependsOn → w.registry.isSome))
    : ∃ once p, (∀ i, once.fails i = false) ∧ writeAll env once d w = .ok p ∧ p.writes = w' := by
  have hsome := hr.isSome
  obtain ⟨mint, memoryClock, t, hpass, hm'⟩ := hm
  obtain ⟨newId, registryClock, r?, hpass', hr'⟩ := hr
  have hw' : w' = relateAll memoryClock ids projects 0 d.relationships ⟨t, r?, w'.usage⟩ := by
    rw [relateAll_eq]
    exact OpenWrites.ext hm' hr' rfl
  have hlinks' : ∀ r ∈ d.relationships, Linkable ids projects r
      ∧ (r.kind = .dependsOn → r?.isSome) := by
    intro r hr
    refine ⟨(hlinks r hr).1, fun hk => ?_⟩
    rw [hr', Option.isSome_map] at hsome
    rw [hsome]
    exact (hlinks r hr).2 hk
  obtain ⟨p, h, hp⟩ := (@writeAll_iff env
    ⟨fun _ => false, mint, newId, memoryClock, registryClock⟩ d w w').mpr
      ⟨⟨fun _ _ => rfl, fun _ _ => rfl⟩, ids, projects, ⟨t, r?, w'.usage⟩, hpass, hpass',
        usagePass_iff.mpr ⟨hneeds, hu⟩, hlinks', hw'⟩
  exact ⟨_, p, fun _ => rfl, h, hp⟩

/-! ## Failed attempts -/

/-- What failed attempts can leave of some stores: the dump's part in the memory store,
    and then in the registry, but no recorded command. -/
structure Partial (env : ApplyEnv) (d : Dump) (s s' : Stores) : Prop where
  memory : s'.memory = s.memory ∨ ∃ ids, MemoryDone env d s.memory s'.memory ids
  registry : s'.registry = s.registry ∨ ∃ ids, RegistryDone d s.registry s'.registry ids
  indexDb : s'.indexDb = s.indexDb

theorem Partial.refl (d : Dump) (s : Stores) : Partial env d s s := ⟨.inl rfl, .inl rfl, rfl⟩

theorem Partial.isSome {s s' : Stores} (h : Partial env d s s') :
    s'.registry.isSome = s.registry.isSome := by
  rcases h.registry with hr | ⟨ids, hr⟩
  · rw [hr]
  · exact hr.isSome

def Entity.project? : Entity → Option Project
  | .project q => some q
  | _ => none

/-- A count that fails after the commits is harmless when an import of the dump never gets
    to it, because a step before it fails or no store takes the dump, or when there is
    nothing to import. -/
def CountSafe (env : ApplyEnv) (d : Dump) (fails : Step → Bool) : Prop :=
  fails .count = true →
    (∃ i, d.takes i ∧ fails i = true) ∨ d.entities = []
      ∨ (∃ m, .memoryEntry m ∈ d.entities ∧ ∃ path ∈ m.linkedFiles, env.refuses path = true)
      ∨ ∃ r ∈ d.relationships,
          ¬ Linkable (d.entities.map Entity.memory?) (d.entities.map Entity.project?) r

/-- The entries land in the memory store, and their files are in the project. -/
theorem MemoryDone.landed {t t' : MemoryTables} (h : MemoryDone env d t t' ids) :
    List.Forall₂ (fun e id? => id?.isSome = e.memory?.isSome
      ∧ ∀ m, e = .memoryEntry m → ∀ path ∈ m.linkedFiles, env.refuses path = false)
      d.entities ids := by
  obtain ⟨mint, clock, t₁, hpass, rfl⟩ := h
  refine forall₂_of_steps (fun i e u id? u' _ hstep => ?_) hpass
  cases e with
  | memoryEntry m =>
    obtain ⟨⟨id, created, store⟩, himport, h⟩ := bind_eq_ok_iff.mp hstep
    obtain ⟨rfl, rfl⟩ := Prod.mk.inj (Except.ok.inj h)
    obtain ⟨-, -, hfind, -⟩ := importEntry_eq_ok himport
    refine ⟨rfl, fun m' hm => ?_⟩
    obtain rfl := Entity.memoryEntry.inj hm
    simpa using hfind
  | project =>
    obtain ⟨rfl, -⟩ := Prod.mk.inj (Except.ok.inj hstep)
    exact ⟨rfl, fun m hm => absurd hm (by simp)⟩
  | commandUsage =>
    obtain ⟨rfl, -⟩ := Prod.mk.inj (Except.ok.inj hstep)
    exact ⟨rfl, fun m hm => absurd hm (by simp)⟩

theorem RegistryDone.landed {ids : List (Option Nat)} (h : RegistryDone d r? r?' ids) :
    List.Forall₂ (fun e id? => id?.isSome = e.project?.isSome) d.entities ids := by
  obtain ⟨newId, clock, r?₁, hpass, rfl⟩ := h
  refine forall₂_of_steps (fun i e u id? u' _ hstep => ?_) hpass
  rcases registryStep_eq_ok hstep with ⟨q, r, r', id, rfl, rfl, rfl, rfl, -⟩ | ⟨he, rfl, rfl⟩
  · rfl
  · cases e with
    | project q => exact absurd rfl (he q)
    | memoryEntry => rfl
    | commandUsage => rfl

theorem ends_isSome_congr {β γ : Type*} {ids : List (Option β)} {ids' : List (Option γ)}
    (h : ids.map Option.isSome = ids'.map Option.isSome) (r : ResolvedRelationship) :
    (ends ids r).isSome = (ends ids' r).isSome := by
  have hjoin (k : Nat) : (ids[k]?).join.isSome = (ids'[k]?).join.isSome := by
    have hk : (ids.map Option.isSome)[k]? = (ids'.map Option.isSome)[k]? := by rw [h]
    rw [List.getElem?_map, List.getElem?_map] at hk
    cases hx : ids[k]? <;> cases hy : ids'[k]? <;> simp_all
  have hs := hjoin r.source
  have ht := hjoin r.target
  rw [ends, ends]
  cases hx : (ids[r.source]?).join <;> cases hy : (ids'[r.source]?).join <;>
    cases hx' : (ids[r.target]?).join <;> cases hy' : (ids'[r.target]?).join <;> simp_all

/-- Whether a relationship links what it may depends on the kinds of the entities only. -/
theorem linkable_iff {projects : List (Option Nat)}
    (hm : List.Forall₂ (fun e id? => id?.isSome = e.memory?.isSome) d.entities ids)
    (hr : List.Forall₂ (fun e id? => id?.isSome = e.project?.isSome) d.entities projects)
    (r : ResolvedRelationship) :
    Linkable ids projects r
      ↔ Linkable (d.entities.map Entity.memory?) (d.entities.map Entity.project?) r := by
  have hpattern {β γ : Type} {f : Entity → Option β} {l : List Entity} {ids : List (Option γ)}
      (h : List.Forall₂ (fun e id? => id?.isSome = (f e).isSome) l ids) :
      ids.map Option.isSome = (l.map f).map Option.isSome := by
    induction h with
    | nil => rfl
    | cons hx _ ih => rw [List.map_cons, List.map_cons, List.map_cons, hx, ih]
  rw [Linkable, Linkable, ends_isSome_congr (hpattern hm), ends_isSome_congr (hpattern hr)]

/-- What a failing count reports as an error is an import that changed nothing, when it is
    safe. -/
theorem committed_of_countSafe (hsafe : CountSafe env d a.fails) (hcount : a.fails .count = true)
    (hw : write env a d s = .ok p) (hcm : a.fails .commitMemory = false)
    (hcr : s.registry.isSome → a.fails .commitRegistry = false)
    (hcu : p.writes.usage.isSome → a.fails .commitUsage = false) : committed s p.writes = s := by
  obtain ⟨hreg, husage, hbm, hbr, hall⟩ := write_eq_ok_iff.mp hw
  obtain ⟨⟨hinsert, hrelate⟩, ids, projects, hm, hr, hneeds, hu, hlinks⟩ := writeAll_done hall
  have hlink (r : ResolvedRelationship) (hrel : r ∈ d.relationships) :
      Linkable (d.entities.map Entity.memory?) (d.entities.map Entity.project?) r :=
    (linkable_iff (hm.landed.imp fun _ _ h => h.1) hr.landed r).mp (hlinks r hrel).1
  rcases hsafe hcount with ⟨i, htakes, hi⟩ | hempty | ⟨m, hmem, path, hpath, hrefused⟩
    | ⟨r, hrel, hnot⟩
  · have husome (h : d.needsUsage = true) : p.writes.usage.isSome := by
      rw [hu, Option.isSome_map]
      exact hneeds h
    have hnot : a.fails i = false := by
      cases i with
      | openUsage => exact (husage htakes).1
      | beginMemory => exact hbm
      | beginRegistry => exact hbr (hreg htakes)
      | beginUsage => exact (husage htakes).2.1
      | insert i => exact hinsert i htakes
      | relate j => exact hrelate j htakes
      | commitMemory => exact hcm
      | commitRegistry => exact hcr (hreg htakes)
      | commitUsage => exact hcu (husome htakes)
      | count => exact htakes.elim
    rw [hi] at hnot
    exact absurd hnot (by simp)
  · -- without entities there is nothing for a relationship to link
    have hnorel : d.relationships = [] := by
      refine List.eq_nil_iff_forall_not_mem.mpr fun r hrel => ?_
      have h := hlink r hrel
      simp [hempty, Linkable, ends] at h
    obtain ⟨mint, clock, t₁, hpass, hm'⟩ := hm
    obtain ⟨newId, clock', r?₁, hpass', hr'⟩ := hr
    rw [memoryPass, hempty] at hpass
    rw [registryPass, hempty] at hpass'
    obtain ⟨-, rfl⟩ := pass_nil_eq_ok_iff.mp hpass
    obtain ⟨-, rfl⟩ := pass_nil_eq_ok_iff.mp hpass'
    have hnone : usageOf d s = none := by simp [usageOf, Dump.needsUsage, hempty]
    have hid : registryLinks projects [] = id := rfl
    rw [hnorel, hid, Option.map_id] at hr'
    rw [hnorel] at hm'
    rw [hnone] at hu
    rw [committed, hm', hr', hu]
    rfl
  · obtain ⟨id?, -, -, hfiles⟩ := exists_of_forall₂ hm.landed hmem
    rw [hfiles m rfl path hpath] at hrefused
    exact absurd hrefused (by simp)
  · exact absurd (hlink r hrel) hnot

/-! ## Runs -/

variable {o : ImportOutcome} {failed : List Attempt}

/-- What failed attempts have left, another failed attempt leaves something of the kind;
    and it is all or nothing. -/
theorem Partial.step {s₀ s : Stores} (h : Partial env d s₀ s) (hsafe : CountSafe env d a.fails)
    (hfails : Fails env d s a) : Partial env d s₀ (step env d s a) := by
  obtain ⟨e, he⟩ := hfails
  rw [PortableDump.step]
  have hparts {p : Progress} (hw : write env a d s = .ok p) :
      (∃ ids, MemoryDone env d s₀.memory p.writes.memory ids)
        ∧ ∃ ids, RegistryDone d s₀.registry p.writes.registry ids := by
    obtain ⟨-, -, -, -, hall⟩ := write_eq_ok_iff.mp hw
    obtain ⟨-, ids, projects, hm, hr, -⟩ := writeAll_done hall
    exact ⟨⟨ids, hm.redo h.memory⟩, projects, hr.redo h.registry⟩
  rcases apply_cases env a d s with ⟨e', happly⟩ | ⟨p, hw, hcm, hcase⟩
  · rw [happly]
    exact h
  · obtain ⟨hmemory, hregistry⟩ := hparts hw
    rcases hcase with ⟨-, -, happly⟩ | ⟨-, -, happly⟩ | ⟨hcr, hcu, ⟨hcount, happly⟩ | ⟨-, o, happly⟩⟩
    · rw [happly]
      exact ⟨.inr hmemory, h.registry, h.indexDb⟩
    · rw [happly]
      exact ⟨.inr hmemory, .inr hregistry, h.indexDb⟩
    · rw [happly, committed_of_countSafe hsafe hcount hw hcm hcr hcu]
      exact h
    · rw [happly] at he
      exact absurd he (by simp)

theorem allOrNothing_of_countSafe (hsafe : CountSafe env d a.fails)
    (s : Stores) : AllOrNothing env d s a := by
  intro e he
  rw [PortableDump.step]
  rcases apply_cases env a d s with ⟨e', happly⟩ | ⟨p, hw, hcm, hcase⟩
  · rw [happly]
    exact ⟨rfl, fun _ => ⟨rfl, rfl⟩⟩
  · rcases hcase with ⟨-, -, happly⟩ | ⟨-, -, happly⟩ | ⟨hcr, hcu, ⟨hcount, happly⟩ | ⟨-, o, happly⟩⟩
    · rw [happly] at he ⊢
      obtain rfl := Except.error.inj he
      exact ⟨rfl, fun h => absurd rfl h.1⟩
    · rw [happly] at he ⊢
      obtain rfl := Except.error.inj he
      exact ⟨rfl, fun h => absurd rfl h.2⟩
    · rw [happly, committed_of_countSafe hsafe hcount hw hcm hcr hcu]
      exact ⟨rfl, fun _ => ⟨rfl, rfl⟩⟩
    · rw [happly] at he
      exact absurd he (by simp)

theorem write_of_apply {s s' : Stores} (happly : apply env a d s = (s', .ok o)) :
    ∃ p, write env a d s = .ok p ∧ committed s p.writes = s' := by
  have hne {t : Stores} {e : ApplyError} (he : apply env a d s = (t, .error e)) : False := by
    rw [happly] at he
    exact absurd he (by simp)
  rcases apply_cases env a d s with ⟨e', he⟩ | ⟨p, hw, -, hcase⟩
  · exact (hne he).elim
  · rcases hcase with ⟨-, -, he⟩ | ⟨-, -, he⟩ | ⟨-, -, ⟨-, he⟩ | ⟨-, o', he⟩⟩
    · exact (hne he).elim
    · exact (hne he).elim
    · exact (hne he).elim
    · rw [happly] at he
      exact ⟨p, hw, (Prod.mk.inj he).1.symm⟩

/-- An attempt that succeeds on what failed attempts have left of some stores ends where a
    single attempt on those stores ends. -/
theorem Partial.once {s₀ s s' : Stores} (h : Partial env d s₀ s)
    (happly : apply env a d s = (s', .ok o)) :
    ∃ once o', (∀ i, once.fails i = false) ∧ apply env once d s₀ = (s', .ok o') := by
  obtain ⟨p, hw, rfl⟩ := write_of_apply happly
  obtain ⟨hreg, husage, -, -, hall⟩ := write_eq_ok_iff.mp hw
  obtain ⟨-, ids, projects, hm, hr, hneeds, hu, hlinks⟩ := writeAll_done hall
  have hsameUsage : usageOf d s = usageOf d s₀ := by rw [usageOf, usageOf, h.indexDb]
  -- each store's part, done over from the stores as they were, by one attempt
  obtain ⟨once, p', hclean, hall', hp'⟩ := @exists_writeAll env d
    ⟨s₀.memory, s₀.registry, usageOf d s₀⟩ p.writes ids projects (hm.redo h.memory)
    (hr.redo h.registry) (hsameUsage ▸ hneeds) (hsameUsage ▸ hu)
    (fun r hrel => ⟨(hlinks r hrel).1, fun hk => h.isSome ▸ (hlinks r hrel).2 hk⟩)
  have hwrite : write env once d s₀ = .ok p' := by
    refine write_eq_ok_iff.mpr ⟨fun hn => h.isSome ▸ hreg hn, fun hn => ?_, hclean _,
      fun _ => hclean _, hall'⟩
    obtain ⟨rows, hrows⟩ := (husage hn).2.2
    exact ⟨hclean _, hclean _, rows, h.indexDb ▸ hrows⟩
  obtain ⟨o'', hdone⟩ := apply_of_clean hclean hwrite
  have hsame : committed s₀ p'.writes = committed s p.writes := by
    rw [committed, committed, hp', h.indexDb]
  exact ⟨once, o'', hclean, hsame ▸ hdone⟩

/-- One import that succeeds adds each recorded command of the dump once. -/
theorem indexDb_of_apply {s s' : Stores} {rows : List UsageRow}
    (happly : apply env a d s = (s', .ok o)) (hrows : s.indexDb = .usage rows) :
    s'.indexDb = .usage (rows ++ d.entities.filterMap usageRowOf) := by
  obtain ⟨p, hw, hs'⟩ := write_of_apply happly
  obtain ⟨-, -, -, -, hall⟩ := write_eq_ok_iff.mp hw
  obtain ⟨-, ids, projects, -, -, -, hu, -⟩ := writeAll_done hall
  rw [← hs', committed, hu, usageOf, hrows]
  by_cases hn : d.needsUsage = true
  · rw [if_pos hn]
    rfl
  · have hnil : d.entities.filterMap usageRowOf = [] := by
      refine List.filterMap_eq_nil_iff.mpr fun e he => ?_
      cases e with
      | commandUsage u => exact absurd (List.any_eq_true.mpr ⟨_, he, rfl⟩) hn
      | memoryEntry => rfl
      | project => rfl
    rw [if_neg hn, hnil, List.append_nil]
    rfl

/-- Over any failed attempts on which the count is safe, the stores stay partly imported
    at most. -/
theorem partial_run {s₀ s : Stores} (hsafe : ∀ a ∈ failed, CountSafe env d a.fails)
    (hs : Partial env d s₀ s) (hfailed : EachStep (step env d) (Fails env d) s failed) :
    Partial env d s₀ (run (step env d) s failed) := by
  induction failed generalizing s with
  | nil => exact hs
  | cons a rest ih =>
    exact ih (fun b hb => hsafe b (List.mem_cons_of_mem _ hb))
      (hs.step (hsafe a List.mem_cons_self) hfailed.1) hfailed.2

theorem safeToRetry_of_countSafe (hsafe : ∀ a ∈ failed, CountSafe env d a.fails) (s : Stores)
    (last : Attempt) : SafeToRetry env d s failed last :=
  fun hfailed _ _ happly => (partial_run hsafe (Partial.refl d s) hfailed).once happly

/-! ## A count that fails -/

/-- Stores that hold nothing, as far as a dump needs them. -/
def freshStores (d : Dump) : Stores :=
  ⟨MemoryTables.empty, if d.needsRegistry then some Registry.empty else none, .usage []⟩

/-- On them an import of an accepted dump gets to the count, and has written something by
    then, unless the count is safe. -/
theorem not_allOrNothing_of_not_countSafe {text : String} {fails : Step → Bool}
    (hread : read env.toReaderEnv text = .ok d) (hrisky : ¬ CountSafe env d fails) :
    ∃ a, a.fails = fails ∧ ¬ AllOrNothing env d (freshStores d) a := by
  simp only [CountSafe, Classical.not_imp, not_or, not_exists, not_and, Bool.not_eq_true,
    not_not] at hrisky
  obtain ⟨hcount, htaken, hne, hfiles, hlinks⟩ := hrisky
  let a : Attempt := ⟨fails, freshUuid d.entities, id, fun _ => 0, fun _ => 0⟩
  refine ⟨a, rfl, fun hall => ?_⟩
  obtain ⟨ids, t, hmpass⟩ := exists_memoryPass (accepted_apart hread) hfiles
  obtain ⟨projects, r?, hrpass⟩ := exists_registryPass (fun _ => 0) d
  have hm : MemoryDone env d MemoryTables.empty (memoryLinks (fun _ => 0) ids 0 d.relationships t)
      ids := ⟨_, _, _, hmpass, rfl⟩
  have hr : RegistryDone d (freshStores d).registry
      (r?.map (registryLinks projects d.relationships)) projects := ⟨_, _, _, hrpass, rfl⟩
  have hisSome : r?.isSome = d.needsRegistry := by
    have h := hr.isSome
    rw [Option.isSome_map] at h
    rw [h, freshStores]
    cases d.needsRegistry <;> rfl
  have hneeds (hn : d.needsUsage = true) : (usageOf d (freshStores d)).isSome := by
    rw [usageOf, if_pos hn]
    rfl
  -- a dependency is between projects, so a dump that has one needs the registry
  have hdep : ∀ r ∈ d.relationships, r.kind = .dependsOn → d.needsRegistry = true := by
    intro r hrel hk
    have hl := hlinks r hrel
    rw [Linkable, if_pos hk, ends] at hl
    rw [List.getElem?_map] at hl
    cases he : d.entities[r.source]? with
    | none => simp [he] at hl
    | some e =>
      refine List.any_eq_true.mpr ⟨e, List.mem_of_getElem? he, ?_⟩
      cases e <;> simp_all [Entity.project?, Entity.isProject]
  obtain ⟨p, hwrites, hp⟩ := (@writeAll_iff env a d
    ⟨(freshStores d).memory, (freshStores d).registry, usageOf d (freshStores d)⟩ _).mpr
      ⟨⟨fun i hi => htaken (.insert i) hi, fun j hj => htaken (.relate j) hj⟩, ids, projects,
        ⟨t, r?, (usageOf d (freshStores d)).map fun rows => rows ++ d.entities.filterMap usageRowOf⟩,
        hmpass, hrpass, usagePass_iff.mpr ⟨hneeds, rfl⟩,
        fun r hrel => ⟨(linkable_iff (hm.landed.imp fun _ _ h => h.1) hr.landed r).mpr
          (hlinks r hrel), fun hk => hisSome.trans (hdep r hrel hk)⟩, rfl⟩
  rw [relateAll_eq] at hp
  have hregistry (h : (freshStores d).registry.isSome) : d.needsRegistry = true := by
    rw [← hisSome, ← Option.isSome_map, hr.isSome]
    exact h
  have hreg (hn : d.needsRegistry = true) : (freshStores d).registry.isSome := by
    rw [freshStores, if_pos hn]
    rfl
  have husage (h : p.writes.usage.isSome) : d.needsUsage = true := by
    rw [hp, Option.isSome_map, usageOf] at h
    by_contra hn
    rw [if_neg hn] at h
    exact absurd h (by simp)
  have hwrite : write env a d (freshStores d) = .ok p :=
    write_eq_ok_iff.mpr ⟨hreg, fun hn => ⟨htaken .openUsage hn, htaken .beginUsage hn, [], rfl⟩,
      htaken .beginMemory trivial, fun h => htaken .beginRegistry (hregistry h), hwrites⟩
  have hcommit := @commit_eq a p.writes (freshStores d) (htaken .commitMemory trivial)
    (fun h => htaken .commitRegistry (hregistry h)) (fun h => htaken .commitUsage (husage h))
  have happly : apply env a d (freshStores d)
      = (committed (freshStores d) p.writes, .error (.failed .count)) := by
    have hc : a.fails .count = true := hcount
    simp only [apply, hwrite, hcommit, hc, if_true]
  obtain ⟨hindex, hrest⟩ := hall _ (congrArg Prod.snd happly)
  obtain ⟨hmemory, hregistry'⟩ := hrest ⟨by simp, by simp⟩
  rw [step, happly] at hindex hmemory hregistry'
  -- the first entity has left something in its store
  obtain ⟨e, he⟩ := List.exists_mem_of_ne_nil _ hne
  cases e with
  | memoryEntry m =>
    obtain ⟨id?, -, row, hrow, -⟩ := exists_of_forall₂ (memory_settled (fun _ => 0) hmpass) he
    have hsame : p.writes.memory = MemoryTables.empty := hmemory
    rw [hp] at hsame
    rw [show memoryLinks _ ids 0 d.relationships t = MemoryTables.empty from hsame] at hrow
    exact absurd hrow (by simp [MemoryTables.empty, Store.empty])
  | project q =>
    obtain ⟨id?, -, r, hr', p', hp', -⟩ := exists_of_forall₂ (registry_settled hrpass) he
    have hsame : p.writes.registry = (freshStores d).registry := hregistry'
    rw [hp] at hsame
    rw [show r?.map _ = (freshStores d).registry from hsame, freshStores] at hr'
    split at hr'
    · obtain rfl := Option.some.inj hr'
      exact absurd hp' (by simp [Registry.empty])
    · exact absurd hr' (by simp)
  | commandUsage u =>
    have hn : d.needsUsage = true := List.any_eq_true.mpr ⟨_, he, rfl⟩
    have hrows : p.writes.usage = some ([] ++ d.entities.filterMap usageRowOf) := by
      rw [hp, usageOf, if_pos hn]
      rfl
    rw [committed, hrows] at hindex
    have hnil : d.entities.filterMap usageRowOf = [] := IndexDb.usage.inj hindex
    have hrow : ⟨u.command, u.calledAt⟩ ∈ d.entities.filterMap usageRowOf :=
      List.mem_filterMap.mpr ⟨_, he, rfl⟩
    rw [hnil] at hrow
    exact absurd hrow (by simp)

/-! ## The claim -/

/-- Whatever can go wrong, an import of an accepted dump is all or nothing and safe to
    retry exactly when the count taken after the commits is safe. -/
theorem safe_iff {text : String} {d : Dump} (hread : read env.toReaderEnv text = .ok d)
    (faults : Set (Step → Bool)) :
    (∀ (s : Stores) (attempts : List Attempt), (∀ a ∈ attempts, a.fails ∈ faults) →
        EachStep (step env d) (AllOrNothing env d) s attempts
          ∧ ∀ last, SafeToRetry env d s attempts last)
      ↔ ∀ fails ∈ faults, CountSafe env d fails := by
  constructor
  · intro h fails hfails
    by_contra hrisky
    obtain ⟨a, rfl, hnot⟩ := not_allOrNothing_of_not_countSafe hread hrisky
    exact hnot (h (freshStores d) [a] (by simpa using hfails)).1.1
  · intro hsafe s attempts hattempts
    refine ⟨?_, safeToRetry_of_countSafe (fun a ha => hsafe _ (hattempts a ha)) s⟩
    induction attempts generalizing s with
    | nil => trivial
    | cons a rest ih =>
      exact ⟨allOrNothing_of_countSafe (hsafe _ (hattempts a List.mem_cons_self)) s,
        ih (step env d s a) fun b hb => hattempts b (List.mem_cons_of_mem _ hb)⟩

/-! ## A dump with one recorded command -/

def usageLine : String :=
  "\x7b\"record\":\"entity\",\"type\":\"command_usage\",\"ref\":\"u0\","
    ++ "\"command\":\"search\",\"at\":1786200700\x7d"

/-- The digests of the two lines, and of the digests. -/
def headerDigest : String := "7709be2e87cbf3b32d68bd7b9cbcca7a66fa09f9a44098cf42cafca0a3b470dc"

def usageDigest : String := "0664621c723c3e226e6dd786f35ac2c5ea7ee69089b4e47a09fb61d94b51a26c"

def usageDumpDigest : String := "99393878eee2bc3d08e0678d35e77fb2487be08fa1477dacbd2ff928190f8751"

def usageFooter : String :=
  "\x7b\"record\":\"footer\",\"counts\":\x7b\"entity\":\x7b\"command_usage\":1\x7d,"
    ++ "\"relationship\":\x7b\x7d\x7d,\"digest\":\"sha256:" ++ usageDumpDigest ++ "\"\x7d"

def usageText : String := unlines [headerLine, usageLine, usageFooter]

def usageDump : Dump := ⟨[.commandUsage ⟨"u0", "search", 1786200700⟩], [], 0⟩

/-- The parser and the hash on these lines. -/
def usageEnv : ApplyEnv where
  parseHeader line := if line = headerLine then some ⟨FORMAT, FORMAT_VERSION⟩ else none
  parseFooter line := if line = usageFooter then
    some ⟨⟨[("command_usage", 1)], []⟩, "sha256:" ++ usageDumpDigest⟩ else none
  parseRecord line := if line = usageLine then
    some (.entity (.commandUsage ⟨"u0", "search", 1786200700⟩)) else none
  sha256 text :=
    if text = headerLine then headerDigest
    else if text = usageLine then usageDigest
    else if text = headerDigest ++ usageDigest then usageDumpDigest
    else text
  normalizeTag tag := if tag.isEmpty then none else some tag
  linkPath path := if path.isEmpty then none else some path
  escapes path := path = "../x"

theorem read_usageText : read usageEnv.toReaderEnv usageText = .ok usageDump := by
  have hlines : splitLines usageText = .ok (headerLine :: ([usageLine] ++ [usageFooter])) := by
    refine splitLines_unlines (by simp) fun line hline => ?_
    simp only [List.mem_cons, List.not_mem_nil, or_false] at hline
    rcases hline with rfl | rfl | rfl <;> decide +kernel
  have hrecord : usageEnv.parseRecord usageLine
      = some (.entity (.commandUsage ⟨"u0", "search", 1786200700⟩)) := by
    simp only [usageEnv, if_true]
  have hheader : usageEnv.parseHeader headerLine = some ⟨FORMAT, FORMAT_VERSION⟩ := by
    simp only [usageEnv, if_true]
  have hdigest : digestOf usageEnv.toReaderEnv [headerLine, usageLine]
      = "sha256:" ++ usageDumpDigest := by decide +kernel
  have hfooter : usageEnv.parseFooter usageFooter
      = some ⟨⟨[("command_usage", 1)], []⟩, "sha256:" ++ usageDumpDigest⟩ := by
    simp only [usageEnv, if_true]
  have hentries : entitiesOf usageEnv.toReaderEnv [usageLine] = usageDump.entities := by
    simp [entitiesOf, hrecord, Record.entity?, usageDump]
  have hnone : relationshipsOf usageEnv.toReaderEnv [usageLine] = [] := by
    simp [relationshipsOf, hrecord, Record.relationship?]
  rw [read_of_lines _ hlines]
  refine readFramed_eq_ok_iff.mpr ⟨⟨_, hheader, rfl, rfl⟩, ?_, ?_, ?_, [], ?_, ?_⟩
  · rw [hentries, hnone, hdigest, hfooter]
    decide +kernel
  · simpa using ⟨_, hrecord, by simp, by simp⟩
  · rw [hentries]
    constructor <;> decide +kernel
  · rw [hnone]
    rfl
  · rw [hentries]
    decide +kernel

/-- An attempt that fails at some steps, at a given time. -/
def attemptAt (fails : Step → Bool) (now : Int) : Attempt where
  fails
  uuidV7At i := ⟨String.ofList (Nat.toDigits 10 i)⟩
  projectId i := i
  memoryClock _ := now
  registryClock _ := now

/-- The count fails and nothing else. -/
def countFails : Step → Bool
  | .count => true
  | _ => false

/-- The count fails after the recorded command is in: the import reports an error and has
    added it, and trying again adds it a second time. -/
theorem not_safe_of_count :
    read usageEnv.toReaderEnv usageText = .ok usageDump
      ∧ ¬ AllOrNothing usageEnv usageDump (freshStores usageDump) (attemptAt countFails 1)
      ∧ ¬ SafeToRetry usageEnv usageDump (freshStores usageDump) [attemptAt countFails 1]
        (attemptAt (fun _ => false) 2) := by
  refine ⟨read_usageText, fun h => ?_, fun h => ?_⟩
  · exact absurd (h (.failed .count) rfl).1 (by decide +kernel)
  · obtain ⟨once, o, hclean, happly⟩ := h ⟨⟨.failed .count, rfl⟩, trivial⟩ _ _ rfl
    have hindex := indexDb_of_apply happly rfl
    revert hindex
    decide +kernel

/-- Where the count never fails the dump's one command is safe to import. -/
theorem safe_of_counts :
    ∃ d, read usageEnv.toReaderEnv usageText = .ok d
      ∧ ∀ (s : Stores) (attempts : List Attempt),
        (∀ a ∈ attempts, a.fails ∈ ({f | f .count = false} : Set (Step → Bool))) →
        EachStep (step usageEnv d) (AllOrNothing usageEnv d) s attempts
          ∧ ∀ last, SafeToRetry usageEnv d s attempts last :=
  ⟨usageDump, read_usageText, (safe_iff read_usageText _).mpr fun fails hfails hcount =>
    absurd (hcount.symm.trans hfails) (by simp)⟩

end PortableDump
end Inkentry
