/-
  Inkentry.Dump.FreshStores

  Any dump the reader accepts goes into stores that hold nothing, as long as its
  linked files lie in the project and its relationships link what they may: the
  reader has seen to it that no two entries claim one identity (`Apart`), so no
  unique index refuses a row.
-/

import Inkentry.Dump.Reimport

namespace Inkentry
namespace PortableDump

open Memory Pass

/-! ## Entries of an accepted dump -/

variable {entities : List Entity}

/-- Two entries that the store can hold side by side. -/
def Apart (sha : String → String) (e e' : Entity) : Prop :=
  ∀ m m', e = .memoryEntry m → e' = .memoryEntry m' →
    m.convergenceKey sha ≠ m'.convergenceKey sha
      ∧ (∀ u ∈ m.uuid, m'.uuid ≠ some u) ∧ ∀ r ∈ m.remoteId, m'.remoteId ≠ some r

theorem keep_memoryEntry {sha : String → String} {e : Entity} {k : MemoryEntry}
    (h : keep sha entities e = some (.memoryEntry k)) :
    ∃ m, e = .memoryEntry m ∧ (survivorOf sha entities m).dumpRef = m.dumpRef
      ∧ k.convergenceKey sha = m.convergenceKey sha ∧ k.uuid = m.uuid
      ∧ k.remoteId = m.remoteId := by
  cases e with
  | memoryEntry m =>
    rw [keep] at h
    split at h
    case isTrue hsurvives =>
      obtain rfl := Entity.memoryEntry.inj (Option.some.inj h)
      exact ⟨m, rfl, hsurvives, rfl, rfl, rfl⟩
    case isFalse => exact absurd h (by simp)
  | project => exact absurd h (by simp [keep])
  | commandUsage => exact absurd h (by simp [keep])

theorem accepted_apart {env : ReaderEnv} {text : String} {d : Dump} (h : read env text = .ok d) :
    d.entities.Pairwise (Apart env.sha256) := by
  obtain ⟨first, body, last, -, h⟩ := exists_readFramed h
  obtain ⟨-, -, -, hsound, resolved, -, rfl⟩ := readFramed_eq_ok_iff.mp h
  show ((entitiesOf env body).filterMap (keep env.sha256 (entitiesOf env body))).Pairwise _
  generalize entitiesOf env body = entities at hsound
  have hrefs : entities.Pairwise fun e e' => e.dumpRef ≠ e'.dumpRef :=
    List.pairwise_map.mp hsound.refs
  have huuids := List.pairwise_filterMap.mp (List.pairwise_filterMap.mp hsound.uuids)
  have hremotes := List.pairwise_filterMap.mp (List.pairwise_filterMap.mp hsound.remoteIds)
  rw [List.pairwise_filterMap]
  refine ((hrefs.and huuids).and hremotes).imp_of_mem ?_
  rintro e e' he he' ⟨⟨href, huuid⟩, hremote⟩ k hk k' hk' n n' rfl rfl
  obtain ⟨m, rfl, hsurvives, hkey, hu, hr⟩ := keep_memoryEntry hk
  obtain ⟨m', rfl, hsurvives', hkey', hu', hr'⟩ := keep_memoryEntry hk'
  rw [hkey, hkey', hu, hu', hr, hr']
  refine ⟨fun hsame => href ?_, fun u hmu hmu' => ?_, fun r hmr hmr' => ?_⟩
  · -- two survivors of one group are one entry
    obtain ⟨s, l, hcons⟩ := List.exists_cons_of_ne_nil
      (List.ne_nil_of_mem (@survivorOf_mem env.sha256 entities m he))
    rw [survivorOf, hcons] at hsurvives
    rw [survivorOf, ← hsame, hcons] at hsurvives'
    show m.dumpRef = m'.dumpRef
    rw [← hsurvives, ← hsurvives']
    rfl
  · exact huuid m rfl m' rfl u hmu u hmu' rfl
  · exact hremote m rfl m' rfl r hmr r hmr' rfl

/-! ## Into stores that hold nothing -/

/-- A store that holds nothing. -/
def MemoryTables.empty : MemoryTables := ⟨Store.empty, [], []⟩

/-- Longer than every uuid some entities carry. -/
def longerThanUuids (entities : List Entity) : Nat :=
  ((entities.filterMap Entity.memory?).filterMap MemoryEntry.uuid).foldr
    (fun u n => max (u.length + 1) n) 0

/-- Ids no entry carries, all different. -/
def freshUuid (entities : List Entity) (i : Nat) : NoteId :=
  ⟨String.ofList (List.replicate (longerThanUuids entities + i) 'x')⟩

theorem length_lt_longerThanUuids {m : MemoryEntry} {u : String} (hm : .memoryEntry m ∈ entities)
    (hu : m.uuid = some u) : u.length < longerThanUuids entities := by
  have hmem : u ∈ (entities.filterMap Entity.memory?).filterMap MemoryEntry.uuid :=
    List.mem_filterMap.mpr ⟨m, List.mem_filterMap.mpr ⟨_, hm, rfl⟩, hu⟩
  rw [longerThanUuids]
  generalize (entities.filterMap Entity.memory?).filterMap MemoryEntry.uuid = uuids at hmem
  induction uuids with
  | nil => exact absurd hmem (by simp)
  | cons v l ih =>
    rw [List.foldr_cons]
    rcases List.mem_cons.mp hmem with rfl | hmem
    · omega
    · have := ih hmem
      omega

theorem uuidOr_ne {m m' : MemoryEntry} {i j : Nat} (hm : .memoryEntry m ∈ entities)
    (hm' : .memoryEntry m' ∈ entities) (hne : i ≠ j) (huuid : ∀ u ∈ m.uuid, m'.uuid ≠ some u) :
    m.uuidOr (freshUuid entities i) ≠ m'.uuidOr (freshUuid entities j) := by
  -- a minted id is longer than every id in the dump, and no two are of one length
  have hlength (k : Nat) : (freshUuid entities k).token.length = longerThanUuids entities + k := by
    simp [freshUuid]
  intro heq
  have htoken := congrArg (fun id : NoteId => id.token.length) heq
  cases hu : m.uuid with
  | none =>
    cases hu' : m'.uuid with
    | none =>
      simp only [MemoryEntry.uuidOr, hu, hu', Option.map_none, Option.getD_none, hlength] at htoken
      omega
    | some u' =>
      have hlt := length_lt_longerThanUuids hm' hu'
      simp only [MemoryEntry.uuidOr, hu, hu', Option.map_none, Option.getD_none, Option.map_some,
        Option.getD_some, hlength] at htoken
      omega
  | some u =>
    cases hu' : m'.uuid with
    | none =>
      have hlt := length_lt_longerThanUuids hm hu
      simp only [MemoryEntry.uuidOr, hu, hu', Option.map_none, Option.getD_none, Option.map_some,
        Option.getD_some, hlength] at htoken
      omega
    | some u' =>
      simp only [MemoryEntry.uuidOr, hu, hu', Option.map_some, Option.getD_some, NoteId.mk.injEq]
        at heq
      exact huuid u hu (hu'.trans (congrArg some heq.symm))

variable {env : ApplyEnv}
variable {mint : Nat → NoteId}

/-- A row that came from one of the first entities. -/
def CameFrom (env : ApplyEnv) (mint : Nat → NoteId) (entities : List Entity) (i : Nat)
    (row : Note) : Prop :=
  ∃ k < i, ∃ m, entities[k]? = some (.memoryEntry m) ∧ row.id = m.uuidOr (mint k)
    ∧ row.entityId = m.convergenceKey env.sha256 ∧ row.remoteId = m.remoteId

theorem CameFrom.mono {i j : Nat} {row : Note} (h : CameFrom env mint entities i row)
    (hij : i ≤ j) : CameFrom env mint entities j row := by
  obtain ⟨k, hk, hrest⟩ := h
  exact ⟨k, by omega, hrest⟩

theorem cameFrom_edit {i : Nat} {s : Store} (h : ∀ row ∈ s.rows, CameFrom env mint entities i row)
    (e : RowEdit) (p : Note → Bool) :
    ∀ row ∈ (s.edit e p).rows, CameFrom env mint entities i row := by
  intro row hrow
  obtain ⟨row₀, hrow₀, rfl⟩ := List.mem_map.mp hrow
  obtain ⟨k, hk, m, hm, hid, hkey, hremote⟩ := h row₀ hrow₀
  refine ⟨k, hk, m, hm, ?_⟩
  split
  · exact ⟨(e.id_apply row₀).trans hid, (e.entityId_apply row₀).trans hkey,
      (e.remoteId_apply row₀).trans hremote⟩
  · exact ⟨hid, hkey, hremote⟩

/-- Entries that can be held side by side go into a store that holds nothing. -/
theorem exists_memoryPass {d : Dump} (hapart : d.entities.Pairwise (Apart env.sha256))
    (hfiles : ∀ m, .memoryEntry m ∈ d.entities →
      ∀ path ∈ m.linkedFiles, env.refuses path = false) :
    ∃ ids t, memoryPass env (freshUuid d.entities) d MemoryTables.empty = .ok (ids, t) := by
  have hstep : ∀ k e t, d.entities[k]? = some e →
      (∀ row ∈ t.store.rows, CameFrom env (freshUuid d.entities) d.entities (0 + k) row) →
      ∃ id? t', memoryStep env (freshUuid d.entities) (0 + k) e t = .ok (id?, t')
        ∧ ∀ row ∈ t'.store.rows, CameFrom env (freshUuid d.entities) d.entities (0 + k + 1) row := by
    intro k e t he hrows
    rw [Nat.zero_add] at hrows ⊢
    have hkeep : ∀ row ∈ t.store.rows,
        CameFrom env (freshUuid d.entities) d.entities (k + 1) row :=
      fun row hrow => (hrows row hrow).mono (by omega)
    cases e with
    | project => exact ⟨none, t, rfl, hkeep⟩
    | commandUsage => exact ⟨none, t, rfl, hkeep⟩
    | memoryEntry m =>
      obtain ⟨hk, hat⟩ := List.getElem?_eq_some_iff.mp he
      have hm : .memoryEntry m ∈ d.entities := hat ▸ List.getElem_mem hk
      -- no row so far has this entry's key, uuid or remote id
      have hclash : ∀ row ∈ t.store.rows, row.id ≠ m.uuidOr (freshUuid d.entities k)
          ∧ row.entityId ≠ m.convergenceKey env.sha256
          ∧ ∀ r ∈ m.remoteId, row.remoteId ≠ some r := by
        intro row hrow
        obtain ⟨j, hj, m', hm', hid, hkey, hremote⟩ := hrows row hrow
        obtain ⟨hjlt, hat'⟩ := List.getElem?_eq_some_iff.mp hm'
        obtain ⟨hne, huuid, hrem⟩ := List.pairwise_iff_getElem.mp hapart j k hjlt hk hj m' m hat' hat
        rw [hid, hkey, hremote]
        refine ⟨uuidOr_ne (hat' ▸ List.getElem_mem hjlt) hm (by omega) huuid, hne, ?_⟩
        exact fun r hr hr' => hrem r hr' hr
      have hins : ∃ s', t.store.insertRow (m.row env (m.uuidOr (freshUuid d.entities k)))
          = some s' := by
        rw [Store.insertRow, dif_pos]
        · exact ⟨_, rfl⟩
        · simp only [List.mem_map, List.mem_filterMap, not_exists, not_and]
          exact ⟨fun row hrow => (hclash row hrow).1, fun row hrow => (hclash row hrow).2.1,
            fun r hr row hrow => (hclash row hrow).2.2 r hr⟩
      obtain ⟨s', hs'⟩ := hins
      have hs'rows : ∀ row ∈ s'.rows,
          CameFrom env (freshUuid d.entities) d.entities (k + 1) row := by
        intro row hrow
        rw [(Store.insertRow_eq_some hs').1] at hrow
        rcases List.mem_append.mp hrow with hrow | hrow
        · exact hkeep row hrow
        · obtain rfl := List.mem_singleton.mp hrow
          exact ⟨k, by omega, m, he, rfl, rfl, rfl⟩
      have hfind : m.linkedFiles.find? env.refuses = none := by simpa using hfiles m hm
      have hrecover := Store.insertOrRecover_of_insert env.store hs' m.tags m.linkedFiles
      have hattached := cameFrom_edit hs'rows (attachEdit env.store m.tags m.linkedFiles)
        fun n => n.id = m.uuidOr (freshUuid d.entities k)
      have hdone : ∃ s'', importEntry env t.store (m.row env (m.uuidOr (freshUuid d.entities k)))
            m.tags m.linkedFiles m.origin = .ok (m.uuidOr (freshUuid d.entities k), true, s'')
          ∧ ∀ row ∈ s''.rows, CameFrom env (freshUuid d.entities) d.entities (k + 1) row := by
        rw [importEntry, hrecover]
        simp only [hfind]
        cases m.origin with
        | none => exact ⟨_, rfl, hattached⟩
        | some o => exact ⟨_, rfl, cameFrom_edit hattached (originEdit o) _⟩
      obtain ⟨s'', himport, hrows''⟩ := hdone
      exact ⟨_, _, bind_eq_ok_iff.mpr ⟨_, himport, rfl⟩, hrows''⟩
  have hempty : ∀ row ∈ MemoryTables.empty.store.rows,
      CameFrom env (freshUuid d.entities) d.entities 0 row :=
    fun row hrow => absurd hrow (by simp [MemoryTables.empty, Store.empty])
  obtain ⟨ids, t, hpass, -⟩ := exists_pass (fun i (t : MemoryTables) => ∀ row ∈ t.store.rows,
    CameFrom env (freshUuid d.entities) d.entities i row) hstep hempty
  exact ⟨ids, t, hpass⟩

theorem exists_registryPass (clock : Step → Int) (d : Dump) :
    ∃ ids r?, registryPass id clock d (if d.needsRegistry then some Registry.empty else none)
      = .ok (ids, r?) := by
  -- ids are handed out by place, so no row has an id from the place on
  have hstep : ∀ k e r?, d.entities[k]? = some e →
      (d.needsRegistry = r?.isSome ∧ ∀ r ∈ r?, ∀ p ∈ r.projects, p.id < 0 + k) →
      ∃ id? r?', registryStep id clock (0 + k) e r? = .ok (id?, r?')
        ∧ d.needsRegistry = r?'.isSome ∧ ∀ r ∈ r?', ∀ p ∈ r.projects, p.id < 0 + k + 1 := by
    rintro k e r? he ⟨hsome, hids⟩
    rw [Nat.zero_add] at hids ⊢
    have hkeep : ∀ r ∈ r?, ∀ p ∈ r.projects, p.id < k + 1 :=
      fun r hr p hp => Nat.lt_succ_of_lt (hids r hr p hp)
    cases e with
    | memoryEntry m => exact ⟨none, r?, by cases r? <;> rfl, hsome, hkeep⟩
    | commandUsage u => exact ⟨none, r?, by cases r? <;> rfl, hsome, hkeep⟩
    | project q =>
      have hneeds : d.needsRegistry = true :=
        List.any_eq_true.mpr ⟨_, List.mem_of_getElem? he, rfl⟩
      obtain ⟨r, rfl⟩ := Option.isSome_iff_exists.mp (hsome.symm.trans hneeds)
      have hregister : ∃ id' r', r.register k (clock (.insert k)) q.rootPath
          (joinPath (joinPath q.rootPath ".inkentry") "index.db") = .ok (id', r')
            ∧ ∀ p ∈ r'.projects, p.id < k + 1 := by
        rw [Registry.register]
        cases hat : r.projectAt? q.rootPath with
        -- the path is known: the row is written over
        | some p =>
          refine ⟨p.id, _, rfl, fun p' hp' => ?_⟩
          obtain ⟨p₀, hp₀, rfl⟩ := List.mem_map.mp hp'
          have hlt := hkeep r rfl p₀ hp₀
          split <;> exact hlt
        -- a new path gets the place for its id, which is free
        | none =>
          have hroot : q.rootPath ∉ r.projects.map RegisteredProject.rootPath := by
            intro hmem
            obtain ⟨p, hp, hpath⟩ := List.mem_map.mp hmem
            rw [Registry.projectAt?_eq_some_iff.mpr ⟨hp, hpath⟩] at hat
            exact absurd hat (by simp)
          have hid : k ∉ r.projects.map RegisteredProject.id := by
            intro hmem
            obtain ⟨p, hp, hpid⟩ := List.mem_map.mp hmem
            have hlt := hids r rfl p hp
            omega
          simp only [Registry.insertProject, dif_pos (And.intro hid hroot)]
          refine ⟨k, _, rfl, fun p hp => ?_⟩
          rcases List.mem_append.mp hp with hp | hp
          · exact hkeep r rfl p hp
          · obtain rfl := List.mem_singleton.mp hp
            exact Nat.lt_succ_self k
      obtain ⟨id', r', hregister, hids'⟩ := hregister
      exact ⟨some id', some r', bind_eq_ok_iff.mpr ⟨_, hregister, rfl⟩, hneeds,
        fun u hu => Option.some.inj hu ▸ hids'⟩
  have hempty : d.needsRegistry
        = (if d.needsRegistry then some Registry.empty else none).isSome
      ∧ ∀ r ∈ (if d.needsRegistry then some Registry.empty else none),
        ∀ p ∈ r.projects, p.id < 0 := by
    cases d.needsRegistry with
    | false => exact ⟨rfl, fun r hr => absurd hr (by simp)⟩
    | true =>
      refine ⟨rfl, fun r hr p hp => ?_⟩
      obtain rfl : Registry.empty = r := by simpa using hr
      exact absurd hp (by simp [Registry.empty])
  obtain ⟨ids, r?, hpass, -⟩ := exists_pass (fun i (r? : Option Registry) =>
    d.needsRegistry = r?.isSome ∧ ∀ r ∈ r?, ∀ p ∈ r.projects, p.id < i) hstep hempty
  exact ⟨ids, r?, hpass⟩

end PortableDump
end Inkentry
