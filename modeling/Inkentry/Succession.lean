/-
  Inkentry.Succession

  A memory store over its life: the writes of `Memory.LocalWrite`, deduplication,
  imports of the git-notes ref and imports of portable dumps, in any order.

  Three of these can leave a row whose status, `superseded_by` column and
  `supersedes` edge do not agree.  Importing a dump sets the column and inserts
  the edge but archives nothing; importing the git-notes ref inserts the edge
  alone; deduplication moves a successor to the row it keeps while the edge goes
  with the row it deletes.  `Admits` says when none of this happens, and
  `eachState_succession` that `Store.Succession` then holds throughout.
-/

import Inkentry.Dump.Atomicity
import Inkentry.Dump.ReaderOrder
import Inkentry.Memory.Succession

namespace Inkentry
namespace Succession

open Memory Carrier GitNotes PortableDump Runs Pass OrderLimit

/-! ## Operations -/

variable {env : ApplyEnv}
variable {text : String} {s : Store} {d : Dump}

/-- The functions an import of the git-notes ref is given. -/
def importEnv (env : ApplyEnv) : ImportEnv := { env.store with escapes := env.escapes }

/-- What happens to a memory store.  The ref is read three times during an import, and
    another process can write to it between two of them. -/
inductive MemoryOp where
  | write (w : LocalWrite)
  | dedupe (dryRun : Bool)
  | importGitNotes (mint : Nat → NoteId) (listed carried superseded : Repo)
  | importDump (text : String) (a : Attempt) (edgeTimes : List (MemoryEdge × Int))
      (embedded : List NoteId) (registry : Option Registry) (indexDb : IndexDb)

/-- What an import of the ref has to work with; `none` when the ref cannot be read. -/
structure RefContents where
  notes : List Note
  carried : List (String × CarriedEdge)
  supersedes : List (String × String)

def readRef (sha : String → String) (listed carried superseded : Repo) : Option RefContents :=
  (listForImport sha listed).bind fun notes =>
    (carriedEdges sha carried).bind fun edges =>
      (carriedSupersedeEdges sha superseded).map fun pairs => ⟨notes, edges, pairs⟩

/-- The store as the tables an import of the ref opens. -/
def memoryDb (s : Store) : MemoryDb Unit := ⟨s, none, none⟩

/-- The store after an import of the ref. -/
def importRef (env : ImportEnv) (mint : Nat → NoteId) (ref : RefContents) (s : Store) : Store :=
  (((importIntoMemory env mint ref.notes none (knownContents env.sha (some (memoryDb s)))
    ref.carried ref.supersedes (some (memoryDb s))).bind Prod.snd).map MemoryDb.store).getD s

/-- An operation that fails leaves the store as it was. -/
def step (env : ApplyEnv) (s : Store) : MemoryOp → Store
  | .write w => if w.resolves s then applyWrite env.store s w else s
  | .dedupe dryRun => ((s.dedupeEntityIds env.store dryRun).map Prod.snd).getD s
  | .importGitNotes mint listed carried superseded =>
    match readRef env.sha256 listed carried superseded with
    | some ref => importRef (importEnv env) mint ref s
    | none => s
  | .importDump text a edgeTimes embedded registry indexDb =>
    match read env.toReaderEnv text with
    | .ok d => (apply env a d ⟨⟨s, edgeTimes, embedded⟩, registry, indexDb⟩).1.memory.store
    | .error _ => s

theorem step_importDump (hread : read env.toReaderEnv text = .ok d) {a : Attempt}
    {edgeTimes : List (MemoryEdge × Int)} {embedded : List NoteId} {registry : Option Registry}
    {indexDb : IndexDb} :
    step env s (.importDump text a edgeTimes embedded registry indexDb)
      = (apply env a d ⟨⟨s, edgeTimes, embedded⟩, registry, indexDb⟩).1.memory.store := by
  simp only [step, hread]

/-! ## The condition -/

/-- The store has a row for an entity, or one of some entries will become its row. -/
def HasOrGains (sha : String → String) (s : Store) (fresh : List Note) (entity : String) : Prop :=
  (∃ row ∈ s.rows, row.entityId = entity) ∨ ∃ n ∈ fresh, noteEntityId sha n = entity

/-- An entity that is superseded on the ref, by another that the store has or gains, is
    not active in the store; if the store gains it, it is archived on the ref. -/
def SupersededRetired (sha : String → String) (ref : RefContents) (s : Store) : Prop :=
  let fresh := newEntries sha (s.rows.map (noteEntityId sha)) ref.notes
  ∀ p ∈ ref.supersedes, p.1 ≠ p.2 → HasOrGains sha s fresh p.2 →
    (∀ row ∈ s.rows, row.entityId = p.1 → row.status ≠ "active")
      ∧ ((∀ row ∈ s.rows, row.entityId ≠ p.1) →
        ∀ n ∈ fresh, noteEntityId sha n = p.1 → n.status = "archived")

/-- An entry that a dump says is superseded is not active in the store; if the store does
    not have it, it is not active in the dump. -/
def PredecessorsRetired (env : ApplyEnv) (d : Dump) (s : Store) : Prop :=
  ∀ r ∈ d.relationships, r.kind = .supersedes → ∀ m, d.entities[r.target]? = some (.memoryEntry m) →
    (∀ row ∈ s.rows, row.entityId = m.convergenceKey env.sha256 → row.status ≠ "active")
      ∧ ((∀ row ∈ s.rows, row.entityId ≠ m.convergenceKey env.sha256) →
        m.status.getD "active" ≠ "active")

/-- The operations that keep the three records of a succession together. -/
def Admits (env : ApplyEnv) (s : Store) : MemoryOp → Prop
  | .write _ => True
  | .dedupe dryRun => dryRun = false →
    SuccessorsRecorded (duplicateGroups env.sha256 s.allNotesForDedup) s
  | .importGitNotes _ listed carried superseded =>
    ∀ ref, readRef env.sha256 listed carried superseded = some ref →
      SupersededRetired env.sha256 ref s
  | .importDump text _ _ _ _ _ =>
    ∀ d, read env.toReaderEnv text = .ok d → PredecessorsRetired env d s

/-! ## Inserting entries -/

/-- Inserting entries keeps every row's entity and status; `Fresh` says which entity came
    in with which status. -/
structure Gains (Fresh : String → String → Prop) (s s' : Store) : Prop where
  kept : ∀ row ∈ s.rows, ∃ row' ∈ s'.rows, row'.entityId = row.entityId
  rows : ∀ row' ∈ s'.rows,
    (∃ row ∈ s.rows, row.entityId = row'.entityId ∧ row.status = row'.status)
      ∨ (∀ row ∈ s.rows, row.entityId ≠ row'.entityId) ∧ Fresh row'.entityId row'.status

theorem Gains.refl (Fresh : String → String → Prop) (s : Store) : Gains Fresh s s :=
  ⟨fun row hrow => ⟨row, hrow, rfl⟩, fun row hrow => .inl ⟨row, hrow, rfl, rfl⟩⟩

theorem Gains.edit {Fresh : String → String → Prop} {s s' : Store} (h : Gains Fresh s s')
    (e : RowEdit) (p : Note → Bool) (hstatus : ∀ n, (e.apply n).status = n.status) :
    Gains Fresh s (s'.edit e p) := by
  refine ⟨fun row hrow => ?_, fun row' hrow' => ?_⟩
  · obtain ⟨row', hrow', hent⟩ := h.kept row hrow
    refine ⟨_, List.mem_map_of_mem hrow', ?_⟩
    by_cases hp : p row' <;> simp [hp, hent]
  · obtain ⟨row₁, hrow₁, rfl⟩ := List.mem_map.mp hrow'
    have hsame : (if p row₁ then e.apply row₁ else row₁).entityId = row₁.entityId
        ∧ (if p row₁ then e.apply row₁ else row₁).status = row₁.status := by
      by_cases hp : p row₁ <;> simp [hp, hstatus]
    rw [hsame.1, hsame.2]
    exact h.rows row₁ hrow₁

theorem Gains.insertOrRecover {Fresh : String → String → Prop} {env : StoreEnv}
    {s s₁ s' : Store} (h : Gains Fresh s s₁) {n : Note} {tags linkedFiles : List String}
    {id : NoteId} {created : Bool}
    (hins : s₁.insertOrRecover env n tags linkedFiles = some (id, created, s'))
    (hfresh : Fresh n.entityId n.status) : Gains Fresh s s' := by
  rcases Store.insertOrRecover_cases hins with ⟨-, -, s₂, hrow, rfl⟩ | ⟨-, row, -, -, -, rfl⟩
  · obtain ⟨hrows, -, -, hnew⟩ := Store.insertRow_eq_some hrow
    refine Gains.edit ⟨fun row hmem => ?_, fun row' hmem => ?_⟩ _ _ fun _ => rfl
    · obtain ⟨row', hmem', hent⟩ := h.kept row hmem
      exact ⟨row', hrows ▸ List.mem_append_left _ hmem', hent⟩
    · rw [hrows] at hmem
      rcases List.mem_append.mp hmem with hmem | hmem
      · exact h.rows row' hmem
      · obtain rfl := List.mem_singleton.mp hmem
        refine .inr ⟨fun row hmem' hent => ?_, hfresh⟩
        obtain ⟨row₁, hrow₁, hent₁⟩ := h.kept row hmem'
        exact hnew (List.mem_map.mpr ⟨row₁, hrow₁, hent₁.trans hent⟩)
  · exact h.edit _ _ fun _ => rfl

/-! ## Imports of the git-notes ref -/

variable {mint : Nat → NoteId}

/-- The entities some entries come in with, and their statuses. -/
def FreshOnRef (sha : String → String) (notes : List Note) (entity status : String) : Prop :=
  ∃ n ∈ notes, noteEntityId sha n = entity
    ∧ status = if n.status = "archived" then "archived" else "active"

theorem importNotes_gains {env : ImportEnv} {notes l : List Note} {i : Nat} {s s₁ s' : Store}
    (h : importNotes env mint i s₁ l = some s') (hl : ∀ n ∈ l, n ∈ notes) (hlinked : s₁.Linked)
    (hgains : Gains (FreshOnRef env.sha notes) s s₁) :
    s'.Linked ∧ Gains (FreshOnRef env.sha notes) s s' := by
  induction l generalizing i s₁ with
  | nil =>
    obtain rfl := Option.some.inj h
    exact ⟨hlinked, hgains⟩
  | cons n l ih =>
    obtain ⟨s₂, hadd, hrest⟩ := Option.bind_eq_some_iff.mp h
    rw [addNoteWithCreatedAt] at hadd
    split at hadd
    case isTrue => exact absurd hadd (by simp)
    case isFalse =>
      obtain ⟨⟨id, created, s₃⟩, hins, rfl⟩ := Option.map_eq_some_iff.mp hadd
      exact ih hrest (fun m hm => hl m (List.mem_cons_of_mem _ hm))
        (hlinked.insertOrRecover hins rfl)
        (hgains.insertOrRecover hins ⟨n, hl n List.mem_cons_self, rfl, rfl⟩)

/-- An edge between two entities that have rows; a supersede of one that is not active by
    another. -/
theorem applyEdge_linked (kind fromEntity toEntity : String) {acc : CarriedEdgeImport × Store}
    (h : acc.2.Linked)
    (hsupersedes : kind = "supersedes" → ∀ source ∈ acc.2.rows, ∀ target ∈ acc.2.rows,
      source.entityId = fromEntity → target.entityId = toEntity →
        source.id ≠ target.id ∧ target.status ≠ "active") :
    (applyEdge kind fromEntity toEntity acc).2.Linked
      ∧ (applyEdge kind fromEntity toEntity acc).2.rows = acc.2.rows := by
  rw [applyEdge]
  split
  case h_1 source target hsource htarget =>
    obtain ⟨hsource, hfrom⟩ := Store.rowForEntity?_eq_some_iff.mp hsource
    obtain ⟨htarget, hto⟩ := Store.rowForEntity?_eq_some_iff.mp htarget
    split
    case isTrue => exact ⟨h, rfl⟩
    case isFalse =>
      refine ⟨h.insertEdge ⟨source, hsource, rfl⟩ ⟨target, htarget, rfl⟩ fun hk => ?_,
        Store.insertEdge_rows _ _⟩
      obtain ⟨hne, hinactive⟩ := hsupersedes hk source hsource target htarget hfrom hto
      refine ⟨hne, fun row hrow hid => ?_⟩
      obtain rfl := List.inj_on_of_nodup_map acc.2.uuidUnique hrow htarget hid
      exact hinactive
  case h_2 => exact ⟨h, rfl⟩

theorem importCarriedEdges_linked (h : s.Linked) (edges : List (String × CarriedEdge)) :
    (importCarriedEdges s edges).2.Linked ∧ (importCarriedEdges s edges).2.rows = s.rows := by
  refine List.foldlRecOn edges _ (motive := fun acc : CarriedEdgeImport × Store => acc.2.Linked ∧ acc.2.rows = s.rows)
    ⟨h, rfl⟩ fun acc hacc e _ => ?_
  split
  case isTrue hkind =>
    obtain ⟨hlinked, hrows⟩ := applyEdge_linked e.2.kind e.1 e.2.toEntityId hacc.1 fun hk => by
        rcases hkind with h' | h' <;> simp [h'] at hk
    exact ⟨hlinked, hrows.trans hacc.2⟩
  case isFalse => exact hacc

theorem importSupersedeEdges_linked (h : s.Linked) {pairs : List (String × String)}
    (hretired : ∀ p ∈ pairs, p.1 ≠ p.2 → (∃ row ∈ s.rows, row.entityId = p.2) → ∀ row ∈ s.rows, row.entityId = p.1 → row.status ≠ "active")
    : (importSupersedeEdges s pairs).2.Linked := by
  have hinv : (importSupersedeEdges s pairs).2.Linked
      ∧ (importSupersedeEdges s pairs).2.rows = s.rows := by
    refine List.foldlRecOn pairs _ (motive := fun acc : CarriedEdgeImport × Store => acc.2.Linked ∧ acc.2.rows = s.rows)
      ⟨h, rfl⟩ fun acc hacc p hp => ?_
    obtain ⟨hlinked, hrows⟩ := hacc
    -- an edge is written between two rows, and the older one was retired before
    have happly (hne : ∀ source target, acc.2.rowForEntity? p.2 = some source →
        acc.2.rowForEntity? p.1 = some target → source.id ≠ target.id) :
        (applyEdge "supersedes" p.2 p.1 acc).2.Linked
          ∧ (applyEdge "supersedes" p.2 p.1 acc).2.rows = s.rows := by
      obtain ⟨hlinked', hrows'⟩ := applyEdge_linked "supersedes" p.2 p.1 hlinked
        fun _ source hsource target htarget hfrom hto => by
          have hids := hne source target (Store.rowForEntity?_eq_some_iff.mpr ⟨hsource, hfrom⟩)
            (Store.rowForEntity?_eq_some_iff.mpr ⟨htarget, hto⟩)
          have hentities : p.1 ≠ p.2 := fun heq => hids (congrArg Note.id
            (List.inj_on_of_nodup_map acc.2.entityUnique hsource htarget
              (hfrom.trans (heq.symm.trans hto.symm))))
          rw [hrows] at hsource htarget
          exact ⟨hids, hretired p hp hentities ⟨source, hsource, hfrom⟩ target htarget hto⟩
      exact ⟨hlinked', hrows'.trans hrows⟩
    split
    case h_1 source target hsource htarget =>
      split
      case isTrue => exact ⟨hlinked, hrows⟩
      case isFalse hne =>
        refine happly fun source' target' hsource' htarget' => ?_
        obtain rfl := Option.some.inj (hsource.symm.trans hsource')
        obtain rfl := Option.some.inj (htarget.symm.trans htarget')
        exact hne
    case h_2 hnone =>
      exact happly fun source target hsource htarget => (hnone source target hsource htarget).elim
  exact hinv.1

/-- What was listed and written is what `SupersededRetired` speaks of. -/
theorem importRef_linked {env : ImportEnv} (h : s.Linked) (mint : Nat → NoteId) {ref : RefContents}
    (hretired : SupersededRetired env.sha ref s) : (importRef env mint ref s).Linked := by
  show (((importIntoMemory env mint ref.notes none (s.rows.map (noteEntityId env.sha)) ref.carried
    ref.supersedes (some (memoryDb s))).bind Prod.snd).map MemoryDb.store |>.getD s).Linked
  rw [importIntoMemory]
  split
  case isTrue => exact h
  case isFalse =>
    simp only [Option.getD_some]
    split
    case isTrue => exact h
    case isFalse =>
      cases himport : importNotes env mint 0 s (newEntries env.sha
          (s.rows.map (noteEntityId env.sha)) ref.notes) with
      | none =>
        simp only [memoryDb, himport]
        exact h
      | some s₁ =>
        simp only [memoryDb, himport, Option.map_some, Option.bind_some, Option.getD_some]
        obtain ⟨hlinked, hgains⟩ := importNotes_gains himport (fun _ hn => hn) h (Gains.refl _ s)
        obtain ⟨hlinked', hrows'⟩ := importCarriedEdges_linked hlinked ref.carried
        refine importSupersedeEdges_linked hlinked' ?_
        rw [hrows']
        rintro p hp hne ⟨successor, hsuccessor, hsuccessorEnt⟩ row hrow hent
        -- the successor was there or came in with the entries
        have hgained : HasOrGains env.sha s (newEntries env.sha
            (s.rows.map (noteEntityId env.sha)) ref.notes) p.2 := by
          rcases hgains.rows successor hsuccessor with ⟨r, hr, hrent, -⟩ | ⟨-, n, hn, hnent, -⟩
          · exact .inl ⟨r, hr, hrent.trans hsuccessorEnt⟩
          · exact .inr ⟨n, hn, hnent.trans hsuccessorEnt⟩
        obtain ⟨hold, hnew⟩ := hretired p hp hne hgained
        rcases hgains.rows row hrow with ⟨r, hr, hrent, hstatus⟩ | ⟨hnone, n, hn, hnent, hstatus⟩
        · exact hstatus ▸ hold r hr (hrent.trans hent)
        · have harchived := hnew (fun r hr hrent => hnone r hr (hrent.trans hent.symm)) n hn
            (hnent.trans hent)
          rw [hstatus, if_pos harchived]
          simp

/-! ## Imports of a dump -/

variable {ids : List (Option NoteId)} {t : MemoryTables}
variable {clock : Step → Int}

/-- The keys a dump's entries come in with, and their statuses. -/
def FreshInDump (env : ApplyEnv) (d : Dump) (entity status : String) : Prop :=
  ∃ m, .memoryEntry m ∈ d.entities ∧ m.convergenceKey env.sha256 = entity
    ∧ status = m.status.getD "active"

theorem accepted_distinct {env : ReaderEnv}
    (h : read env text = .ok d) : ∀ r ∈ d.relationships, r.source ≠ r.target := by
  obtain ⟨first, body, last, -, h⟩ := exists_readFramed h
  obtain ⟨-, -, -, -, resolved, -, rfl⟩ := readFramed_eq_ok_iff.mp h
  intro r hr
  obtain ⟨x, hx, hkey⟩ := List.mem_map.mp (KeyedStamp.mem_collapse.mp hr).1
  obtain ⟨r₀, -, hredirect⟩ := List.mem_filterMap.mp hx
  rw [redirectOne] at hredirect
  have hends : x.source = r.source ∧ x.target = r.target := by
    simp only [resolvedView, Prod.mk.injEq] at hkey
    exact ⟨hkey.2.1, hkey.2.2⟩
  rw [← hends.1, ← hends.2]
  split at hredirect
  case isTrue => exact absurd hredirect (by simp)
  case isFalse hne =>
    obtain rfl := Option.some.inj hredirect
    exact hne

theorem memoryPass_gains {t t₁ : MemoryTables} (h : memoryPass env mint d t = .ok (ids, t₁))
    (hlinked : t.store.Linked) : t₁.store.Linked ∧ Gains (FreshInDump env d) t.store t₁.store := by
  refine pass_inv (P := fun u : MemoryTables => u.store.Linked
    ∧ Gains (FreshInDump env d) t.store u.store) (fun i e u id? u' he hstep hu => ?_) h
    ⟨hlinked, Gains.refl _ _⟩
  cases e with
  | memoryEntry m =>
    obtain ⟨⟨id, created, store⟩, himport, hstep⟩ := bind_eq_ok_iff.mp hstep
    obtain ⟨-, rfl⟩ := Prod.mk.inj (Except.ok.inj hstep)
    obtain ⟨s₁, hins, -, hs'⟩ := importEntry_eq_ok himport
    have hlinked₁ := hu.1.insertOrRecover hins rfl
    have hgains₁ := hu.2.insertOrRecover hins ⟨m, he, rfl, rfl⟩
    rcases hs' with rfl | ⟨-, o, rfl⟩
    · exact ⟨hlinked₁, hgains₁⟩
    · exact ⟨hlinked₁.edit_of_column _ _ (fun _ hn => hn) fun _ => rfl,
        hgains₁.edit _ _ fun _ => rfl⟩
  | project =>
    obtain ⟨-, rfl⟩ := Prod.mk.inj (Except.ok.inj hstep)
    exact hu
  | commandUsage =>
    obtain ⟨-, rfl⟩ := Prod.mk.inj (Except.ok.inj hstep)
    exact hu

theorem importEdge_linked (h : t.store.Linked) {e : MemoryEdge} (createdAt : Option Int) (now : Int)
    (hfrom : ∃ n ∈ t.store.rows, n.id = e.fromId) (hto : ∃ n ∈ t.store.rows, n.id = e.toId)
    (hsupersedes : e.kind = "supersedes" → e.fromId ≠ e.toId ∧ ∀ n ∈ t.store.rows, n.id = e.toId → n.status ≠ "active")
    : (t.importEdge e createdAt now).2.store.Linked := by
  rw [MemoryTables.importEdge]
  split
  · exact h
  · exact h.insertEdge hfrom hto hsupersedes

/-- What a relationship needs of the rows it links. -/
def LinksRetired (ids : List (Option NoteId)) (r : ResolvedRelationship) (s : Store) : Prop :=
  ∀ x y, ends ids r = some (x, y) → (∃ n ∈ s.rows, n.id = x) ∧ (∃ n ∈ s.rows, n.id = y)
    ∧ (r.kind = .supersedes → x ≠ y ∧ ∀ n ∈ s.rows, n.id = y → n.status ≠ "active")

theorem relateMemory_linked {j : Nat} {r : ResolvedRelationship} (h : t.store.Linked)
    (hretired : LinksRetired ids r t.store) : (relateMemory clock ids j r t).store.Linked := by
  rw [relateMemory]
  split
  case h_1 successor predecessor hk hends =>
    obtain ⟨hx, hy, hsupersedes⟩ := hretired _ _ hends
    have hedge := importEdge_linked h (e := ⟨successor, predecessor, r.kind.asStr⟩) r.createdAt
      (clock (.relate j)) hx hy fun _ => hsupersedes hk
    refine hedge.edit (linkEdit successor) _ (fun _ hn => hn) fun n _ hid t' ht' => .inr ?_
    obtain rfl : successor = t' := Option.some.inj ht'
    obtain rfl : n.id = predecessor := by simpa using hid
    have hmem := (importEdge_edges t ⟨successor, n.id, r.kind.asStr⟩ r.createdAt
      (clock (.relate j))).1
    rw [hk] at hmem ⊢
    exact hmem
  case h_2 x y hk hends =>
    obtain ⟨hx, hy, -⟩ := hretired _ _ hends
    exact importEdge_linked h _ _ hx hy fun hkind => by simp [hk, RelationshipKind.asStr] at hkind
  case h_3 x y hk hends =>
    obtain ⟨hx, hy, -⟩ := hretired _ _ hends
    exact importEdge_linked h _ _ hx hy fun hkind => by simp [hk, RelationshipKind.asStr] at hkind
  case h_4 => exact h

theorem LinksRetired.relate {j : Nat} {r r' : ResolvedRelationship}
    (h : LinksRetired ids r t.store) :
    LinksRetired ids r (relateMemory clock ids j r' t).store := by
  intro x y hends
  obtain ⟨⟨n, hn, hx⟩, ⟨m, hm, hy⟩, hsupersedes⟩ := h x y hends
  rw [(relateMemory_effect clock ids j r' t).1]
  refine ⟨⟨_, List.mem_map_of_mem hn, hx⟩, ⟨_, List.mem_map_of_mem hm, hy⟩, fun hk => ?_⟩
  refine ⟨(hsupersedes hk).1, fun n' hn' hid => ?_⟩
  obtain ⟨n₀, hn₀, rfl⟩ := List.mem_map.mp hn'
  exact (hsupersedes hk).2 n₀ hn₀ hid

theorem memoryLinks_linked {j : Nat} {l : List ResolvedRelationship} (h : t.store.Linked)
    (hretired : ∀ r ∈ l, LinksRetired ids r t.store) :
    (memoryLinks clock ids j l t).store.Linked := by
  induction l generalizing j t with
  | nil => exact h
  | cons r l ih =>
    exact ih (relateMemory_linked h (hretired r List.mem_cons_self)) fun r' hr' =>
      (hretired r' (List.mem_cons_of_mem _ hr')).relate

theorem memoryDone_linked (hread : read env.toReaderEnv text = .ok d) {t t' : MemoryTables}
    (h : MemoryDone env d t t' ids) (hlinked : t.store.Linked)
    (hretired : PredecessorsRetired env d t.store) : t'.store.Linked := by
  obtain ⟨mint, clock, t₁, hpass, rfl⟩ := h
  obtain ⟨hlinked₁, hgains⟩ := memoryPass_gains hpass hlinked
  have hsettled := forall₂_of_pass (EntrySettled env)
    (fun i e t id? t' _ h => entrySettled_memoryStep h)
    (fun i e t id? t' e' id?' h hs => hs.keep (keepsEntries_memoryStep h)) hpass
  -- an end of a relationship is the row of an entry
  have hend {i : Nat} {x : NoteId} (hx : (ids[i]?).join = some x) :
      ∃ m, d.entities[i]? = some (.memoryEntry m) ∧ ∃ n ∈ t₁.store.rows, n.id = x
        ∧ n.entityId = m.convergenceKey env.sha256 := by
    obtain ⟨hlt, hat⟩ := List.getElem?_eq_some_iff.mp (Option.join_eq_some_iff.mp hx)
    obtain ⟨hlength, hget⟩ := List.forall₂_iff_get.mp hsettled
    have hlt' : i < d.entities.length := by omega
    have hsettled' : EntrySettled env d.entities[i] ids[i] t₁ := hget i hlt' hlt
    rw [List.getElem?_eq_getElem hlt']
    cases he : d.entities[i] with
    | memoryEntry m =>
      rw [he, hat] at hsettled'
      obtain ⟨n, hn, hid, hent, -⟩ := hsettled'
      exact ⟨m, rfl, n, hn, (Option.some.inj hid).symm, hent⟩
    | project p =>
      rw [he, hat] at hsettled'
      exact absurd hsettled' (by simp [EntrySettled])
    | commandUsage u =>
      rw [he, hat] at hsettled'
      exact absurd hsettled' (by simp [EntrySettled])
  refine memoryLinks_linked hlinked₁ fun r hr x y hends => ?_
  obtain ⟨x', hx, hxy⟩ := Option.bind_eq_some_iff.mp hends
  obtain ⟨y', hy, hxy⟩ := Option.map_eq_some_iff.mp hxy
  obtain ⟨rfl, rfl⟩ := Prod.mk.inj hxy
  obtain ⟨m, hm, n, hn, rfl, hent⟩ := hend hx
  obtain ⟨m', hm', n', hn', rfl, hent'⟩ := hend hy
  refine ⟨⟨n, hn, rfl⟩, ⟨n', hn', rfl⟩, fun hk => ⟨fun hid => ?_, fun row hrow hid => ?_⟩⟩
  · -- two entries with one row would have one key
    obtain rfl := List.inj_on_of_nodup_map t₁.store.uuidUnique hn hn' hid
    obtain ⟨hlt, hat⟩ := List.getElem?_eq_some_iff.mp hm
    obtain ⟨hlt', hat'⟩ := List.getElem?_eq_some_iff.mp hm'
    have hapart := List.pairwise_iff_getElem.mp (accepted_apart hread)
    rcases Nat.lt_or_gt_of_ne (accepted_distinct hread r hr) with hlt₁ | hlt₁
    · exact (hapart _ _ hlt hlt' hlt₁ m m' hat hat').1 (hent.symm.trans hent')
    · exact (hapart _ _ hlt' hlt hlt₁ m' m hat' hat).1 (hent'.symm.trans hent)
  · obtain rfl := List.inj_on_of_nodup_map t₁.store.uuidUnique hrow hn' hid
    obtain ⟨hold, hnew⟩ := hretired r hr hk m' hm'
    rcases hgains.rows row hrow with ⟨r₀, hr₀, hr₀ent, hstatus⟩ | ⟨hnone, m₀, hm₀, hkey, hstatus⟩
    · exact hstatus ▸ hold r₀ hr₀ (hr₀ent.trans hent')
    · -- the entry with this key in the dump is the relationship's
      obtain rfl : m₀ = m' := by
        by_contra hne
        obtain ⟨k, hk', hat₀⟩ := List.getElem_of_mem hm₀
        obtain ⟨hlt', hat'⟩ := List.getElem?_eq_some_iff.mp hm'
        have hapart := List.pairwise_iff_getElem.mp (accepted_apart hread)
        have hkeys : m₀.convergenceKey env.sha256 = m'.convergenceKey env.sha256 :=
          hkey.trans hent'
        rcases Nat.lt_trichotomy k r.target with hlt₁ | rfl | hlt₁
        · exact (hapart _ _ hk' hlt' hlt₁ m₀ m' hat₀ hat').1 hkeys
        · exact hne (Entity.memoryEntry.inj (hat₀.symm.trans hat'))
        · exact (hapart _ _ hlt' hk' hlt₁ m' m₀ hat' hat₀).1 hkeys.symm
      exact hstatus ▸ hnew fun r₀ hr₀ hr₀ent => hnone r₀ hr₀ (hr₀ent.trans hent'.symm)

/-- An import of an accepted dump, whatever becomes of the other stores. -/
theorem apply_linked (hread : read env.toReaderEnv text = .ok d) (a : Attempt) {s : Stores}
    (hlinked : s.memory.store.Linked) (hretired : PredecessorsRetired env d s.memory.store) :
    (apply env a d s).1.memory.store.Linked := by
  have hdone {p : Progress} (hwrite : write env a d s = .ok p) : p.writes.memory.store.Linked := by
    obtain ⟨-, -, -, -, hall⟩ := write_eq_ok_iff.mp hwrite
    obtain ⟨-, ids, projects, hmemory, -⟩ := writeAll_done hall
    exact memoryDone_linked hread hmemory hlinked hretired
  rcases apply_cases env a d s with ⟨e, h⟩ | ⟨p, hwrite, -, hcase⟩
  · rw [h]
    exact hlinked
  · rcases hcase with ⟨-, -, h⟩ | ⟨-, -, h⟩ | ⟨-, -, ⟨-, h⟩ | ⟨-, o, h⟩⟩
    all_goals
      rw [h]
      exact hdone hwrite

/-! ## Runs -/

/-- An operation that `Admits` allows keeps what every write should keep. -/
theorem step_linked (h : s.Linked) {op : MemoryOp}
    (hadmits : Admits env s op) : (step env s op).Linked := by
  -- each writer of the store keeps its links, for its own reason
  cases op with
  | write w =>
    show (if w.resolves s then applyWrite env.store s w else s).Linked
    split
    case isTrue hresolves => exact h.applyWrite env.store hresolves
    case isFalse => exact h
  | dedupe dryRun =>
    cases dryRun with
    | true => simpa [step, Store.dedupeEntityIds] using h
    | false =>
      have hids : (s.allNotesForDedup.map Note.id).Nodup :=
        ((sortBy_perm _ _).map _).nodup_iff.mpr s.uuidUnique
      obtain ⟨s', hdedupe, heffect⟩ := Store.dedupeEntityIds_eq env.store s
      show (((s.dedupeEntityIds env.store false).map Prod.snd).getD s).Linked
      rw [hdedupe]
      exact h.dedupe heffect (hadmits rfl) fun n t => not_isLoser_keptSuccessor hids
  | importGitNotes mint listed carried superseded =>
    show (match readRef env.sha256 listed carried superseded with
      | some ref => importRef (importEnv env) mint ref s
      | none => s).Linked
    split
    case h_1 ref href => exact importRef_linked h mint (hadmits ref href)
    case h_2 => exact h
  | importDump text a edgeTimes embedded registry indexDb =>
    cases hread : read env.toReaderEnv text with
    | ok d =>
      rw [step_importDump hread]
      exact apply_linked hread a h (hadmits d hread)
    | error e =>
      simp only [step, hread]
      exact h

/-- In every run whose operations are all admitted the three records of a succession
    agree in every store. -/
theorem eachState_succession (env : ApplyEnv) (ops : List MemoryOp)
    (hadmits : EachStep (step env) (Admits env) Store.empty ops) :
    EachState (step env) Store.Succession Store.empty ops := by
  have hlinked : EachState (step env) Store.Linked Store.empty ops :=
    eachState_of_inv (fun _ _ h hop => step_linked h hop) Store.linked_empty hadmits
  exact hlinked.imp (step env) fun _ h => h.succession

/-! ## A dump whose superseded entry is active -/

/-- A machine that reads the samples. -/
def sampleApplyEnv : ApplyEnv :=
  { sampleEnv.toReaderEnv with
    normalizeTag := fun tag => if tag.isEmpty then none else some tag
    linkPath := fun path => if path.isEmpty then none else some path
    escapes := fun path => path = "../x" }

/-- The dump in which `e2` replaced `e1`, and neither has a status. -/
def replacedDump : Dump :=
  ⟨[.memoryEntry (entryOf "e1" "a"), .memoryEntry (entryOf "e2" "b")],
    [⟨.supersedes, 1, 0, some 10⟩], 0⟩

def replacedText : String := sampleDump (sampleBody ",\"created_at\":10" "")

def importReplaced : MemoryOp :=
  .importDump replacedText (attemptAt (fun _ => false) 1) [] [] none .notSupplied

theorem read_replacedText : read sampleApplyEnv.toReaderEnv replacedText = .ok replacedDump := by
  have hone := sampleBody_one_line ",\"created_at\":10" "" (by decide) (by decide)
  obtain ⟨hrecords, hentries, d, hread⟩ := @read_sampleDump _ _ (some 10) none hone
    (by decide +kernel) (by decide +kernel)
  show read sampleEnv.toReaderEnv replacedText = _
  rw [replacedText, hread]
  rw [read_of_lines _ (splitLines_sampleDump hone)] at hread
  obtain ⟨-, -, -, -, resolved, hres, rfl⟩ := readFramed_eq_ok_iff.mp hread
  rw [hentries, hrecords] at hres
  rw [hentries]
  have hresolved : resolve [.memoryEntry (entryOf "e1" "a"), .memoryEntry (entryOf "e2" "b")]
      (dedupe [⟨.supersedes, "e2", "e1", some 10⟩, ⟨.supersedes, "e2", "e1", none⟩])
        = .ok [⟨.supersedes, 1, 0, some 10⟩] := by decide +kernel
  obtain rfl := Except.ok.inj (hres.symm.trans hresolved)
  exact congrArg Except.ok (by decide +kernel)

/-- Imported into an empty store, it leaves the entry it says is replaced active, and the
    column and the edge say otherwise. -/
theorem not_succession_of_active_predecessor :
    read sampleApplyEnv.toReaderEnv replacedText = .ok replacedDump
      ∧ ¬ EachState (step sampleApplyEnv) Store.Succession Store.empty [importReplaced] := by
  refine ⟨read_replacedText, fun h => ?_⟩
  have hsuccession : (step sampleApplyEnv Store.empty importReplaced).Succession := h.2
  rw [importReplaced, step_importDump read_replacedText] at hsuccession
  have hactive : ∃ n ∈ (apply sampleApplyEnv (attemptAt (fun _ => false) 1) replacedDump
      ⟨⟨Store.empty, [], []⟩, none, .notSupplied⟩).1.memory.store.rows,
      n.supersededBy = some ⟨"1"⟩ ∧ n.status = "active" := by decide +kernel
  obtain ⟨n, hn, hsuperseded, hstatus⟩ := hactive
  exact (hsuccession.successor n hn _ hsuperseded).2.2.1 hstatus

/-- The commands that lead to the same two entries. -/
def replacingWrites : List MemoryOp :=
  [.write (.add ⟨"u1"⟩ 1 ⟨"note", "a", "", [], [], none, none⟩),
    .write (.addSuperseding ⟨"u2"⟩ 2 2 ⟨"note", "b", "", [], [], none, none⟩ ⟨"u1"⟩),
    .dedupe false]

/-- Where they were given, importing the dump changes nothing that matters. -/
theorem eachState_succession_of_replaced :
    EachState (step sampleApplyEnv) Store.Succession Store.empty
      (replacingWrites ++ [importReplaced]) := by
  refine eachState_succession sampleApplyEnv _ (eachStep_append (step sampleApplyEnv) |>.mpr
    ⟨⟨trivial, trivial, fun _ => by decide +kernel, trivial⟩, fun d hread => ?_, trivial⟩)
  obtain rfl : replacedDump = d := Except.ok.inj (read_replacedText.symm.trans hread)
  intro r hr _ m hm
  obtain rfl : r = ⟨.supersedes, 1, 0, some 10⟩ := by simpa [replacedDump] using hr
  obtain rfl : entryOf "e1" "a" = m := by simpa [replacedDump] using hm
  constructor
  · decide +kernel
  · intro hnone
    revert hnone
    decide +kernel

end Succession
end Inkentry
