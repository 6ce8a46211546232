/-
  Inkentry.Dump.Reimport

  Importing a dump into stores that have taken it before.

  Each part of the memory store's and the registry's import leaves something
  behind that says "done": a row that holds the entry's convergence key, its tags
  and its files (`EntrySettled`), a registered root (`ProjectSettled`), an edge.
  Done things are passed over, so a second import lands where the first did and
  changes neither store (`memory_again`, `registry_again`), whichever ids and
  times it would have brought.  The column `superseded_by` is the exception: it
  is overwritten each time, so its value on the way may differ, and only what it
  ends with is the same (`relink_relink`).  Nothing of the kind holds of recorded
  commands.
-/

import Inkentry.Dump.StorePasses

namespace Inkentry
namespace PortableDump

open Memory Pass SortedSet

variable {env : ApplyEnv}

/-! ## Entries -/

variable {tags linkedFiles : List String} {t t' : MemoryTables} {e : Entity} {mint : Nat → NoteId}
  {i : Nat}
variable {id? : Option NoteId} {s s' : Store} {origin : Option Origin} {created : Bool}
  {id : NoteId}

/-- An entry that goes in lands on a row with its key, and nothing else becomes of the
    store but what attaching tags and files and stamping an origin do. -/
theorem importEntry_eq_ok {n : Note}
    (h : importEntry env s n tags linkedFiles origin = .ok (id, created, s')) :
    ∃ s₁, s.insertOrRecover env.store n tags linkedFiles = some (id, created, s₁)
      ∧ linkedFiles.find? env.refuses = none
      ∧ (s' = s₁ ∨ created = true ∧ ∃ o, s' = s₁.setOrigin id o) := by
  rw [importEntry] at h
  split at h
  case h_1 => exact absurd h (by simp)
  case h_2 id₁ created₁ s₁ hins =>
    split at h
    case h_1 => exact absurd h (by simp)
    case h_2 hfind =>
      split at h
      case h_1 o =>
        simp only [Except.ok.injEq, Prod.mk.injEq] at h
        obtain ⟨rfl, rfl, rfl⟩ := h
        exact ⟨s₁, hins, hfind, .inr ⟨rfl, o, rfl⟩⟩
      case h_2 =>
        simp only [Except.ok.injEq, Prod.mk.injEq] at h
        obtain ⟨rfl, rfl, rfl⟩ := h
        exact ⟨s₁, hins, hfind, .inl rfl⟩

/-- A row that holds an entry: its key, its tags and its files. -/
def HoldsEntry (env : ApplyEnv) (m : MemoryEntry) (row : Note) : Prop :=
  row.entityId = m.convergenceKey env.sha256
    ∧ unionInto row.tags (m.tags.filterMap env.normalizeTag) = row.tags
    ∧ unionInto row.linkedFiles (m.linkedFiles.filterMap env.linkPath) = row.linkedFiles

/-- An entity that has been imported and landed on the row `id?` of the memory store. -/
def EntrySettled (env : ApplyEnv) (e : Entity) (id? : Option NoteId) (t : MemoryTables) : Prop :=
  match e with
  | .memoryEntry m => ∃ row ∈ t.store.rows, id? = some row.id ∧ HoldsEntry env m row
  | _ => id? = none

theorem unionInto_unionInto (base other : List String) :
    unionInto (unionInto base other) other = unionInto base other := by
  refine sortDedup_congr fun a => ?_
  simp only [unionInto, List.mem_append, mem_sortDedup]
  tauto

theorem unionInto_of_held {base held : List String} (h : unionInto base held = base)
    (other : List String) : unionInto (unionInto base other) held = unionInto base other := by
  refine sortDedup_congr fun a => ?_
  have hmem : a ∈ held → a ∈ base := by
    intro ha
    rw [← h, unionInto, mem_sortDedup]
    exact List.mem_append_right _ ha
  simp only [unionInto, List.mem_append, mem_sortDedup]
  tauto

theorem holdsEntry_attach {m : MemoryEntry} {row : Note}
    (hkey : row.entityId = m.convergenceKey env.sha256) :
    HoldsEntry env m ((attachEdit env.store m.tags m.linkedFiles).apply row) :=
  ⟨hkey, unionInto_unionInto _ _, unionInto_unionInto _ _⟩

theorem HoldsEntry.attach {m : MemoryEntry} {row : Note} (h : HoldsEntry env m row)
    (tags linkedFiles : List String) :
    HoldsEntry env m ((attachEdit env.store tags linkedFiles).apply row) :=
  ⟨h.1, unionInto_of_held h.2.1 _, unionInto_of_held h.2.2 _⟩

/-- Writing a store keeps its rows' ids and what they hold. -/
def KeepsEntries (env : ApplyEnv) (s s' : Store) : Prop :=
  ∀ row ∈ s.rows, ∃ row' ∈ s'.rows, row'.id = row.id
    ∧ ∀ m, HoldsEntry env m row → HoldsEntry env m row'

theorem KeepsEntries.trans {s s₁ s₂ : Store} (h₁ : KeepsEntries env s s₁)
    (h₂ : KeepsEntries env s₁ s₂) : KeepsEntries env s s₂ := by
  intro row hrow
  obtain ⟨row₁, hrow₁, hid₁, hholds₁⟩ := h₁ row hrow
  obtain ⟨row₂, hrow₂, hid₂, hholds₂⟩ := h₂ row₁ hrow₁
  exact ⟨row₂, hrow₂, hid₂.trans hid₁, fun m hm => hholds₂ m (hholds₁ m hm)⟩

theorem KeepsEntries.of_mem (h : ∀ row ∈ s.rows, row ∈ s'.rows) : KeepsEntries env s s' :=
  fun row hrow => ⟨row, h row hrow, rfl, fun _ hm => hm⟩

theorem KeepsEntries.edit {e : RowEdit} (h : ∀ m n, HoldsEntry env m n → HoldsEntry env m (e.apply n))
    (s : Store) (p : Note → Bool) : KeepsEntries env s (s.edit e p) := by
  intro row hrow
  refine ⟨if p row then e.apply row else row, List.mem_map_of_mem hrow, ?_, fun m hm => ?_⟩
  · split
    · exact e.id_apply row
    · rfl
  · split
    · exact h m row hm
    · exact hm

theorem keepsEntries_insertOrRecover {n : Note}
    (h : s.insertOrRecover env.store n tags linkedFiles = some (id, created, s')) :
    KeepsEntries env s s' := by
  have hattach (s₁ : Store) (id : NoteId) :
      KeepsEntries env s₁ (s₁.attachTagsAndFiles env.store id tags linkedFiles) :=
    KeepsEntries.edit (fun m n hm => hm.attach tags linkedFiles) s₁ _
  rcases Store.insertOrRecover_cases h with ⟨-, -, s₁, hins, rfl⟩ | ⟨-, row, -, -, -, rfl⟩
  · refine KeepsEntries.trans (KeepsEntries.of_mem ?_) (hattach s₁ n.id)
    intro row hrow
    rw [(Store.insertRow_eq_some hins).1]
    exact List.mem_append_left _ hrow
  · exact hattach s row.id

theorem keepsEntries_importEntry {n : Note}
    (h : importEntry env s n tags linkedFiles origin = .ok (id, created, s')) :
    KeepsEntries env s s' := by
  obtain ⟨s₁, hins, -, rfl | ⟨-, o, rfl⟩⟩ := importEntry_eq_ok h
  · exact keepsEntries_insertOrRecover hins
  · exact (keepsEntries_insertOrRecover hins).trans
      (KeepsEntries.edit (fun m n hm => hm) s₁ _)

theorem EntrySettled.keep (hkeep : KeepsEntries env t.store t'.store)
    (h : EntrySettled env e id? t) : EntrySettled env e id? t' := by
  cases e with
  | memoryEntry m =>
    obtain ⟨row, hrow, hid, hholds⟩ := h
    obtain ⟨row', hrow', hid', hholds'⟩ := hkeep row hrow
    exact ⟨row', hrow', by rw [hid, hid'], hholds' m hholds⟩
  | project => exact h
  | commandUsage => exact h

theorem keepsEntries_memoryStep
    (h : memoryStep env mint i e t = .ok (id?, t')) : KeepsEntries env t.store t'.store := by
  cases e with
  | memoryEntry m =>
    obtain ⟨⟨id, created, store⟩, himport, h⟩ := bind_eq_ok_iff.mp h
    obtain ⟨-, rfl⟩ := Prod.mk.inj (Except.ok.inj h)
    exact keepsEntries_importEntry himport
  | project =>
    obtain ⟨-, rfl⟩ := Prod.mk.inj (Except.ok.inj h)
    exact KeepsEntries.of_mem fun _ hrow => hrow
  | commandUsage =>
    obtain ⟨-, rfl⟩ := Prod.mk.inj (Except.ok.inj h)
    exact KeepsEntries.of_mem fun _ hrow => hrow

theorem entrySettled_memoryStep
    (h : memoryStep env mint i e t = .ok (id?, t')) : EntrySettled env e id? t' := by
  cases e with
  | memoryEntry m =>
    obtain ⟨⟨id, created, store⟩, himport, h⟩ := bind_eq_ok_iff.mp h
    obtain ⟨rfl, rfl⟩ := Prod.mk.inj (Except.ok.inj h)
    have hrow {s : Store} {row : Note} (hmem : row ∈ s.rows)
        (hkey : row.entityId = m.convergenceKey env.sha256) :
        ∃ row' ∈ (s.attachTagsAndFiles env.store row.id m.tags m.linkedFiles).rows,
          row'.id = row.id ∧ HoldsEntry env m row' := by
      refine ⟨_, List.mem_map_of_mem hmem, ?_, ?_⟩
      · simp [attachEdit]
      · simpa using holdsEntry_attach hkey
    obtain ⟨s₁, hins, -, hs'⟩ := importEntry_eq_ok himport
    -- inserted or recovered, the row has the tags and files of the entry
    have hlanded : ∃ row ∈ s₁.rows, row.id = id ∧ HoldsEntry env m row := by
      rcases Store.insertOrRecover_cases hins with
        ⟨-, rfl, s₂, hinsert, rfl⟩ | ⟨-, row, hmem, hkey, rfl, rfl⟩
      · refine @hrow s₂ (m.row env (m.uuidOr (mint i))) ?_ rfl
        rw [(Store.insertRow_eq_some hinsert).1]
        simp
      · exact hrow hmem hkey
    obtain ⟨row, hmem, rfl, hholds⟩ := hlanded
    rcases hs' with rfl | ⟨-, o, rfl⟩
    · exact ⟨row, hmem, rfl, hholds⟩
    · have hkeep : KeepsEntries env s₁ (s₁.setOrigin row.id o) :=
        KeepsEntries.edit (fun m n hm => hm) s₁ _
      obtain ⟨row', hmem', hid', hholds'⟩ := hkeep row hmem
      exact ⟨row', hmem', by rw [hid'], hholds' m hholds⟩
  | project =>
    obtain ⟨rfl, rfl⟩ := Prod.mk.inj (Except.ok.inj h)
    rfl
  | commandUsage =>
    obtain ⟨rfl, rfl⟩ := Prod.mk.inj (Except.ok.inj h)
    rfl

/-- A settled entity that comes in again lands where it is, and nothing is written. -/
theorem memoryStep_of_settled {id? id?' : Option NoteId} (hsettled : EntrySettled env e id? t)
    (h : memoryStep env mint i e t = .ok (id?', t')) : id?' = id? ∧ t' = t := by
  cases e with
  | memoryEntry m =>
    obtain ⟨row, hmem, rfl, hkey, htags, hfiles⟩ := hsettled
    obtain ⟨⟨id, created, store⟩, himport, h⟩ := bind_eq_ok_iff.mp h
    obtain ⟨rfl, rfl⟩ := Prod.mk.inj (Except.ok.inj h)
    obtain ⟨s₁, hins, -, hs'⟩ := importEntry_eq_ok himport
    have hfound := Store.insertOrRecover_of_mem env.store (m.row env (m.uuidOr (mint i))) m.tags
      m.linkedFiles hmem hkey
    rw [hfound, Option.some.injEq, Prod.mk.injEq, Prod.mk.injEq] at hins
    obtain ⟨rfl, rfl, rfl⟩ := hins
    -- the row has everything already, so attaching changes nothing
    have hsame : t.store.attachTagsAndFiles env.store row.id m.tags m.linkedFiles = t.store := by
      refine Store.edit_eq_self fun n hn hid => ?_
      obtain rfl := List.inj_on_of_nodup_map t.store.uuidUnique hn hmem (by simpa using hid)
      show { n with
        tags := unionInto n.tags (m.tags.filterMap env.normalizeTag)
        linkedFiles := unionInto n.linkedFiles (m.linkedFiles.filterMap env.linkPath) } = n
      rw [htags, hfiles]
    obtain rfl : store = t.store := by
      rcases hs' with rfl | ⟨hcreated, -⟩
      · exact hsame
      · exact absurd hcreated (by simp)
    exact ⟨rfl, rfl⟩
  | project =>
    obtain ⟨rfl, rfl⟩ := Prod.mk.inj (Except.ok.inj h)
    exact ⟨hsettled.symm, rfl⟩
  | commandUsage =>
    obtain ⟨rfl, rfl⟩ := Prod.mk.inj (Except.ok.inj h)
    exact ⟨hsettled.symm, rfl⟩

/-! ## Edges and successors -/

variable {clock : Step → Int}
variable {ids : List (Option NoteId)}

/-- The edge a relationship stands for. -/
def edgeOf (ids : List (Option NoteId)) (r : ResolvedRelationship) : Option MemoryEdge :=
  if r.kind = .dependsOn then none
  else (ends ids r).map fun p => ⟨p.1, p.2, r.kind.asStr⟩

/-- The successor a relationship gives a row. -/
def successorOf (ids : List (Option NoteId)) (id : NoteId) (r : ResolvedRelationship) :
    Option NoteId :=
  if r.kind = .supersedes then
    (ends ids r).bind fun p => if p.2 = id then some p.1 else none
  else none

/-- The successor some relationships leave a row with. -/
def lastSuccessor (ids : List (Option NoteId)) (l : List ResolvedRelationship) (id : NoteId) :
    Option NoteId :=
  (l.filterMap (successorOf ids id)).getLast?

/-- A row once they are recorded. -/
def relink (ids : List (Option NoteId)) (l : List ResolvedRelationship) (n : Note) : Note :=
  { n with supersededBy := (lastSuccessor ids l n.id).or n.supersededBy }

theorem relink_relink (ids : List (Option NoteId)) (l : List ResolvedRelationship) (n : Note) :
    relink ids l (relink ids l n) = relink ids l n := by
  simp only [relink]
  cases lastSuccessor ids l n.id <;> rfl

theorem relink_cons (ids : List (Option NoteId)) (r : ResolvedRelationship)
    (l : List ResolvedRelationship) (n : Note) :
    relink ids l (relink ids [r] n) = relink ids (r :: l) n := by
  simp only [relink, lastSuccessor, List.filterMap_cons, List.filterMap_nil]
  cases successorOf ids n.id r with
  | none => simp
  | some x => cases h : (l.filterMap (successorOf ids n.id)).getLast? <;> simp [List.getLast?_cons, h]

/-- What the relationships from position `j` on do to the memory store. -/
def memoryLinks (clock : Step → Int) (ids : List (Option NoteId)) :
    Nat → List ResolvedRelationship → MemoryTables → MemoryTables
  | _, [], t => t
  | j, r :: rest, t => memoryLinks clock ids (j + 1) rest (relateMemory clock ids j r t)

theorem importEdge_rows (t : MemoryTables) (e : MemoryEdge) (createdAt : Option Int) (now : Int) :
    (t.importEdge e createdAt now).2.store.rows = t.store.rows := by
  rw [MemoryTables.importEdge]
  split <;> simp

theorem importEdge_edges (t : MemoryTables) (e : MemoryEdge) (createdAt : Option Int) (now : Int) :
    e ∈ (t.importEdge e createdAt now).2.store.edges
      ∧ ∀ e' ∈ t.store.edges, e' ∈ (t.importEdge e createdAt now).2.store.edges := by
  rw [MemoryTables.importEdge]
  split
  case isTrue hmem => exact ⟨hmem, fun _ h => h⟩
  case isFalse hmem =>
    simp only [Store.insertEdge, if_neg hmem]
    exact ⟨by simp, fun e' h => List.mem_append_left _ h⟩

/-- What one relationship does to the rows and the edges. -/
theorem relateMemory_effect (clock : Step → Int) (ids : List (Option NoteId)) (j : Nat)
    (r : ResolvedRelationship) (t : MemoryTables) :
    (relateMemory clock ids j r t).store.rows = t.store.rows.map (relink ids [r])
      ∧ (∀ e ∈ edgeOf ids r, e ∈ (relateMemory clock ids j r t).store.edges)
      ∧ ∀ e ∈ t.store.edges, e ∈ (relateMemory clock ids j r t).store.edges := by
  have hplain (h : r.kind ≠ .supersedes) : relink ids [r] = id := by
    funext n
    simp [relink, lastSuccessor, successorOf, h]
  -- any other edge goes in and leaves the rows
  have hlink (x y : NoteId) (hsup : r.kind ≠ .supersedes) (hdep : r.kind ≠ .dependsOn)
      (hends : ends ids r = some (x, y)) :
      (t.importEdge ⟨x, y, r.kind.asStr⟩ r.createdAt (clock (.relate j))).2.store.rows
          = t.store.rows.map (relink ids [r])
        ∧ (∀ e ∈ edgeOf ids r,
          e ∈ (t.importEdge ⟨x, y, r.kind.asStr⟩ r.createdAt (clock (.relate j))).2.store.edges)
        ∧ ∀ e ∈ t.store.edges,
          e ∈ (t.importEdge ⟨x, y, r.kind.asStr⟩ r.createdAt (clock (.relate j))).2.store.edges := by
    refine ⟨?_, ?_, fun e he => (importEdge_edges _ _ _ _).2 e he⟩
    · rw [importEdge_rows, hplain hsup, List.map_id]
    · intro e he
      simp only [edgeOf, if_neg hdep, hends, Option.map_some, Option.mem_def] at he
      obtain rfl := Option.some.inj he
      exact (importEdge_edges _ _ _ _).1
  rw [relateMemory]
  split
  -- `supersedes` writes an edge and the successor of the row it names
  case h_1 successor predecessor hk hends =>
    refine ⟨?_, ?_, fun e he => (importEdge_edges _ _ _ _).2 e he⟩
    · show ((t.importEdge _ _ _).2.store.setSupersededBy predecessor successor).rows = _
      rw [Store.setSupersededBy, Store.edit_rows, importEdge_rows]
      refine List.map_congr_left fun n _ => ?_
      by_cases hn : predecessor = n.id
      · subst hn
        simp [linkEdit, relink, lastSuccessor, successorOf, hk, hends]
      · simp [relink, lastSuccessor, successorOf, hk, hends, hn, Ne.symm hn]
    · intro e he
      simp only [edgeOf, hk, hends, Option.map_some, Option.mem_def] at he
      obtain rfl := Option.some.inj he
      rw [hk]
      exact (importEdge_edges _ _ _ _).1
  case h_2 x y hk hends => exact hlink x y (by simp [hk]) (by simp [hk]) hends
  case h_3 x y hk hends => exact hlink x y (by simp [hk]) (by simp [hk]) hends
  -- `depends_on` is for the registry; ends that did not land leave the store alone
  case h_4 hsup hrel hcon =>
    have hnone : r.kind = .dependsOn ∨ ends ids r = none := by
      cases hends : ends ids r with
      | none => exact .inr rfl
      | some p =>
        cases hk : r.kind with
        | dependsOn => exact .inl rfl
        | supersedes => exact (hsup p.1 p.2 hk hends).elim
        | relatesTo => exact (hrel p.1 p.2 hk hends).elim
        | contradicts => exact (hcon p.1 p.2 hk hends).elim
    refine ⟨?_, ?_, fun e he => he⟩
    · have hid : relink ids [r] = id := by
        funext n
        rcases hnone with h | h <;> simp [relink, lastSuccessor, successorOf, h]
      rw [hid, List.map_id]
    · rcases hnone with h | h <;> simp [edgeOf, h]

theorem memoryLinks_effect (clock : Step → Int) (ids : List (Option NoteId)) (j : Nat)
    (l : List ResolvedRelationship) (t : MemoryTables) :
    (memoryLinks clock ids j l t).store.rows = t.store.rows.map (relink ids l)
      ∧ (∀ r ∈ l, ∀ e ∈ edgeOf ids r, e ∈ (memoryLinks clock ids j l t).store.edges)
      ∧ ∀ e ∈ t.store.edges, e ∈ (memoryLinks clock ids j l t).store.edges := by
  induction l generalizing j t with
  | nil =>
    have hid : relink ids [] = id := by
      funext n
      simp [relink, lastSuccessor]
    exact ⟨by rw [hid, List.map_id]; rfl, by simp, fun e he => he⟩
  | cons r l ih =>
    obtain ⟨hrows, hedge, hold⟩ := relateMemory_effect clock ids j r t
    obtain ⟨hrows', hedges', hold'⟩ := ih (j + 1) (relateMemory clock ids j r t)
    refine ⟨?_, ?_, fun e he => hold' e (hold e he)⟩
    · rw [memoryLinks, hrows', hrows, List.map_map]
      exact List.map_congr_left fun n _ => relink_cons ids r l n
    · intro r' hr' e he
      rcases List.mem_cons.mp hr' with rfl | hr'
      · exact hold' e (hedge e he)
      · exact hedges' r' hr' e he

theorem relateMemory_of_edge {j : Nat} {r : ResolvedRelationship} {t : MemoryTables}
    (h : ∀ e ∈ edgeOf ids r, e ∈ t.store.edges) :
    (relateMemory clock ids j r t).store.edges = t.store.edges
      ∧ (relateMemory clock ids j r t).edgeTimes = t.edgeTimes
      ∧ (relateMemory clock ids j r t).embedded = t.embedded := by
  have himport {x y : NoteId} (hk : r.kind ≠ .dependsOn) (hends : ends ids r = some (x, y)) :
      t.importEdge ⟨x, y, r.kind.asStr⟩ r.createdAt (clock (.relate j)) = (false, t) := by
    refine if_pos (h _ ?_)
    simp [edgeOf, hk, hends]
  rw [relateMemory]
  split
  case h_1 successor predecessor hk hends =>
    simp only [himport (by simp [hk]) hends]
    exact ⟨rfl, trivial, trivial⟩
  case h_2 x y hk hends =>
    rw [himport (by simp [hk]) hends]
    exact ⟨rfl, rfl, rfl⟩
  case h_3 x y hk hends =>
    rw [himport (by simp [hk]) hends]
    exact ⟨rfl, rfl, rfl⟩
  case h_4 => exact ⟨rfl, rfl, rfl⟩

theorem memoryLinks_of_edges {j : Nat} {l : List ResolvedRelationship} {t : MemoryTables}
    (h : ∀ r ∈ l, ∀ e ∈ edgeOf ids r, e ∈ t.store.edges) :
    (memoryLinks clock ids j l t).store.edges = t.store.edges
      ∧ (memoryLinks clock ids j l t).edgeTimes = t.edgeTimes
      ∧ (memoryLinks clock ids j l t).embedded = t.embedded := by
  induction l generalizing j t with
  | nil => exact ⟨rfl, rfl, rfl⟩
  | cons r l ih =>
    obtain ⟨hedges, htimes, hembedded⟩ := @relateMemory_of_edge clock ids j r t
      (h r List.mem_cons_self)
    obtain ⟨hedges', htimes', hembedded'⟩ := @ih (j + 1) (relateMemory clock ids j r t)
      fun r' hr' e he => hedges ▸ h r' (List.mem_cons_of_mem _ hr') e he
    exact ⟨hedges'.trans hedges, htimes'.trans htimes, hembedded'.trans hembedded⟩

/-- Recording the relationships again changes nothing, although the columns they set are
    set again. -/
theorem memoryLinks_again (clock clock' : Step → Int) (ids : List (Option NoteId)) (j : Nat)
    (l : List ResolvedRelationship) (t : MemoryTables) :
    memoryLinks clock' ids j l (memoryLinks clock ids j l t) = memoryLinks clock ids j l t := by
  obtain ⟨hrows, hedges, -⟩ := memoryLinks_effect clock ids j l t
  obtain ⟨hrows', -, -⟩ := memoryLinks_effect clock' ids j l (memoryLinks clock ids j l t)
  obtain ⟨hsame, htimes, hembedded⟩ := @memoryLinks_of_edges clock' ids j l _ hedges
  refine MemoryTables.ext (Store.ext ?_ hsame) htimes hembedded
  rw [hrows', hrows, List.map_map]
  exact List.map_congr_left fun n _ => relink_relink ids l n

theorem keepsEntries_memoryLinks (clock : Step → Int) (ids : List (Option NoteId)) (j : Nat)
    (l : List ResolvedRelationship) (t : MemoryTables) :
    KeepsEntries env t.store (memoryLinks clock ids j l t).store := by
  intro row hrow
  refine ⟨relink ids l row, ?_, rfl, fun m hm => hm⟩
  rw [(memoryLinks_effect clock ids j l t).1]
  exact List.mem_map_of_mem hrow

theorem memory_settled {d : Dump} {t t₁ : MemoryTables} (clock : Step → Int)
    (h : memoryPass env mint d t = .ok (ids, t₁)) :
    List.Forall₂ (fun e id? => EntrySettled env e id? (memoryLinks clock ids 0 d.relationships t₁))
      d.entities ids := by
  have hsettled := forall₂_of_pass (EntrySettled env)
    (fun i e t id? t' _ h => entrySettled_memoryStep h)
    (fun i e t id? t' e' id?' h hs => hs.keep (keepsEntries_memoryStep h)) h
  exact hsettled.imp fun e id? hs =>
    hs.keep (keepsEntries_memoryLinks clock ids 0 d.relationships t₁)

/-- A second import of the memory store's part lands where the first did and changes
    nothing. -/
theorem memory_again {mint mint' : Nat → NoteId} {d : Dump} {t t₁ t₂ : MemoryTables}
    {ids ids' : List (Option NoteId)} {clock clock' : Step → Int}
    (h : memoryPass env mint d t = .ok (ids, t₁))
    (h' : memoryPass env mint' d (memoryLinks clock ids 0 d.relationships t₁) = .ok (ids', t₂)) :
    ids' = ids ∧ memoryLinks clock' ids' 0 d.relationships t₂
      = memoryLinks clock ids 0 d.relationships t₁ := by
  obtain ⟨rfl, rfl⟩ := pass_of_settled (EntrySettled env)
    (fun i e id? id?' t' _ hs h => memoryStep_of_settled hs h) (memory_settled clock h) h'
  exact ⟨rfl, memoryLinks_again clock clock' ids' 0 d.relationships t₁⟩

/-! ## Projects -/

variable {r? r?' : Option Registry} {newId : Nat → Nat}
variable {p : RegisteredProject}

/-- An entity that has been imported and landed on the row `id?` of the registry. -/
def ProjectSettled (e : Entity) (id? : Option Nat) (r? : Option Registry) : Prop :=
  match e with
  | .project q => ∃ r, r? = some r ∧ ∃ p ∈ r.projects, id? = some p.id ∧ p.rootPath = q.rootPath
      ∧ p.dbPath = joinPath (joinPath q.rootPath ".inkentry") "index.db"
  | _ => id? = none

/-- What the relationships do to the registry. -/
def registryLinks (projects : List (Option Nat)) (l : List ResolvedRelationship) (g : Registry) :
    Registry :=
  l.foldl (fun g r => relateRegistry projects r g) g

theorem Registry.projectAt?_eq_some_iff {r : Registry} {rootPath : String} :
    r.projectAt? rootPath = some p ↔ p ∈ r.projects ∧ p.rootPath = rootPath := by
  rw [Registry.projectAt?]
  constructor
  · intro h
    exact ⟨List.mem_of_find?_eq_some h, by simpa using List.find?_some h⟩
  · rintro ⟨hmem, rfl⟩
    have hsome : (r.projects.find? fun q => decide (q.rootPath = p.rootPath)).isSome :=
      List.find?_isSome.mpr ⟨p, hmem, by simp⟩
    obtain ⟨q, hq⟩ := Option.isSome_iff_exists.mp hsome
    have hroot : q.rootPath = p.rootPath := by simpa using List.find?_some hq
    rw [hq, List.inj_on_of_nodup_map r.rootUnique (List.mem_of_find?_eq_some hq) hmem hroot]

/-- Registering a root leaves it in the registry, and every other project as it was. -/
theorem register_eq_ok {r r' : Registry} {newId id : Nat} {now : Int} {rootPath dbPath : String}
    (h : r.register newId now rootPath dbPath = .ok (id, r')) :
    (∃ p ∈ r'.projects, p.id = id ∧ p.rootPath = rootPath ∧ p.dbPath = dbPath)
      ∧ (∀ p ∈ r.projects, ∃ p' ∈ r'.projects, p'.id = p.id ∧ p'.rootPath = p.rootPath
        ∧ (p'.dbPath = p.dbPath ∨ p.rootPath = rootPath ∧ p'.dbPath = dbPath))
      ∧ r'.deps = r.deps := by
  rw [Registry.register] at h
  split at h
  -- a known path gets the new database, and keeps its id
  case h_1 p hp =>
    obtain ⟨hmem, hroot⟩ := Registry.projectAt?_eq_some_iff.mp hp
    obtain ⟨rfl, rfl⟩ := Prod.mk.inj (Except.ok.inj h)
    refine ⟨⟨_, List.mem_map_of_mem hmem, ?_⟩, ?_, rfl⟩
    · rw [if_pos hroot]
      exact ⟨rfl, hroot, rfl⟩
    · intro q hq
      refine ⟨_, List.mem_map_of_mem hq, ?_⟩
      by_cases hqroot : q.rootPath = rootPath
      · rw [if_pos hqroot]
        exact ⟨rfl, rfl, .inr ⟨hqroot, rfl⟩⟩
      · rw [if_neg hqroot]
        exact ⟨rfl, rfl, .inl rfl⟩
  case h_2 =>
    split at h
    case h_2 => exact absurd h (by simp)
    case h_1 r₁ hins =>
      obtain ⟨rfl, rfl⟩ := Prod.mk.inj (Except.ok.inj h)
      rw [Registry.insertProject] at hins
      split at hins
      case isFalse => exact absurd hins (by simp)
      case isTrue =>
        obtain rfl := Option.some.inj hins
        refine ⟨⟨_, List.mem_append_right _ (List.mem_singleton.mpr rfl), rfl, rfl, rfl⟩, ?_, rfl⟩
        exact fun p hp => ⟨p, List.mem_append_left _ hp, rfl, rfl, .inl rfl⟩

theorem Registry.setDbPath_eq_self {r : Registry} (hmem : p ∈ r.projects) :
    r.setDbPath p.rootPath p.dbPath = r := by
  refine Registry.ext ?_ rfl
  refine (List.map_congr_left fun q hq => ?_).trans (List.map_id _)
  by_cases hroot : q.rootPath = p.rootPath
  · rw [if_pos hroot, List.inj_on_of_nodup_map r.rootUnique hq hmem hroot, id]
  · rw [if_neg hroot, id]

/-- What a step of the registry's part does to projects that are there. -/
theorem registryStep_eq_ok {id? : Option Nat}
    (h : registryStep newId clock i e r? = .ok (id?, r?')) :
    (∃ q r r' id, e = .project q ∧ r? = some r ∧ r?' = some r' ∧ id? = some id
        ∧ r.register (newId i) (clock (.insert i)) q.rootPath
          (joinPath (joinPath q.rootPath ".inkentry") "index.db") = .ok (id, r'))
      ∨ (∀ q, e ≠ .project q) ∧ id? = none ∧ r?' = r? := by
  cases e with
  | project q =>
    cases r? with
    | none => exact absurd h (by simp [registryStep])
    | some r =>
      obtain ⟨⟨id, r'⟩, hregister, h⟩ := bind_eq_ok_iff.mp h
      obtain ⟨rfl, rfl⟩ := Prod.mk.inj (Except.ok.inj h)
      exact .inl ⟨q, r, r', id, rfl, rfl, rfl, rfl, hregister⟩
  | memoryEntry =>
    right
    cases r? <;> simp_all [registryStep, pure, Except.pure]
  | commandUsage =>
    right
    cases r? <;> simp_all [registryStep, pure, Except.pure]

theorem projectSettled_registryStep {id? : Option Nat}
    (h : registryStep newId clock i e r? = .ok (id?, r?')) : ProjectSettled e id? r?' := by
  rcases registryStep_eq_ok h with ⟨q, r, r', id, rfl, rfl, rfl, rfl, hregister⟩ | ⟨he, rfl, rfl⟩
  · obtain ⟨⟨p, hp, rfl, hroot, hdb⟩, -, -⟩ := register_eq_ok hregister
    exact ⟨r', rfl, p, hp, rfl, hroot, hdb⟩
  · cases e with
    | project q => exact absurd rfl (he q)
    | memoryEntry => rfl
    | commandUsage => rfl

theorem ProjectSettled.keep {e e' : Entity} {id? id?' : Option Nat}
    (h : registryStep newId clock i e r? = .ok (id?, r?'))
    (hs : ProjectSettled e' id?' r?) : ProjectSettled e' id?' r?' := by
  rcases registryStep_eq_ok h with ⟨q, r, r', id, rfl, rfl, rfl, rfl, hregister⟩ | ⟨-, -, rfl⟩
  · cases e' with
    | project q' =>
      obtain ⟨r₀, hr₀, p, hp, rfl, hroot, hdb⟩ := hs
      obtain rfl := Option.some.inj hr₀
      obtain ⟨-, hkeep, -⟩ := register_eq_ok hregister
      obtain ⟨p', hp', hid', hroot', hdb'⟩ := hkeep p hp
      refine ⟨r', rfl, p', hp', by rw [hid'], hroot'.trans hroot, ?_⟩
      rcases hdb' with hdb' | ⟨hsame, hdb'⟩
      · exact hdb'.trans hdb
      · rw [hdb', ← hsame, hroot]
    | memoryEntry => exact hs
    | commandUsage => exact hs
  · exact hs

theorem registryStep_of_settled {id? id?' : Option Nat} (hs : ProjectSettled e id? r?)
    (h : registryStep newId clock i e r? = .ok (id?', r?')) : id?' = id? ∧ r?' = r? := by
  rcases registryStep_eq_ok h with ⟨q, r, r', id, rfl, rfl, rfl, rfl, hregister⟩ | ⟨he, rfl, rfl⟩
  · obtain ⟨r₀, hr₀, p, hp, rfl, hroot, hdb⟩ := hs
    obtain rfl := Option.some.inj hr₀
    rw [Registry.register, Registry.projectAt?_eq_some_iff.mpr ⟨hp, hroot⟩, ← hroot] at hregister
    rw [← hroot] at hdb
    obtain ⟨rfl, rfl⟩ := Prod.mk.inj (Except.ok.inj hregister)
    rw [← hdb, Registry.setDbPath_eq_self hp]
    exact ⟨rfl, rfl⟩
  · cases e with
    | project q => exact absurd rfl (he q)
    | memoryEntry => exact ⟨hs.symm, rfl⟩
    | commandUsage => exact ⟨hs.symm, rfl⟩

/-- The dependency a relationship stands for. -/
def depOf (projects : List (Option Nat)) (r : ResolvedRelationship) : Option (Nat × Nat) :=
  if r.kind = .dependsOn then ends projects r else none

theorem relateRegistry_eq (projects : List (Option Nat)) (r : ResolvedRelationship)
    (g : Registry) :
    relateRegistry projects r g = (depOf projects r).elim g fun p => g.addDep p.1 p.2 := by
  rw [relateRegistry, depOf]
  split
  case h_1 project dep hk hends => simp [hk, hends]
  case h_2 hnone =>
    split
    case isTrue hk =>
      cases hends : ends projects r with
      | none => rfl
      | some p => exact (hnone p.1 p.2 hk hends).elim
    case isFalse => rfl

/-- The projects are left alone, and the dependencies are there afterwards. -/
theorem registryLinks_effect (projects : List (Option Nat)) (l : List ResolvedRelationship)
    (g : Registry) :
    (registryLinks projects l g).projects = g.projects
      ∧ (∀ r ∈ l, ∀ p ∈ depOf projects r, p ∈ (registryLinks projects l g).deps)
      ∧ ∀ p ∈ g.deps, p ∈ (registryLinks projects l g).deps := by
  -- a dependency that is there is not added again
  have hadd (g : Registry) (p : Nat × Nat) : (g.addDep p.1 p.2).projects = g.projects
      ∧ p ∈ (g.addDep p.1 p.2).deps ∧ ∀ p' ∈ g.deps, p' ∈ (g.addDep p.1 p.2).deps := by
    rw [Registry.addDep]
    split
    case isTrue hmem => exact ⟨rfl, hmem, fun _ h => h⟩
    case isFalse => exact ⟨rfl, by simp, fun p' h => List.mem_append_left _ h⟩
  induction l generalizing g with
  | nil => exact ⟨rfl, by simp, fun _ h => h⟩
  | cons r l ih =>
    obtain ⟨hprojects, hdeps, hold⟩ := ih (relateRegistry projects r g)
    rw [registryLinks, List.foldl_cons, ← registryLinks]
    rw [relateRegistry_eq] at hprojects hdeps hold ⊢
    cases hdep : depOf projects r with
    | none =>
      rw [hdep] at hprojects hdeps hold
      refine ⟨hprojects, ?_, hold⟩
      intro r' hr' p hp
      rcases List.mem_cons.mp hr' with rfl | hr'
      · rw [hdep] at hp
        exact absurd hp (by simp)
      · exact hdeps r' hr' p hp
    | some q =>
      rw [hdep] at hprojects hdeps hold
      obtain ⟨hsame, hmem, hkeep⟩ := hadd g q
      refine ⟨hprojects.trans hsame, ?_, fun p hp => hold p (hkeep p hp)⟩
      intro r' hr' p hp
      rcases List.mem_cons.mp hr' with rfl | hr'
      · rw [hdep] at hp
        exact hold p (Option.some.inj hp ▸ hmem)
      · exact hdeps r' hr' p hp

theorem registryLinks_of_deps {projects : List (Option Nat)} {l : List ResolvedRelationship}
    {g : Registry} (h : ∀ r ∈ l, ∀ p ∈ depOf projects r, p ∈ g.deps) :
    registryLinks projects l g = g := by
  induction l with
  | nil => rfl
  | cons r l ih =>
    rw [registryLinks, List.foldl_cons, ← registryLinks, relateRegistry_eq]
    cases hdep : depOf projects r with
    | none => exact ih fun r' hr' => h r' (List.mem_cons_of_mem _ hr')
    | some p =>
      have hsame : g.addDep p.1 p.2 = g := if_pos (h r List.mem_cons_self p hdep)
      rw [Option.elim_some, hsame]
      exact ih fun r' hr' => h r' (List.mem_cons_of_mem _ hr')

theorem registry_settled {d : Dump} {g? g?₁ : Option Registry} {ids : List (Option Nat)}
    (h : registryPass newId clock d g? = .ok (ids, g?₁)) :
    List.Forall₂ (fun e id? => ProjectSettled e id? (g?₁.map (registryLinks ids d.relationships)))
      d.entities ids := by
  have hsettled := forall₂_of_pass ProjectSettled
    (fun i e r? id? r?' _ h => projectSettled_registryStep h)
    (fun i e r? id? r?' e' id?' h hs => hs.keep h) h
  refine hsettled.imp fun e id? hs => ?_
  cases e with
  | project q =>
    obtain ⟨r, rfl, p, hp, hrest⟩ := hs
    exact ⟨_, rfl, p, (registryLinks_effect ids d.relationships r).1.symm ▸ hp, hrest⟩
  | memoryEntry => exact hs
  | commandUsage => exact hs

/-- A second import of the registry's part changes nothing. -/
theorem registry_again {newId newId' : Nat → Nat} {clock clock' : Step → Int} {d : Dump}
    {g? g?₁ g?₂ : Option Registry} {ids ids' : List (Option Nat)}
    (h : registryPass newId clock d g? = .ok (ids, g?₁))
    (h' : registryPass newId' clock' d (g?₁.map (registryLinks ids d.relationships))
      = .ok (ids', g?₂)) :
    ids' = ids ∧ g?₂.map (registryLinks ids' d.relationships)
      = g?₁.map (registryLinks ids d.relationships) := by
  obtain ⟨rfl, rfl⟩ := pass_of_settled ProjectSettled
    (fun i e id? id?' r?' _ hs h => registryStep_of_settled hs h) (registry_settled h) h'
  refine ⟨rfl, ?_⟩
  rw [Option.map_map]
  refine congrArg (fun f => g?₁.map f) (funext fun g => ?_)
  exact registryLinks_of_deps (registryLinks_effect ids' d.relationships g).2.1

end PortableDump
end Inkentry
