/-
  Inkentry.Index.Resume

  Index runs after a kill.  The next run repairs a file only if its skip test
  notices what the kill left: a text file is skipped when its hash is current
  and it has some chunk, any other file when its hash is current.  As the hash
  is written first, `resumed_iff` lists what goes unnoticed: old rows not yet
  deleted, and a first part of the new ones.
-/

import Inkentry.Index.RunView

namespace Inkentry
namespace Index

open Runs Staged

variable {R V τ : Type} [Zero R] (ix : Indexer R V) (cols : Columns R τ)

/-! ## A rewrite, cut off -/

/-- The view of a file after the first `n` writes of a rewrite. -/
def cutView (r : Reading) (chunks : List Chunk) (n : ℕ) (v : FileView τ) : FileView τ :=
  run (onView cols r.path) v ((rewriteFile ix r chunks).take n)

/-- The edges a rewrite stores. -/
def storedEdges (r : Reading) (chunks : List Chunk) : Option (List Edge) :=
  r.edges (chunkedByTreeAsStored ix chunks)

/-- The number of writes before the first chunk is inserted. -/
def beforeChunks (r : Reading) (chunks : List Chunk) : ℕ :=
  3 + (storeEdges r.path (storedEdges ix r chunks) : List (Write R V)).length

theorem length_rewriteFile (r : Reading) (chunks : List Chunk) :
    (rewriteFile ix r chunks).length = beforeChunks ix r chunks
      + (insertedRows ix cols chunks).length := by
  simp only [rewriteFile, beforeChunks, storedEdges, storeChunks, insertedRows, List.length_append,
    List.length_map, List.length_cons, List.length_nil]

theorem run_take_storeEdges {path : String} {edges : Option (List Edge)}
    (hsource : ∀ es, edges = some es → ∀ e ∈ es, e.sourceFile = path) (m : ℕ) (v : FileView τ) :
    let u := run (onView cols path) v ((storeEdges path edges : List (Write R V)).take m)
    u.hash = v.hash ∧ u.chunks = v.chunks ∧ edges.getD u.edges = edges.getD v.edges := by
  have hkeep : ∀ ws : List (Write R V), (∀ w ∈ ws, w ∈ storeEdges path edges) → ∀ v : FileView τ,
      (run (onView cols path) v ws).hash = v.hash
        ∧ (run (onView cols path) v ws).chunks = v.chunks := by
    intro ws hws v
    apply run_keeps (P := fun u : FileView τ => u.hash = v.hash ∧ u.chunks = v.chunks)
    · intro u w hw hu
      cases edges with
      | none => exact absurd (hws w hw) (by simp [storeEdges])
      | some es =>
        rcases List.mem_cons.mp (hws w hw) with rfl | hw
        · simpa [onView] using hu
        · obtain ⟨e, he, rfl⟩ := List.mem_map.mp hw
          simpa [onView, hsource es rfl e he] using hu
    · exact ⟨rfl, rfl⟩
  have h := hkeep ((storeEdges path edges).take m) (fun w hw => List.mem_of_mem_take hw) v
  refine ⟨h.1, h.2, ?_⟩
  cases edges with
  | none => simp [storeEdges]
  | some es => rfl

theorem cutView_spec (r : Reading) (chunks : List Chunk) (n : ℕ) (v : FileView τ) :
    let u := cutView ix cols r chunks n v
    (n = 0 → u = v)
      ∧ (0 < n → u.hash = some r.hash)
      ∧ (n ≤ 2 → u.chunks = v.chunks ∧ u.edges = v.edges)
      ∧ (3 ≤ n → u.chunks = (insertedRows ix cols chunks).take (n - beforeChunks ix r chunks))
      ∧ (storedEdges ix r chunks).getD u.edges = (storedEdges ix r chunks).getD v.edges := by
  intro u
  have hu : u = run (onView cols r.path) v ((rewriteFile ix r chunks).take n) := rfl
  match n, hu with
  | 0, hu => simp [hu]
  | 1, hu =>
    have h1 : u = { v with hash := some r.hash } := by
      rw [hu]
      simp [rewriteFile, run, onView]
    simp [h1]
  | 2, hu =>
    have h2 : u = { v with hash := some r.hash } := by
      rw [hu]
      simp [rewriteFile, run, onView]
    simp [h2]
  | n + 3, hu =>
    -- the old rows are gone: then come the edges, then the chunks
    have hfirst : (rewriteFile ix r chunks).take (n + 3)
        = [.upsertFile ⟨r.path, r.language, r.hash⟩, .deleteEmbeddingsForFile r.path,
            .deleteChunksForFile r.path]
          ++ ((storeEdges r.path (storedEdges ix r chunks)).take n
          ++ (storeChunks ix r.path chunks).take (n + 3 - beforeChunks ix r chunks)) := by
      have hsplit : rewriteFile ix r chunks
          = [.upsertFile ⟨r.path, r.language, r.hash⟩, .deleteEmbeddingsForFile r.path,
            .deleteChunksForFile r.path]
            ++ (storeEdges r.path (storedEdges ix r chunks) ++ storeChunks ix r.path chunks) :=
        List.append_assoc _ _ _
      rw [hsplit, List.take_append, List.take_append, List.take_of_length_le (by simp)]
      congr 2
      simp only [beforeChunks, List.length_cons, List.length_nil]
      congr 1
      omega
    have hchunks : ((storeChunks ix r.path chunks).take (n + 3 - beforeChunks ix r chunks)
          : List (Write R V))
        = (((storedChunks ix chunks).map storedChunk).take (n + 3 - beforeChunks ix r chunks)).map
          (Write.insertChunk r.path) := by
      rw [List.map_take, List.map_map]
      rfl
    have hsource : ∀ es, storedEdges ix r chunks = some es → ∀ e ∈ es, e.sourceFile = r.path :=
      r.sourceFile_of_edges _
    have hedges := run_take_storeEdges (V := V) cols hsource n ⟨some r.hash, [], v.edges⟩
    simp only at hedges
    rw [hfirst, run_append, run_append, run_upsert, hchunks,
      run_insertChunks cols _ (by rw [hedges.1]; rfl)] at hu
    rw [hu]
    refine ⟨fun h => absurd h (by omega), fun _ => hedges.1, fun h => absurd h (by omega), ?_,
      hedges.2.2⟩
    intro _
    show _ ++ _ = _
    rw [hedges.2.1, List.nil_append, List.map_take, List.map_map]
    rfl

/-! ## The next run -/

/-- The hash is current and the chunks are not those of the file. -/
def LeftBroken (f : DiskFile) (v : FileView τ) : Prop :=
  ∃ r chunks, readFile ix f = some r ∧ r.parsed = some chunks ∧ v.hash = some r.hash
    ∧ v.chunks ≠ insertedRows ix cols chunks

/-- `resumed` has the chunks and edges of `whole`, and is not left broken. -/
def Repaired (f : DiskFile) (resumed whole : FileView τ) : Prop :=
  resumed.chunks = whole.chunks ∧ resumed.edges = whole.edges ∧ ¬ LeftBroken ix cols f resumed

/-- The rows a file has are the very ones to be stored; its edges are, too, or they are going
    to be extracted again. -/
def HoldsAlready (owed : Bool) (r : Reading) (chunks : List Chunk) (v : FileView τ) : Prop :=
  v.chunks = insertedRows ix cols chunks
    ∧ (owed = true ∨ (storedEdges ix r chunks).getD v.edges = v.edges)

/-- A file that was read, `n` of whose writes were made, is put right by the next run, in which
    a re-extraction is owed or not.  `v` is what was stored. -/
def Resumes (force owed : Bool) (r : Reading) (v : FileView τ) (n : ℕ) : Prop :=
  match r.parsed with
  | none => force = true → owed = true → r.skips false v = true →
      (r.edges (chunkedByTreeOf cols v)).getD v.edges = v.edges
  | some chunks =>
    if r.skips force v then v.chunks = insertedRows ix cols chunks
    -- before the hash is written
    else if n = 0 then r.skips false v = true → HoldsAlready ix cols owed r chunks v
    -- before the old rows are deleted
    else if n ≤ 2 then
      (r.asksForChunks = true ∧ v.chunks = []) ∨ HoldsAlready ix cols owed r chunks v
    else if n < (rewriteFile ix r chunks).length then
      r.asksForChunks = true ∧ n ≤ beforeChunks ix r chunks
    else True

variable {ix cols}
variable {v : FileView τ}

omit [Zero R] in
theorem skips_iff {r : Reading} {force : Bool} :
    r.skips force v = true
      ↔ force = false ∧ v.hash = some r.hash ∧ (r.asksForChunks = true → v.chunks ≠ []) := by
  cases force <;> cases hasks : r.asksForChunks <;> simp [Reading.skips, hasks]

theorem chunkedByTreeOf_inserted {chunks : List Chunk}
    (h : v.chunks = insertedRows ix cols chunks) :
    chunkedByTreeOf cols v = chunkedByTreeAsStored ix chunks := by
  rw [chunkedByTreeOf, h, insertedRows, List.any_map]
  simp only [chunkedByTreeAsStored, chunkedByTree, Function.comp_def, cols.stored_of]
  rfl

variable {f : DiskFile} {r : Reading} {chunks : List Chunk}

theorem leftBroken_iff (hread : readFile ix f = some r) :
    LeftBroken ix cols f v ↔ ∃ chunks, r.parsed = some chunks ∧ v.hash = some r.hash
      ∧ v.chunks ≠ insertedRows ix cols chunks := by
  constructor
  · rintro ⟨r', chunks, hr', h⟩
    rw [hread] at hr'
    obtain rfl := Option.some.inj hr'
    exact ⟨chunks, h⟩
  · rintro ⟨chunks, h⟩
    exact ⟨r, chunks, hread, h⟩

/-- A file that is rewritten is right, whatever was left of it. -/
theorem repaired_of_rewritten (hread : readFile ix f = some r) (hparsed : r.parsed = some chunks)
    {u v : FileView τ} (hedges : (storedEdges ix r chunks).getD u.edges
      = (storedEdges ix r chunks).getD v.edges) :
    Repaired ix cols f (rewritten ix cols r chunks u) (rewritten ix cols r chunks v) := by
  refine ⟨rfl, hedges, ?_⟩
  rw [leftBroken_iff hread]
  rintro ⟨chunks', hparsed', -, hne⟩
  rw [hparsed] at hparsed'
  obtain rfl := Option.some.inj hparsed'
  exact hne rfl

/-- A file that is skipped is right when its rows are. -/
theorem repaired_of_skipped_iff (hread : readFile ix f = some r)
    (hparsed : r.parsed = some chunks) {owed : Bool} {u v : FileView τ}
    (hskips : r.skips false u = true)
    (hedges : (storedEdges ix r chunks).getD u.edges = (storedEdges ix r chunks).getD v.edges) :
    Repaired ix cols f (afterFile ix cols false owed f u) (rewritten ix cols r chunks v)
      ↔ u.chunks = insertedRows ix cols chunks
        ∧ (owed = true ∨ u.edges = (storedEdges ix r chunks).getD v.edges) := by
  -- a skipped file gets its owed edges from the stored chunks, and nothing else
  have hafter : afterFile ix cols false owed f u
      = if owed then { u with edges := (r.edges (chunkedByTreeOf cols u)).getD u.edges } else u := by
    rw [afterFile_eq, hread]
    exact if_pos hskips
  have hchunks : (afterFile ix cols false owed f u).chunks = u.chunks := by
    rw [hafter]
    cases owed <;> rfl
  constructor
  · rintro ⟨hc, he, -⟩
    refine ⟨hchunks ▸ hc, ?_⟩
    rw [hafter] at he
    cases owed with
    | true => exact .inl rfl
    | false => exact .inr he
  · rintro ⟨hc, he⟩
    refine ⟨hchunks.trans hc, ?_, ?_⟩
    · rw [hafter]
      cases owed with
      | true =>
        show (r.edges (chunkedByTreeOf cols u)).getD u.edges = _
        rw [chunkedByTreeOf_inserted hc]
        exact hedges
      | false => exact he.resolve_left (by simp)
    · rw [leftBroken_iff hread]
      rintro ⟨chunks', hparsed', -, hne⟩
      rw [hparsed] at hparsed'
      obtain rfl := Option.some.inj hparsed'
      exact hne (hchunks.trans hc)

/-! ## One file -/

variable {force owed owed' : Bool}

theorem repaired_cutView_iff (hread : readFile ix f = some r) (hparsed : r.parsed = some chunks)
    {force owed : Bool} (hskips : ¬ r.skips force v = true) (n : ℕ) :
    Repaired ix cols f (afterFile ix cols false owed f (cutView ix cols r chunks n v))
        (rewritten ix cols r chunks v)
      ↔ Resumes ix cols force owed r v n := by
  obtain ⟨hzero, hhash, hold, hnew, hedges⟩ := cutView_spec ix cols r chunks n v
  have hresumes : Resumes ix cols force owed r v n =
      (if n = 0 then r.skips false v = true → HoldsAlready ix cols owed r chunks v
      else if n ≤ 2 then
        (r.asksForChunks = true ∧ v.chunks = []) ∨ HoldsAlready ix cols owed r chunks v
      else if n < (rewriteFile ix r chunks).length then
        r.asksForChunks = true ∧ n ≤ beforeChunks ix r chunks
      else True) := by
    rw [Resumes, hparsed]
    exact if_neg hskips
  have hrewritten : r.skips false (cutView ix cols r chunks n v) ≠ true →
      Repaired ix cols f (afterFile ix cols false owed f (cutView ix cols r chunks n v))
        (rewritten ix cols r chunks v) := by
    intro hnot
    rw [afterFile_eq, hread]
    simp only [hnot, hparsed]
    exact repaired_of_rewritten hread hparsed hedges
  have hskipped : r.skips false (cutView ix cols r chunks n v) = true →
      (Repaired ix cols f (afterFile ix cols false owed f (cutView ix cols r chunks n v))
          (rewritten ix cols r chunks v)
        ↔ (cutView ix cols r chunks n v).chunks = insertedRows ix cols chunks
          ∧ (owed = true ∨ (cutView ix cols r chunks n v).edges
            = (storedEdges ix r chunks).getD v.edges)) :=
    fun h => repaired_of_skipped_iff hread hparsed h hedges
  rw [hresumes]
  set u := cutView ix cols r chunks n v with hu
  have hkept : u.edges = v.edges → (u.edges = (storedEdges ix r chunks).getD v.edges
      ↔ (storedEdges ix r chunks).getD v.edges = v.edges) := by
    intro h
    rw [h, eq_comm]
  by_cases hn0 : n = 0
  · rw [if_pos hn0]
    have huv : u = v := hzero hn0
    rw [huv] at hrewritten hskipped hkept ⊢
    by_cases hskip : r.skips false v = true
    · rw [hskipped hskip, hkept rfl]
      exact ⟨fun h _ => h, fun h => h hskip⟩
    · exact iff_of_true (hrewritten hskip) fun h => absurd h hskip
  have hpos : 0 < n := by omega
  have hcurrent : r.skips false u = true ↔ (r.asksForChunks = true → u.chunks ≠ []) := by
    rw [skips_iff]
    exact ⟨fun h => h.2.2, fun h => ⟨rfl, hhash hpos, h⟩⟩
  rw [if_neg hn0]
  by_cases hn2 : n ≤ 2
  · rw [if_pos hn2]
    obtain ⟨hchunks, he⟩ := hold hn2
    rw [hchunks] at hcurrent
    by_cases hempty : r.asksForChunks = true ∧ v.chunks = []
    · refine iff_of_true (hrewritten fun h => hcurrent.mp h hempty.1 hempty.2) (.inl hempty)
    · have hskip : r.skips false u = true := hcurrent.mpr fun h h' => hempty ⟨h, h'⟩
      rw [hskipped hskip, hchunks, hkept he]
      exact ⟨.inr, fun h => h.resolve_left hempty⟩
  rw [if_neg hn2]
  have hlength := length_rewriteFile ix cols r chunks
  have hchunks : u.chunks = (insertedRows ix cols chunks).take (n - beforeChunks ix r chunks) :=
    hnew (by omega)
  by_cases hend : n < (rewriteFile ix r chunks).length
  · rw [if_pos hend]
    by_cases hempty : r.asksForChunks = true ∧ n ≤ beforeChunks ix r chunks
    · -- no chunk yet, and the file has to have one
      refine iff_of_true (hrewritten fun h => hcurrent.mp h hempty.1 ?_) hempty
      rw [hchunks, Nat.sub_eq_zero_of_le hempty.2, List.take_zero]
    · -- some chunks, or none in a file that need not have any
      have hlt : beforeChunks ix r chunks ≤ n := by
        by_contra hlt
        have hasks : r.asksForChunks = false := by
          by_contra hasks
          exact hempty ⟨by simpa using hasks, by omega⟩
        have hnone : storedEdges ix r chunks = none := r.edges_of_not_asks hasks _
        simp [beforeChunks, hnone, storeEdges] at hlt
        omega
      have hshort : (insertedRows ix cols chunks).take (n - beforeChunks ix r chunks)
          ≠ insertedRows ix cols chunks := by
        intro h
        have hlen := congrArg List.length h
        rw [List.length_take] at hlen
        omega
      have hskip : r.skips false u = true := by
        rw [hcurrent, hchunks]
        intro hasks hnil
        have hlen := congrArg List.length hnil
        rw [List.length_take, List.length_nil] at hlen
        exact hempty ⟨hasks, by omega⟩
      rw [hskipped hskip, hchunks]
      exact iff_of_false (fun h => hshort h.1) hempty
  · -- every write was made
    rw [if_neg hend]
    have hall : u = rewritten ix cols r chunks v := by
      rw [hu, cutView, List.take_of_length_le (by omega)]
      exact run_rewriteFile ix cols r chunks v
    refine iff_of_true ?_ trivial
    by_cases hskip : r.skips false u = true
    · rw [hskipped hskip, hall]
      exact ⟨rfl, .inr rfl⟩
    · exact hrewritten hskip

/-- A file that the killed run skipped. -/
theorem repaired_skipped_iff (hread : readFile ix f = some r) (hskips : r.skips force v = true)
    {n : ℕ}
    (howed : owed' = owed ∨ owed' = false ∧ (fileWrites ix cols force owed f v).length ≤ n) :
    Repaired ix cols f
        (afterFile ix cols false owed' f
          (run (onView cols f.path) v ((fileWrites ix cols force owed f v).take n)))
        (afterFile ix cols force owed f v)
      ↔ Resumes ix cols force owed' r v n := by
  obtain ⟨hforce, hhash, hchunks⟩ := skips_iff.mp hskips
  have hpath : r.path = f.path := (readFile_eq_some ix hread).1
  have hwrites : fileWrites ix cols force owed f v
      = if owed then storeEdges r.path (r.edges (chunkedByTreeOf cols v)) else [] := by
    rw [fileWrites, hread]
    exact if_pos hskips
  have hwhole : afterFile ix cols force owed f v
      = if owed then { v with edges := (r.edges (chunkedByTreeOf cols v)).getD v.edges } else v := by
    rw [afterFile_eq, hread]
    exact if_pos hskips
  set u := run (onView cols f.path) v ((fileWrites ix cols force owed f v).take n) with hu
  -- whatever was made of the re-extraction, the next run completes it
  have hu' : u.hash = v.hash ∧ u.chunks = v.chunks
      ∧ (if owed' then (r.edges (chunkedByTreeOf cols v)).getD u.edges else u.edges)
        = (afterFile ix cols force owed f v).edges := by
    rw [hwrites] at hu howed
    cases owed with
    | false =>
      have huv : u = v := by simpa using hu
      have hfalse : owed' = false := by simpa using howed
      rw [huv, hwhole, hfalse]
      exact ⟨rfl, rfl, rfl⟩
    | true =>
      have htake := run_take_storeEdges (V := V) cols
        (r.sourceFile_of_edges (chunkedByTreeOf cols v)) n v
      simp only [if_true] at hu howed
      rw [← hpath] at hu
      rw [← hu] at htake
      refine ⟨htake.1, htake.2.1, ?_⟩
      rw [hwhole]
      rcases howed with rfl | ⟨rfl, hlen⟩
      · exact htake.2.2
      · rw [List.take_of_length_le hlen, run_storeEdges cols (r.sourceFile_of_edges _)] at hu
        rw [hu]
        rfl
  have hresumed : afterFile ix cols false owed' f u = afterFile ix cols force owed f v := by
    have hskip : r.skips false u = true := by
      rw [skips_iff, hu'.1, hu'.2.1]
      exact ⟨rfl, hhash, hchunks⟩
    have htree : chunkedByTreeOf cols u = chunkedByTreeOf cols v := by
      rw [chunkedByTreeOf, chunkedByTreeOf, hu'.2.1]
    have hnext : afterFile ix cols false owed' f u
        = if owed' then { u with edges := (r.edges (chunkedByTreeOf cols u)).getD u.edges } else u := by
      rw [afterFile_eq, hread]
      exact if_pos hskip
    have hsame : (afterFile ix cols force owed f v).hash = v.hash
        ∧ (afterFile ix cols force owed f v).chunks = v.chunks := by
      rw [hwhole]
      cases owed <;> exact ⟨rfl, rfl⟩
    have hedges := hu'.2.2
    rw [hnext, htree]
    cases owed' with
    | false =>
      exact FileView.ext (hu'.1.trans hsame.1.symm) (hu'.2.1.trans hsame.2.symm) hedges
    | true =>
      exact FileView.ext (hu'.1.trans hsame.1.symm) (hu'.2.1.trans hsame.2.symm) hedges
  rw [hresumed]
  have hview : (afterFile ix cols force owed f v).hash = some r.hash
      ∧ (afterFile ix cols force owed f v).chunks = v.chunks := by
    rw [hwhole]
    cases owed <;> exact ⟨hhash, rfl⟩
  have hrepaired : Repaired ix cols f (afterFile ix cols force owed f v)
      (afterFile ix cols force owed f v) ↔ ∀ chunks, r.parsed = some chunks →
        v.chunks = insertedRows ix cols chunks := by
    rw [Repaired, leftBroken_iff hread, hview.1, hview.2]
    constructor
    · rintro ⟨-, -, h⟩ chunks hparsed
      by_contra hne
      exact h ⟨chunks, hparsed, rfl, hne⟩
    · intro h
      exact ⟨rfl, rfl, fun ⟨chunks, hparsed, _, hne⟩ => hne (h chunks hparsed)⟩
  rw [hrepaired, Resumes]
  cases hparsed : r.parsed with
  | none => simp [hforce]
  | some chunks =>
    simp only [hskips, if_true]
    exact ⟨fun h => h chunks rfl, fun h chunks' h' => Option.some.inj h' ▸ h⟩

/-- One file of a run killed after `n` of the file's writes. -/
theorem repaired_iff {n : ℕ}
    (howed : owed' = owed ∨ owed' = false ∧ (fileWrites ix cols force owed f v).length ≤ n) :
    Repaired ix cols f
        (afterFile ix cols false owed' f
          (run (onView cols f.path) v ((fileWrites ix cols force owed f v).take n)))
        (afterFile ix cols force owed f v)
      ↔ ∀ r, readFile ix f = some r → Resumes ix cols force owed' r v n := by
  cases hread : readFile ix f with
  | none =>
    have hleft : ∀ b b' u, afterFile ix cols b b' f u = u := by
      intro b b' u
      rw [afterFile_eq, hread]
    have hwrites : fileWrites ix cols force owed f v = [] := by
      rw [fileWrites, hread]
    rw [hleft, hleft, hwrites, List.take_nil, run_nil]
    refine iff_of_true ⟨rfl, rfl, ?_⟩ (by simp)
    rintro ⟨r, _, hr, -⟩
    rw [hread] at hr
    exact absurd hr (by simp)
  | some r =>
    have hone : (∀ r', some r = some r' → Resumes ix cols force owed' r' v n)
        ↔ Resumes ix cols force owed' r v n := by simp
    rw [hone]
    by_cases hskips : r.skips force v = true
    · exact repaired_skipped_iff hread hskips howed
    · have hpath : r.path = f.path := (readFile_eq_some ix hread).1
      cases hparsed : r.parsed with
      | none =>
        -- nothing is written; the next run may skip what a forced run tried to parse
        have hwrites : fileWrites ix cols force owed f v = [] := by
          rw [fileWrites, hread]
          simp [readingWrites, hskips, hparsed]
        have hwhole : afterFile ix cols force owed f v = v := by
          rw [afterFile, hwrites, run_nil]
        have hnot : ∀ u, ¬ LeftBroken ix cols f u := by
          intro u
          rw [leftBroken_iff hread, hparsed]
          simp
        have hforce : r.skips false v = true → force = true := by
          intro h
          by_contra hforce
          rw [Bool.not_eq_true] at hforce
          rw [hforce] at hskips
          exact hskips h
        rw [hwhole, hwrites, List.take_nil, run_nil, Resumes, hparsed, afterFile_eq, hread]
        by_cases hskip : r.skips false v = true
        · simp only [hskip, if_true, hforce hskip, true_implies]
          cases owed' with
          | false => simp [Repaired, hnot]
          | true => simp [Repaired, hnot]
        · simp [hskip, hparsed, Repaired, hnot]
      | some chunks =>
        have hwrites : fileWrites ix cols force owed f v = rewriteFile ix r chunks := by
          rw [fileWrites, hread]
          simp [readingWrites, hskips, hparsed]
        have hwhole : afterFile ix cols force owed f v = rewritten ix cols r chunks v := by
          rw [afterFile, hwrites, ← hpath, run_rewriteFile]
        rw [hwhole, hwrites, ← hpath]
        exact repaired_cutView_iff hread hparsed hskips n

/-! ## A killed run -/

/-- The number of its own writes that a killed run makes of a file listed after `before`. -/
def ownWrites (ix : Indexer R V) (force : Bool) (db : Db R V) (before : List DiskFile) (k : ℕ) :
    ℕ :=
  k - (before.flatMap (plannedWrites ix parsedColumns force db.reextractOwed db)).length

/-- A run over a tree, killed after any number of writes, is made good by the next unforced run
    over it, for every listed file, exactly when each file was left as it was found or finished,
    or has no chunks where the skip test asks for some, or held already what was to be stored. -/
theorem resumable_iff (ix : Indexer R V) (tree : Tree) (db : Db R V) (k : ℕ)
    (force noSummaries inline : Bool) (served : Served) (noSummaries' inline' : Bool)
    (served' : Served) :
    (∀ f ∈ tree.files, Repaired ix parsedColumns f
      (((Call.full false noSummaries' tree inline' served').run ix
        ((Call.full force noSummaries tree inline served).killed ix k db)).view
          parsedColumns f.path)
      (((Call.full force noSummaries tree inline served).run ix db).view parsedColumns f.path))
    ↔ ∀ before f after, tree.files = before ++ f :: after → ∀ r, readFile ix f = some r →
        Resumes ix parsedColumns force (owedAfter ix force tree k db) r
          (db.view parsedColumns f.path) (ownWrites ix force db before k) := by
  have hfile : ∀ before f after, tree.files = before ++ f :: after →
      (Repaired ix parsedColumns f
        (((Call.full false noSummaries' tree inline' served').run ix
          ((Call.full force noSummaries tree inline served).killed ix k db)).view
            parsedColumns f.path)
        (((Call.full force noSummaries tree inline served).run ix db).view parsedColumns f.path)
      ↔ ∀ r, readFile ix f = some r →
        Resumes ix parsedColumns force (owedAfter ix force tree k db) r
          (db.view parsedColumns f.path) (ownWrites ix force db before k)) := by
    intro before f after hsplit
    have hf : f ∈ tree.files := by simp [hsplit]
    rw [view_full ix false noSummaries' inline' served' parsedColumns_rankFree hf,
      view_full ix force noSummaries inline served parsedColumns_rankFree hf,
      view_killed ix force noSummaries inline served parsedColumns_rankFree hsplit,
      reextractOwed_killed ix force noSummaries inline served hf]
    apply repaired_iff
    -- owed edges that the killed run did not settle are still owed; else its parse is over
    cases howed : db.reextractOwed with
    | false => exact .inl (by simp [owedAfter, howed])
    | true =>
      by_cases hk : k < (writes (Db.apply ix) db (parsePhase ix force true tree)).length
      · exact .inl (by simp [owedAfter, howed, hk])
      · refine .inr ⟨by simp [owedAfter, howed, hk], ?_⟩
        have hlength : (before.flatMap (plannedWrites ix parsedColumns force true db)).length
            + (plannedWrites ix parsedColumns force true db f).length
            ≤ (writes (Db.apply ix) db (parsePhase ix force true tree)).length := by
          rw [parsePhase_eq ix force _ hf, writes_append,
            writes_files ix parsedColumns force _ tree.paths_nodup, hsplit, List.flatMap_append,
            List.flatMap_cons]
          simp only [List.length_append]
          omega
        show (plannedWrites ix parsedColumns force true db f).length
          ≤ k - (before.flatMap (plannedWrites ix parsedColumns force true db)).length
        omega
  constructor
  · intro h before f after hsplit
    exact (hfile before f after hsplit).mp (h f (by simp [hsplit]))
  · intro h f hf
    obtain ⟨before, after, hsplit⟩ := List.append_of_mem hf
    exact (hfile before f after hsplit).mpr (h before f after hsplit)

/-- An embedder that is not ready. -/
def notServed : Served := ⟨[], 0, []⟩

/-- A document whose first indexing is killed after its hash is written: no later run stores
    its chunk. -/
theorem not_resumable_of_document :
    ¬ ∀ f ∈ oneDocument.files, Repaired (documentIndexer none) parsedColumns f
      (((Call.full false false oneDocument true notServed).run (documentIndexer none)
        ((Call.full false false oneDocument true notServed).killed (documentIndexer none) 1
          Db.empty)).view parsedColumns f.path)
      (((Call.full false false oneDocument true notServed).run (documentIndexer none)
        Db.empty).view parsedColumns f.path) := by
  intro h
  have hchunks := (h ⟨"a.docx", 1, some [65]⟩ (by simp [oneDocument])).1
  exact absurd hchunks (by decide +kernel)

end Index
end Inkentry
