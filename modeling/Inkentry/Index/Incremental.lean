/-
  Inkentry.Index.Incremental

  Incremental indexing against indexing from scratch.  `firstView` is what a
  first index of a tree holds about a path: what the file's own stage stores,
  under the ranks of the tree's graph.  `view_step` shows that a completed run
  from an index that holds just that, for the tree before, leaves it for the
  tree now, unless something old survives the run; `Stable` names what can.
-/

import Inkentry.Index.Resume

namespace Inkentry
namespace Index

open Runs Staged

variable {R V : Type} [Zero R] (ix : Indexer R V)

/-! ## Ranks of a graph -/

/-- The score of a name; a graph without edges gives none. -/
def rankOf (graph : List (String × String)) (name : Option String) : Option R :=
  if graph.isEmpty then none else scoreOf ix graph name

/-- The view of a file under the ranks of a graph. -/
def rankView (graph : List (String × String)) (v : FileView (StoredChunk × R)) :
    FileView (StoredChunk × R) :=
  { v with chunks := v.chunks.map fun c => (c.1, (rankOf ix graph c.1.name).getD c.2) }

omit [Zero R] in
theorem foldl_setRank_of_ne {c : ChunkRow R V} {ranks : List (ℕ × R)}
    (h : ∀ rank ∈ ranks, rank.1 ≠ c.id) : ranks.foldl ChunkRow.setRank c = c :=
  run_keeps (P := fun c' => c' = c) ChunkRow.setRank
    (fun c' rank hrank hc' => by
      rw [hc']
      exact if_neg (Ne.symm (h rank hrank))) rfl

omit [Zero R] in
theorem graphRank_foldl {chunks : List (ChunkRow R V)} (hnodup : (chunks.map (·.id)).Nodup)
    (score : Option String → Option R) {c : ChunkRow R V} (hc : c ∈ chunks) :
    ((chunks.filterMap fun c => (score c.name).map fun s => (c.id, s)).foldl
      ChunkRow.setRank c).graphRank = (score c.name).getD c.graphRank := by
  induction chunks with
  | nil => exact absurd hc (by simp)
  | cons d chunks ih =>
    rw [List.map_cons, List.nodup_cons] at hnodup
    -- an id stands once, so one update at most is for the chunk
    have hothers : ∀ rank ∈ chunks.filterMap fun c => (score c.name).map fun s => (c.id, s),
        rank.1 ≠ d.id := by
      intro rank hrank
      obtain ⟨c', hc', hs⟩ := List.mem_filterMap.mp hrank
      obtain ⟨s, -, rfl⟩ := Option.map_eq_some_iff.mp hs
      exact fun h => hnodup.1 (List.mem_map.mpr ⟨c', hc', h⟩)
    rcases List.mem_cons.mp hc with rfl | hc
    · rw [List.filterMap_cons]
      cases hscore : score c.name with
      | none => simp only [Option.map_none, foldl_setRank_of_ne hothers, Option.getD_none]
      | some s =>
        have hset : c.setRank (c.id, s) = { c with graphRank := s } := if_pos rfl
        have hrest := foldl_setRank_of_ne (c := { c with graphRank := s }) hothers
        simp only [Option.map_some, List.foldl_cons, hset, Option.getD_some]
        rw [hrest]
    · have hne : d.id ≠ c.id := fun h => hnodup.1 (List.mem_map.mpr ⟨c, hc, h.symm⟩)
      rw [List.filterMap_cons]
      cases hscore : score d.name with
      | none => simpa only [Option.map_none] using ih hnodup.2 hc
      | some s =>
        have hset : c.setRank (d.id, s) = c := if_neg (Ne.symm hne)
        simp only [Option.map_some, List.foldl_cons, hset]
        exact ih hnodup.2 hc

theorem view_graphRanks (db : Db R V) (path : String) :
    (stage (Db.apply ix) db (graphRanks ix)).view rankedColumns path
      = rankView ix db.graphEdgesAll (db.view rankedColumns path) := by
  by_cases hgraph : db.graphEdgesAll.isEmpty
  -- no edges in the whole index: no rank is written, and none is due
  · have hnone : graphRanks ix db = [] := if_pos hgraph
    have hrank : ∀ name, rankOf ix db.graphEdgesAll name = none := fun name => if_pos hgraph
    rw [stage, hnone, run_nil, rankView]
    simp [hrank]
  · have hscore : ∀ name, rankOf ix db.graphEdgesAll name = scoreOf ix db.graphEdgesAll name :=
      fun name => if_neg hgraph
    set updates := db.chunks.filterMap fun c =>
      (scoreOf ix db.graphEdgesAll c.name).map fun score => (c.id, score) with hupdates
    -- an empty list of updates writes nothing, and so does folding over it
    have hstage : stage (Db.apply ix) db (graphRanks ix)
        = db.modifyChunks (fun c => updates.foldl ChunkRow.setRank c)
          (fun c => c.foldl_setRank_id updates) := by
      rw [stage, graphRanks, if_neg hgraph]
      show run _ db (if updates.isEmpty then [] else [Write.updateGraphRanks updates]) = _
      by_cases hempty : updates.isEmpty
      · rw [if_pos hempty, run_nil, List.isEmpty_iff.mp hempty]
        simp [Db.modifyChunks]
      · rw [if_neg hempty]
        rfl
    rw [hstage]
    apply FileView.ext
    · rfl
    · show ((db.chunks.map fun c => updates.foldl ChunkRow.setRank c).filter _).map _
        = ((db.chunks.filter _).map _).map _
      rw [List.filter_map, List.map_map, List.map_map]
      have hsame : (fun c : ChunkRow R V => c.path == path)
          ∘ (fun c => updates.foldl ChunkRow.setRank c) = fun c => c.path == path := by
        funext c
        simp [(ChunkRow.foldl_setRank_toStoredChunk c updates).2]
      rw [hsame]
      apply List.map_congr_left
      intro c hc
      have hrank := graphRank_foldl db.ids_nodup (scoreOf ix db.graphEdgesAll)
        (List.mem_of_mem_filter hc)
      have hstored := (ChunkRow.foldl_setRank_toStoredChunk c updates).1
      show (_, _) = (_, _)
      rw [hstored, hscore, hupdates, hrank]
      rfl
    · rfl

/-! ## Files no longer listed -/

section Unlisted

variable {τ : Type} (cols : Columns R τ)

theorem view_deleteFiles (paths : List String) (path : String) (db : Db R V) :
    (run (Db.apply ix) db (paths.flatMap deleteFile)).view cols path
      = if path ∈ paths then FileView.empty else db.view cols path := by
  have hone : ∀ (p : String) (db : Db R V),
      (run (Db.apply ix) db (deleteFile p)).view cols path
        = if p = path then FileView.empty else db.view cols path := by
    intro p db
    rw [view_run (fun db : Db R V => db.view cols path) (onView cols path)]
    · by_cases hp : p = path <;> simp [deleteFile, run, onView, hp, FileView.empty]
    · intro w hw t
      apply view_apply
      simp only [deleteFile, List.mem_cons, List.not_mem_nil, or_false] at hw
      rcases hw with rfl | rfl | rfl | rfl <;> trivial
  induction paths generalizing db with
  | nil => simp
  | cons p paths ih =>
    rw [List.flatMap_cons, run_append, ih, hone]
    by_cases hmem : path ∈ paths
    · simp [hmem]
    · by_cases hp : p = path
      · simp [hmem, hp]
      · simp [hmem, hp, Ne.symm hp]

theorem view_files_of_not_mem {force owed : Bool} {files : List DiskFile} {path : String}
    (hpath : path ∉ files.map (·.path)) (db : Db R V) :
    (complete (Db.apply ix) db (files.map (processFile ix force owed))).view cols path
      = db.view cols path := by
  apply view_complete_of_unseen (fun db : Db R V => db.view cols path)
  intro st hst db
  obtain ⟨f, hf, rfl⟩ := List.mem_map.mp hst
  exact view_stage_of_ne ix cols (fun h => hpath (List.mem_map.mpr ⟨f, hf, h.symm⟩)) db

omit [Zero R] in
theorem mem_allFilePaths_iff (db : Db R V) (path : String) :
    path ∈ db.allFilePaths ↔ (db.view cols path).hash ≠ none := by
  show path ∈ db.files.map (·.path) ↔ (db.files.find? (·.path == path)).map (·.hash) ≠ none
  rw [Ne, Option.map_eq_none_iff, List.find?_eq_none]
  simp

/-- A path that a nonempty walk does not list holds nothing after the parse phase, if it held
    nothing without a file row. -/
theorem view_parsePhase_unlisted {force owed : Bool} {tree : Tree} (hne : tree.files ≠ [])
    {path : String} (hpath : path ∉ tree.files.map (·.path)) {db : Db R V}
    (hrow : (db.view cols path).hash = none → db.view cols path = FileView.empty) :
    (complete (Db.apply ix) db (parsePhase ix force owed tree)).view cols path
      = FileView.empty := by
  have hphase : parsePhase ix force owed tree
      = tree.files.map (processFile ix force owed) ++ [cleanupStale tree, finish owed] := by
    have hempty : tree.files.isEmpty = false := by simpa using hne
    rw [parsePhase, hempty]
    rfl
  rw [hphase, complete_append]
  set walked := complete (Db.apply ix) db (tree.files.map (processFile ix force owed))
    with hwalked
  have hview : walked.view cols path = db.view cols path := view_files_of_not_mem ix cols hpath db
  show (run _ (run _ walked (cleanupStale tree walked)) (finish owed _)).view cols path = _
  rw [view_run_unseen ix cols (unseen_finish cols owed path _), cleanupStale, view_deleteFiles]
  by_cases hstored : (db.view cols path).hash = none
  · rw [hview, hrow hstored]
    split <;> rfl
  · have hmem : path ∈ walked.allFilePaths.filter (· ∉ tree.files.map (·.path)) := by
      rw [List.mem_filter, mem_allFilePaths_iff cols, hview]
      exact ⟨hstored, by simpa using hpath⟩
    rw [if_pos hmem]

end Unlisted

/-! ## The first index of a tree -/

/-- What a file's own stage stores in an index that knows nothing of it. -/
def firstFile (f : DiskFile) : FileView (StoredChunk × R) :=
  afterFile ix rankedColumns false false f FileView.empty

/-- The graph of the edges that a tree's files have. -/
def treeGraph (tree : Tree) : List (String × String) :=
  graphOf (tree.files.flatMap fun f => (firstFile ix f).edges)

/-- What a first index of a tree holds about a path. -/
def firstView (tree : Tree) (path : String) : FileView (StoredChunk × R) :=
  match tree.files.find? (·.path == path) with
  | none => FileView.empty
  | some f => rankView ix (treeGraph ix tree) (firstFile ix f)

/-- Nothing old survives a run over `tree`: an emptied tree finds an empty index; a file that the
    run cannot read or parse has no rows; one whose edges cannot be extracted has no edges; and
    a chunk of a skipped file that has a rank has its name in the tree's graph. -/
structure Stable (db : Db R V) (tree : Tree) : Prop where
  cleaned : tree.files = [] → db.files = []
  unread : ∀ f ∈ tree.files, (∀ r, readFile ix f = some r → r.parsed = none) →
    db.view rankedColumns f.path = FileView.empty
  edges : ∀ f ∈ tree.files, ∀ r chunks, readFile ix f = some r → r.parsed = some chunks →
    r.edges (chunkedByTreeAsStored ix chunks) = none → db.edgesOf f.path = []
  ranks : ∀ f ∈ tree.files, ∀ r, readFile ix f = some r →
    r.skips false (db.view rankedColumns f.path) = true →
    ∀ c ∈ db.chunksOf f.path, c.graphRank = 0 ∨ (rankOf ix (treeGraph ix tree) c.name).isSome

theorem firstFile_eq (f : DiskFile) :
    firstFile ix f =
      match readFile ix f with
      | none => FileView.empty
      | some r =>
        match r.parsed with
        | none => FileView.empty
        | some chunks => rewritten ix rankedColumns r chunks FileView.empty := by
  rw [firstFile, afterFile_eq]
  cases readFile ix f with
  | none => rfl
  | some r =>
    have hskips : ¬ r.skips false (FileView.empty : FileView (StoredChunk × R)) = true := by
      rw [skips_iff]
      rintro ⟨-, h, -⟩
      exact absurd h (by simp [FileView.empty])
    simp only [hskips]
    rfl

/-! ## One run -/

section OneRun

variable {ix}
variable {f : DiskFile}

theorem find?_listed {tree : Tree} (hf : f ∈ tree.files) :
    tree.files.find? (·.path == f.path) = some f := by
  cases hfind : tree.files.find? (·.path == f.path) with
  | none => exact absurd (List.find?_eq_none.mp hfind f hf) (by simp)
  | some g =>
    have hpath : g.path = f.path := eq_of_beq (List.find?_some hfind :)
    rw [List.inj_on_of_nodup_map tree.paths_nodup (List.mem_of_find?_eq_some hfind) hf hpath]

theorem firstView_listed {tree : Tree} (hf : f ∈ tree.files) :
    firstView ix tree f.path = rankView ix (treeGraph ix tree) (firstFile ix f) := by
  rw [firstView, find?_listed hf]

theorem firstView_unlisted {tree : Tree} {path : String}
    (hpath : path ∉ tree.files.map (·.path)) : firstView ix tree path = FileView.empty := by
  have hnone : tree.files.find? (·.path == path) = none := by
    rw [List.find?_eq_none]
    intro g hg h
    exact hpath (List.mem_map.mpr ⟨g, hg, eq_of_beq h⟩)
  rw [firstView, hnone]

/-- What a first index holds of a path with a hash: the rows of a file read and parsed. -/
theorem firstView_cases (ix : Indexer R V) (tree : Tree) (path : String) :
    firstView ix tree path = FileView.empty
      ∨ ∃ f r chunks, f ∈ tree.files ∧ f.path = path ∧ readFile ix f = some r
        ∧ r.parsed = some chunks ∧ firstView ix tree path
          = rankView ix (treeGraph ix tree) (rewritten ix rankedColumns r chunks FileView.empty) := by
  by_cases hpath : path ∈ tree.files.map (·.path)
  · obtain ⟨f, hf, rfl⟩ := List.mem_map.mp hpath
    rw [firstView_listed hf, firstFile_eq]
    cases hread : readFile ix f with
    | none => exact .inl rfl
    | some r =>
      cases hparsed : r.parsed with
      | none => exact .inl (by simp only [hparsed]; rfl)
      | some chunks => exact .inr ⟨f, r, chunks, hf, rfl, hread, hparsed, by simp only [hparsed]⟩
  · exact .inl (firstView_unlisted hpath)

/-- The ranks of an older graph give way to those of a new one, where they are initial or the
    new graph has the name. -/
theorem rankView_rankView {graph graph₀ : List (String × String)}
    {v : FileView (StoredChunk × R)} (hzero : ∀ c ∈ v.chunks, c.2 = 0)
    (hranks : ∀ c ∈ (rankView ix graph₀ v).chunks, c.2 = 0 ∨ (rankOf ix graph c.1.name).isSome) :
    rankView ix graph (rankView ix graph₀ v) = rankView ix graph v := by
  refine FileView.ext rfl ?_ rfl
  show ((v.chunks.map _).map _) = v.chunks.map _
  rw [List.map_map]
  apply List.map_congr_left
  intro c hc
  show (c.1, (rankOf ix graph c.1.name).getD ((rankOf ix graph₀ c.1.name).getD c.2))
    = (c.1, (rankOf ix graph c.1.name).getD c.2)
  rcases hranks _ (List.mem_map_of_mem hc) with h | h
  · have hold : (rankOf ix graph₀ c.1.name).getD c.2 = 0 := h
    rw [hold, hzero c hc]
  · obtain ⟨rank, hrank⟩ := Option.isSome_iff_exists.mp h
    simp only at hrank
    rw [hrank]
    rfl

variable {db : Db R V} {tree₀ tree : Tree}

/-- A listed file after the parse phase has the hash, the chunks and the edges of a first index,
    and the ranks once the new graph's are written. -/
theorem view_parsePhase_listed (hhash : Function.Injective ix.hash)
    (hdb : ∀ path, db.view rankedColumns path = firstView ix tree₀ path)
    (hstable : Stable ix db tree) (hf : f ∈ tree.files) :
    ((complete (Db.apply ix) db (parsePhase ix false false tree)).view rankedColumns f.path).edges
        = (firstFile ix f).edges
      ∧ rankView ix (treeGraph ix tree)
          ((complete (Db.apply ix) db (parsePhase ix false false tree)).view rankedColumns f.path)
        = rankView ix (treeGraph ix tree) (firstFile ix f) := by
  rw [view_parsePhase ix false false hf, afterFile_eq, firstFile_eq]
  cases hread : readFile ix f with
  | none =>
    have hempty := hstable.unread f hf (by simp [hread])
    rw [hempty]
    exact ⟨rfl, rfl⟩
  | some r =>
    by_cases hskips : r.skips false (db.view rankedColumns f.path) = true
    · -- the file is as it was: what a first index stored of it is what it would store now
      simp only [hskips, if_true]
      obtain ⟨-, hstored, -⟩ := skips_iff.mp hskips
      rw [hdb] at hstored
      rcases firstView_cases ix tree₀ f.path with hempty | ⟨f₀, r₀, chunks, _, hpath, hread₀,
        hparsed, hview⟩
      · rw [hempty] at hstored
        exact absurd hstored (by simp [FileView.empty])
      · have hr : r = r₀ := by
          obtain ⟨-, ⟨bytes₀, hbytes₀, hh₀⟩, -⟩ := readFile_eq_some ix hread₀
          obtain ⟨-, ⟨bytes, hbytes, hh⟩, -⟩ := readFile_eq_some ix hread
          rw [hview] at hstored
          have hsame : r₀.hash = r.hash := Option.some.inj hstored
          have hbytes' : bytes = bytes₀ := hhash (by rw [← hh, ← hh₀, hsame])
          exact readFile_congr ix hpath.symm (by rw [hbytes, hbytes₀, hbytes']) hread₀ hread
        subst hr
        simp only [hparsed]
        rw [hdb, hview]
        refine ⟨rfl, rankView_rankView ?_ ?_⟩
        · intro c hc
          obtain ⟨chunk, -, rfl⟩ := List.mem_map.mp hc
          rfl
        · intro c hc
          rw [← hview, ← hdb] at hc
          obtain ⟨row, hrow, rfl⟩ := List.mem_map.mp hc
          exact hstable.ranks f hf r hread hskips row hrow
    · simp only [hskips]
      cases hparsed : r.parsed with
      | none =>
        have hempty := hstable.unread f hf (by
          intro r' hr'
          rw [hread] at hr'
          rw [← Option.some.inj hr', hparsed])
        simp only [hempty]
        exact ⟨rfl, rfl⟩
      | some chunks =>
        have hsame : rewritten ix rankedColumns r chunks (db.view rankedColumns f.path)
            = rewritten ix rankedColumns r chunks FileView.empty := by
          refine FileView.ext rfl rfl ?_
          show (r.edges _).getD (db.edgesOf f.path) = (r.edges _).getD []
          cases hedges : r.edges (chunkedByTreeAsStored ix chunks) with
          | none => exact hstable.edges f hf r chunks hread hparsed hedges
          | some es => rfl
        simp only [hsame]
        exact ⟨rfl, rfl⟩

theorem view_parsePhase_stale (hdb : ∀ path, db.view rankedColumns path = firstView ix tree₀ path)
    (hstable : Stable ix db tree) {path : String} (hpath : path ∉ tree.files.map (·.path)) :
    (complete (Db.apply ix) db (parsePhase ix false false tree)).view rankedColumns path
      = FileView.empty := by
  have hrow : (db.view rankedColumns path).hash = none →
      db.view rankedColumns path = FileView.empty := by
    rw [hdb]
    rcases firstView_cases ix tree₀ path with h | ⟨f, r, chunks, _, _, _, _, h⟩
    · exact fun _ => h
    · rw [h]
      exact fun h => absurd h (by simp [rankView, rewritten])
  by_cases hne : tree.files = []
  · have hphase : parsePhase ix false false tree = [] := by
      rw [parsePhase, hne]
      rfl
    rw [hphase, complete_nil]
    apply hrow
    show (db.files.find? _).map _ = none
    rw [hstable.cleaned hne]
    rfl
  · exact view_parsePhase_unlisted ix rankedColumns hne hpath hrow

theorem graphEdgesAll_parsePhase (hhash : Function.Injective ix.hash)
    (hdb : ∀ path, db.view rankedColumns path = firstView ix tree₀ path)
    (hstable : Stable ix db tree) :
    (complete (Db.apply ix) db (parsePhase ix false false tree)).graphEdgesAll
      = treeGraph ix tree := by
  set parsed := complete (Db.apply ix) db (parsePhase ix false false tree) with hparsed
  have hmem : ∀ e, e ∈ parsed.edges ↔ e ∈ tree.files.flatMap fun f => (firstFile ix f).edges := by
    intro e
    have hview : e ∈ parsed.edges ↔ e ∈ (parsed.view rankedColumns e.sourceFile).edges := by
      show e ∈ parsed.edges ↔ e ∈ parsed.edges.filter _
      simp
    rw [hview, List.mem_flatMap]
    constructor
    · intro he
      -- an edge belongs to the view of its file, and stale files have none left
      by_cases hlisted : e.sourceFile ∈ tree.files.map (·.path)
      · obtain ⟨f, hf, hpath⟩ := List.mem_map.mp hlisted
        rw [← hpath, (view_parsePhase_listed hhash hdb hstable hf).1] at he
        exact ⟨f, hf, he⟩
      · rw [view_parsePhase_stale hdb hstable hlisted] at he
        exact absurd he (by simp [FileView.empty])
    · rintro ⟨f, hf, he⟩
      rw [← (view_parsePhase_listed hhash hdb hstable hf).1] at he
      have hsource : e.sourceFile = f.path := eq_of_beq (List.mem_filter.mp he).2
      rw [hsource]
      exact he
  rw [Db.graphEdgesAll, treeGraph, graphOf, graphOf]
  congr 1
  apply SortedSet.sortDedup_congr
  intro g
  simp only [List.mem_filterMap, hmem]

/-- A completed run from a first index of one tree, or an index that holds just that, leaves what
    a first index of the next tree holds, if nothing old survives. -/
theorem view_step (hhash : Function.Injective ix.hash)
    (hdb : ∀ path, db.view rankedColumns path = firstView ix tree₀ path)
    (howed : db.reextractOwed = false) (hstable : Stable ix db tree) (noSummaries inline : Bool)
    (served : Served) (path : String) :
    ((Call.full false noSummaries tree inline served).run ix db).view rankedColumns path
      = firstView ix tree path := by
  set parsed := complete (Db.apply ix) db (parsePhase ix false false tree) with hparsed
  have hrun : ((Call.full false noSummaries tree inline served).run ix db).view rankedColumns path
      = rankView ix parsed.graphEdgesAll (parsed.view rankedColumns path) := by
    rw [Call.run, Call.writes, run_writes, howed, Call.stages, complete_append, ← hparsed,
      laterPhases, List.append_assoc, complete_append, ← run_writes _ _ (_ ++ _),
      view_run_unseen ix rankedColumns]
    · exact view_graphRanks ix parsed path
    · intro w hw
      obtain ⟨st, hst, t, hw⟩ := mem_writes _ hw
      exact (later_afterRanks ix noSummaries inline served st hst t w hw).unseen rankedColumns path
  rw [hrun, graphEdgesAll_parsePhase hhash hdb hstable]
  by_cases hlisted : path ∈ tree.files.map (·.path)
  · obtain ⟨f, hf, rfl⟩ := List.mem_map.mp hlisted
    rw [(view_parsePhase_listed hhash hdb hstable hf).2, firstView_listed hf]
  · rw [view_parsePhase_stale hdb hstable hlisted, firstView_unlisted hlisted]
    rfl

end OneRun

/-! ## Runs -/

/-- An unforced run that completes. -/
structure IndexRun where
  tree : Tree
  noSummaries : Bool
  inline : Bool
  served : Served

/-- The index after a run. -/
def indexStep (db : Db R V) (r : IndexRun) : Db R V :=
  (Call.full false r.noSummaries r.tree r.inline r.served).run ix db

/-- The same file paths, and for each path the same chunks with the same ranks and the same
    edges. -/
structure SameIndex (db db' : Db R V) : Prop where
  paths : ∀ path, path ∈ db.allFilePaths ↔ path ∈ db'.allFilePaths
  chunks : ∀ path, (db.chunksOf path).map (fun c => (c.toStoredChunk, c.graphRank))
    = (db'.chunksOf path).map fun c => (c.toStoredChunk, c.graphRank)
  edges : ∀ path, db.edgesOf path = db'.edgesOf path

omit [Zero R] in
theorem sameIndex_of_view {db db' : Db R V}
    (h : ∀ path, db.view rankedColumns path = db'.view rankedColumns path) : SameIndex db db' where
  paths path := by
    rw [mem_allFilePaths_iff rankedColumns, mem_allFilePaths_iff rankedColumns, h]
  chunks path := congrArg FileView.chunks (h path)
  edges path := congrArg FileView.edges (h path)

/-- A re-extraction that is not owed does not become so. -/
theorem reextractOwed_run_false {db : Db R V} (h : db.reextractOwed = false)
    (ws : List (Write R V)) : (run (Db.apply ix) db ws).reextractOwed = false := by
  apply run_keeps (P := fun db : Db R V => db.reextractOwed = false) (Db.apply ix) _ h
  intro db w _ hdb
  by_cases hw : w = .clearReextractOwed
  · rw [hw]
    rfl
  · rw [reextractOwed_apply ix db hw, hdb]

/-- The index holds what a first index of some tree holds. -/
def HoldsFirst (db : Db R V) : Prop :=
  db.reextractOwed = false
    ∧ ∃ tree₀, ∀ path, db.view rankedColumns path = firstView ix tree₀ path

theorem holdsFirst_empty : HoldsFirst ix (Db.empty : Db R V) :=
  ⟨rfl, ⟨[], by simp⟩, fun _ => rfl⟩

theorem stable_empty (tree : Tree) : Stable ix (Db.empty : Db R V) tree where
  cleaned _ := rfl
  unread _ _ _ := rfl
  edges _ _ _ _ _ _ _ := rfl
  ranks _ _ _ _ _ c hc := absurd hc (by simp [Db.chunksOf, Db.empty])

/-- For every sequence of trees, each indexed by a completed unforced run that nothing old
    survives, the index holds in the end what a first index of the last tree holds. -/
theorem sameIndex_of_stable (ix : Indexer R V) (hhash : Function.Injective ix.hash)
    (earlier : List IndexRun) (last first : IndexRun) (hfirst : first.tree = last.tree)
    (hstable : EachStep (indexStep ix) (fun db r => Stable ix db r.tree) Db.empty
      (earlier ++ [last])) :
    SameIndex (run (indexStep ix) Db.empty (earlier ++ [last])) (indexStep ix Db.empty first) := by
  have hstep : ∀ (db : Db R V) (r : IndexRun), HoldsFirst ix db → Stable ix db r.tree →
      HoldsFirst ix (indexStep ix db r) := by
    rintro db r ⟨howed, tree₀, hdb⟩ hr
    exact ⟨reextractOwed_run_false ix howed _, r.tree,
      view_step hhash hdb howed hr r.noSummaries r.inline r.served⟩
  obtain ⟨hearlier, hlast, -⟩ := (eachStep_append (indexStep ix)).mp hstable
  obtain ⟨howed, tree₀, hdb⟩ := run_inv hstep (holdsFirst_empty ix) hearlier
  obtain ⟨howed', tree₁, hdb'⟩ := holdsFirst_empty ix
  apply sameIndex_of_view
  intro path
  rw [run_append, run_cons, run_nil]
  have hleft : (indexStep ix (run (indexStep ix) Db.empty earlier) last).view rankedColumns path
      = firstView ix last.tree path :=
    view_step hhash hdb howed hlast last.noSummaries last.inline last.served path
  have hright : (indexStep ix Db.empty first).view rankedColumns path
      = firstView ix first.tree path :=
    view_step hhash hdb' howed' (stable_empty ix first.tree) first.noSummaries first.inline
      first.served path
  rw [hleft, hright, hfirst]

theorem latin1_injective : Function.Injective latin1 := by
  intro bytes bytes' h
  have hchars := String.ofList_injective h
  refine List.map_injective_iff.mpr ?_ hchars
  intro b b' hb
  have hnat : ∀ b : UInt8, (Char.ofNat b.toNat).toNat = b.toNat := by
    intro b
    have hvalid : b.toNat.isValidChar := .inl (by have := b.toNat_lt; omega)
    rw [Char.ofNat, dif_pos hvalid]
    rfl
  have heq := congrArg Char.toNat hb
  simp only [hnat] at heq
  exact UInt8.toNat_inj.mp heq

/-- The document of `oneDocument`, edited. -/
def editedDocument : Tree where
  files := [⟨"a.docx", 1, some [66]⟩]
  paths_nodup := by decide

theorem sameIndex_of_edit :
    SameIndex
      (run (indexStep (documentIndexer none)) Db.empty
        ([⟨oneDocument, false, true, notServed⟩] ++ [⟨editedDocument, false, true, notServed⟩]))
      (indexStep (documentIndexer none) Db.empty ⟨editedDocument, false, true, notServed⟩) := by
  refine sameIndex_of_stable (documentIndexer none) latin1_injective
    [⟨oneDocument, false, true, notServed⟩] ⟨editedDocument, false, true, notServed⟩
    ⟨editedDocument, false, true, notServed⟩ rfl ⟨stable_empty _ _, ?_, trivial⟩
  constructor
  · intro h
    exact absurd h (by simp [editedDocument])
  · intro f hf hparsed
    rw [List.mem_singleton.mp hf] at hparsed
    exact absurd (hparsed _ rfl) (by simp)
  · intro f hf _ _ _ _ _
    rw [List.mem_singleton.mp hf]
    decide +kernel
  · intro f hf _ _ _ c hc
    rw [List.mem_singleton.mp hf] at hc
    have hzero : ∀ c ∈ (indexStep (documentIndexer none) Db.empty
        ⟨oneDocument, false, true, notServed⟩).chunksOf "a.docx", c.graphRank = 0 := by
      decide +kernel
    exact .inl (hzero c hc)

/-- A tree from which every file is gone. -/
def emptiedTree : Tree where
  files := []
  paths_nodup := by decide

/-- An emptied tree leaves the index as it was. -/
theorem not_sameIndex_of_emptied :
    ¬ SameIndex
      (run (indexStep (documentIndexer none)) Db.empty
        ([⟨oneDocument, false, true, notServed⟩] ++ [⟨emptiedTree, false, true, notServed⟩]))
      (indexStep (documentIndexer none) Db.empty ⟨emptiedTree, false, true, notServed⟩) := by
  intro h
  have hstored : "a.docx" ∈ (run (indexStep (documentIndexer none)) Db.empty
      ([⟨oneDocument, false, true, notServed⟩]
        ++ [⟨emptiedTree, false, true, notServed⟩])).allFilePaths := by
    decide +kernel
  exact absurd ((h.paths "a.docx").mp hstored) (by decide +kernel)

end Index
end Inkentry
