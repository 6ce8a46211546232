/-
  Inkentry.Index.RunView

  A whole call seen from one listed file.  The writes of a file's stage do not
  depend on the other files, so the parse phase makes, file after file, the
  writes that the stored index asks for (`writes_files`); and of all writes of
  a call only those of its own stage are seen in the file's view.
  `view_killed` puts the two together for a call killed anywhere.
-/

import Inkentry.Index.FileStage
import Inkentry.Index.Phases

namespace Inkentry
namespace Index

open Runs Staged

variable {R V τ : Type} [Zero R] (ix : Indexer R V) (cols : Columns R τ)

/-! ## Writes a view does not see -/

variable {ws : List (Write R V)}

/-- A write that the view of `path` does not see. -/
structure Unseen (path : String) (w : Write R V) : Prop where
  unchanged : ∀ v : FileView τ, onView cols path v w = v
  follows : cols.Follows w

theorem view_run_unseen {path : String} (hws : ∀ w ∈ ws, Unseen cols path w) (db : Db R V) :
    (run (Db.apply ix) db ws).view cols path = db.view cols path :=
  view_run_of_unseen (fun db => db.view cols path) fun w hw db =>
    (view_apply ix path db (hws w hw).follows).trans ((hws w hw).unchanged _)

theorem About.unseen_of_ne {path p : String} (h : About cols path ws)
    (hp : p ≠ path) : ∀ w ∈ ws, Unseen cols p w :=
  fun w hw => ⟨h.unseen w hw p hp, h.follows w hw⟩

/-! ## The files of the walk -/

/-- The writes of a file's stage, from the stored index. -/
def plannedWrites (force owed : Bool) (db : Db R V) (f : DiskFile) : List (Write R V) :=
  fileWrites ix cols force owed f (db.view cols f.path)

theorem view_stage_of_ne {force owed : Bool} {f : DiskFile} {p : String} (hp : p ≠ f.path)
    (db : Db R V) :
    (stage (Db.apply ix) db (processFile ix force owed f)).view cols p = db.view cols p := by
  rw [stage, processFile_eq ix cols]
  exact view_run_unseen ix cols ((about_fileWrites ix cols force owed f _).unseen_of_ne cols hp) db

/-- What a file's stage writes is fixed by the index the phase starts in. -/
theorem writes_files (force owed : Bool) {files : List DiskFile}
    (hnodup : (files.map (·.path)).Nodup) (db : Db R V) :
    writes (Db.apply ix) db (files.map (processFile ix force owed))
      = files.flatMap (plannedWrites ix cols force owed db) := by
  induction files generalizing db with
  | nil => rfl
  | cons f files ih =>
    rw [List.map_cons, List.nodup_cons] at hnodup
    rw [List.map_cons, writes, ih hnodup.2, List.flatMap_cons, processFile_eq ix cols]
    congr 1
    apply List.flatMap_congr
    intro g hg
    have hne : g.path ≠ f.path := fun h => hnodup.1 (List.mem_map.mpr ⟨g, hg, h⟩)
    rw [plannedWrites, view_stage_of_ne ix cols hne]
    rfl

/-! ## The stages after the walk -/

variable {w : Write R V}
variable {st : Stage R V} {db : Db R V}

theorem unseen_cleanupStale {tree : Tree} {f : DiskFile} (hf : f ∈ tree.files) (db : Db R V) :
    ∀ w ∈ cleanupStale tree db, Unseen cols f.path w := by
  intro w hw
  obtain ⟨p, hp, hw⟩ := List.mem_flatMap.mp hw
  have hlisted : p ∉ tree.files.map (·.path) := by simpa using (List.mem_filter.mp hp).2
  have hne : p ≠ f.path := fun h => hlisted (List.mem_map.mpr ⟨f, hf, h.symm⟩)
  simp only [deleteFile, List.mem_cons, List.not_mem_nil, or_false] at hw
  rcases hw with rfl | rfl | rfl | rfl <;> exact ⟨fun v => by simp [onView, hne], trivial⟩

theorem unseen_finish (owed : Bool) (path : String) (db : Db R V) :
    ∀ w ∈ finish owed db, Unseen cols path w := by
  intro w hw
  cases owed with
  | false => exact absurd hw (by simp [finish])
  | true =>
    rw [List.mem_singleton.mp hw]
    exact ⟨fun _ => rfl, trivial⟩

/-- Writes of summaries and vectors. -/
def Write.Later : Write R V → Prop
  | .updateChunkSummary _ _ | .setSummaryAndMarkPending _ _ | .insertEmbeddings _ => True
  | _ => False

theorem Write.Later.unseen (h : w.Later) (path : String) : Unseen cols path w := by
  cases w <;> first | exact ⟨fun _ => rfl, trivial⟩ | exact h.elim

omit [Zero R] in
theorem later_structuralSummaries (db : Db R V) : ∀ w ∈ structuralSummaries ix db, w.Later := by
  intro w hw
  obtain ⟨c, -, hc⟩ := List.mem_filterMap.mp hw
  obtain ⟨name, -, rfl⟩ := Option.map_eq_some_iff.mp hc
  trivial

omit [Zero R] in
theorem later_embedPhase (batches : List (List ℕ)) (db : Db R V) :
    ∀ w ∈ embedPhase ix batches db, w.Later := by
  intro w hw
  obtain ⟨ids, -, rfl⟩ := List.mem_map.mp hw
  trivial

omit [Zero R] in
theorem later_selectSummary (c : ChunkRow R V) (centroid : V) :
    (selectSummary ix c centroid).Later := by
  unfold selectSummary
  extract_lets units summary
  by_cases hunits : units.length < 2
  · rw [if_pos hunits]
    trivial
  · rw [if_neg hunits]
    by_cases hsecret : summary.isEmpty || ix.containsSecret summary
    · rw [if_pos hsecret]
      trivial
    · rw [if_neg hsecret]
      trivial

omit [Zero R] in
theorem later_tier3Selection (db : Db R V) : ∀ w ∈ tier3Selection ix db, w.Later := by
  intro w hw
  obtain ⟨c, -, hc⟩ := List.mem_filterMap.mp hw
  obtain ⟨v, -, rfl⟩ := Option.map_eq_some_iff.mp hc
  exact later_selectSummary ix c v

theorem later_onlyIf {cond : Db R V → Bool} {stages : List (Stage R V)}
    (hstages : ∀ st ∈ stages, ∀ db, ∀ w ∈ st db, w.Later) (db : Db R V) :
    ∀ w ∈ onlyIf ix cond stages db, w.Later := by
  intro w hw
  unfold onlyIf at hw
  split at hw
  · obtain ⟨st, hst, t, hw⟩ := mem_writes _ hw
    exact hstages st hst t w hw
  · exact absurd hw (by simp)

theorem later_postEmbed (noSummaries : Bool) (served : Served) (db : Db R V) :
    ∀ w ∈ postEmbed ix noSummaries served db, w.Later := by
  intro w hw
  cases noSummaries with
  | true => exact absurd hw (by simp [postEmbed])
  | false =>
    obtain ⟨st, hst, t, hw⟩ := mem_writes _ hw
    simp only [List.mem_cons, List.not_mem_nil, or_false] at hst
    rcases hst with rfl | rfl
    · exact later_tier3Selection ix db w (List.mem_of_mem_take hw)
    · refine later_onlyIf ix ?_ t w hw
      intro st' hst'
      rw [List.mem_singleton.mp hst']
      exact later_embedPhase ix served.rebatches

/-- After the ranks only summaries and vectors are written. -/
theorem later_afterRanks (noSummaries inline : Bool) (served : Served) :
    ∀ st ∈ (if noSummaries then [] else [structuralSummaries ix])
      ++ [onlyIf ix (fun db => !db.missingEmbeddings.isEmpty)
        ([embedPhase ix served.batches]
          ++ if inline then [postEmbed ix noSummaries served] else [])],
      ∀ db, ∀ w ∈ st db, w.Later := by
  intro st hst
  rcases List.mem_append.mp hst with hst | hst
  · split at hst
    · exact absurd hst (by simp)
    · rw [List.mem_singleton.mp hst]
      exact later_structuralSummaries ix
  · rw [List.mem_singleton.mp hst]
    apply later_onlyIf
    intro st' hst'
    rcases List.mem_append.mp hst' with h | h
    · rw [List.mem_singleton.mp h]
      exact later_embedPhase ix served.batches
    · split at h
      · rw [List.mem_singleton.mp h]
        exact later_postEmbed ix noSummaries served
      · exact absurd h (by simp)

theorem laterPhases_cases {noSummaries inline : Bool} {served : Served}
    (hst : st ∈ laterPhases ix noSummaries inline served)
    (hw : w ∈ st db) : w.Later ∨ ∃ ranks, w = .updateGraphRanks ranks := by
  rw [laterPhases, List.append_assoc] at hst
  rcases List.mem_append.mp hst with h | h
  · rw [List.mem_singleton.mp h, graphRanks] at hw
    split at hw
    · exact absurd hw (by simp)
    · simp only at hw
      split at hw
      · exact absurd hw (by simp)
      · exact .inr ⟨_, List.mem_singleton.mp hw⟩
  · exact .inl (later_afterRanks ix noSummaries inline served st h db w hw)

theorem unseen_laterPhases (hfree : cols.RankFree) {noSummaries inline : Bool} {served : Served}
    (hst : st ∈ laterPhases ix noSummaries inline served) (path : String)
    (hw : w ∈ st db) : Unseen cols path w := by
  rcases laterPhases_cases ix hst hw with h | ⟨ranks, rfl⟩
  · exact h.unseen cols path
  · exact ⟨fun _ => rfl, hfree⟩

/-! ## The re-extraction flag -/

theorem reextractOwed_apply (db : Db R V) (hw : w ≠ .clearReextractOwed) :
    (db.apply ix w).reextractOwed = db.reextractOwed := by
  cases w with
  | clearReextractOwed => exact absurd rfl hw
  | upsertFile row =>
    show (db.upsertFile row).reextractOwed = _
    unfold Db.upsertFile
    split <;> rfl
  | insertChunk path c =>
    show (db.insertChunk ix path c).reextractOwed = _
    unfold Db.insertChunk
    split <;> rfl
  | _ => rfl

theorem reextractOwed_run (db : Db R V) (hws : ∀ w ∈ ws, w ≠ .clearReextractOwed) :
    (run (Db.apply ix) db ws).reextractOwed = db.reextractOwed :=
  view_run_of_unseen (fun db => db.reextractOwed) fun w hw db =>
    reextractOwed_apply ix db (hws w hw)

omit [Zero R] in
theorem keepsOwed_cleanupStale (tree : Tree) (db : Db R V) :
    ∀ w ∈ cleanupStale tree db, w ≠ .clearReextractOwed := by
  intro w hw
  obtain ⟨p, -, hw⟩ := List.mem_flatMap.mp hw
  simp only [deleteFile, List.mem_cons, List.not_mem_nil, or_false] at hw
  rcases hw with rfl | rfl | rfl | rfl <;> simp

theorem keepsOwed_laterPhases {noSummaries inline : Bool} {served : Served}
    (hst : st ∈ laterPhases ix noSummaries inline served)
    (hw : w ∈ st db) : w ≠ .clearReextractOwed := by
  rcases laterPhases_cases ix hst hw with h | ⟨ranks, rfl⟩
  · rintro rfl
    exact h
  · simp

/-! ## A call seen from one file -/

section FullCall

variable {cols} {tree : Tree} (force noSummaries inline : Bool) (served : Served)
variable {f : DiskFile} {before after : List DiskFile}

omit [Zero R] in
theorem parsePhase_eq (owed : Bool) (hf : f ∈ tree.files) :
    parsePhase ix force owed tree
      = tree.files.map (processFile ix force owed) ++ [cleanupStale tree, finish owed] := by
  have hne : tree.files.isEmpty = false := by
    cases hfiles : tree.files with
    | nil => simp [hfiles] at hf
    | cons g files => rfl
  rw [parsePhase, hne]
  rfl

/-- The writes of the parse phase and of later stages around those of one file, which alone are
    seen in its view. -/
theorem exists_writes_parse (owed : Bool) (hsplit : tree.files = before ++ f :: after)
    {later : List (Stage R V)} (hlater : ∀ st ∈ later, ∀ db, ∀ w ∈ st db, Unseen cols f.path w)
    (db : Db R V) :
    ∃ rest, writes (Db.apply ix) db (parsePhase ix force owed tree ++ later)
        = before.flatMap (plannedWrites ix cols force owed db)
          ++ (plannedWrites ix cols force owed db f ++ rest)
      ∧ (∀ w ∈ before.flatMap (plannedWrites ix cols force owed db), Unseen cols f.path w)
      ∧ ∀ w ∈ rest, Unseen cols f.path w := by
  have hf : f ∈ tree.files := by simp [hsplit]
  have hnodup := tree.paths_nodup
  rw [hsplit, List.map_append, List.map_cons, List.nodup_append, List.nodup_cons] at hnodup
  -- a path stands in the tree once, so the other files write to other paths
  have hothers : ∀ g, g ∈ before ∨ g ∈ after →
      ∀ w ∈ plannedWrites ix cols force owed db g, Unseen cols f.path w := by
    intro g hg
    apply (about_fileWrites ix cols force _ g _).unseen_of_ne cols
    rcases hg with hg | hg
    · exact (hnodup.2.2 g.path (List.mem_map_of_mem hg) f.path List.mem_cons_self).symm
    · exact fun h => hnodup.2.1.1 (List.mem_map.mpr ⟨g, hg, h.symm⟩)
  have hmany : ∀ files : List DiskFile, (∀ g ∈ files, g ∈ before ∨ g ∈ after) →
      ∀ w ∈ files.flatMap (plannedWrites ix cols force owed db), Unseen cols f.path w := by
    intro files hfiles w hw
    obtain ⟨g, hg, hw⟩ := List.mem_flatMap.mp hw
    exact hothers g (hfiles g hg) w hw
  have hwrites : writes (Db.apply ix) db (parsePhase ix force owed tree ++ later)
      = tree.files.flatMap (plannedWrites ix cols force owed db)
        ++ writes (Db.apply ix)
          (complete (Db.apply ix) db (tree.files.map (processFile ix force owed)))
          ([cleanupStale tree, finish owed] ++ later) := by
    rw [parsePhase_eq ix force _ hf, List.append_assoc, writes_append,
      writes_files ix cols force _ tree.paths_nodup]
  rw [hwrites, hsplit, List.flatMap_append, List.flatMap_cons]
  refine ⟨after.flatMap (plannedWrites ix cols force owed db)
    ++ writes (Db.apply ix) (complete (Db.apply ix) db
      ((before ++ f :: after).map (processFile ix force owed)))
      ([cleanupStale tree, finish owed] ++ later),
    by simp only [List.append_assoc], hmany before fun g hg => .inl hg, ?_⟩
  intro w hw
  rcases List.mem_append.mp hw with hw | hw
  · exact hmany after (fun g hg => .inr hg) w hw
  · obtain ⟨st, hst, t, hw⟩ := mem_writes _ hw
    rcases List.mem_append.mp hst with h | h
    · simp only [List.mem_cons, List.not_mem_nil, or_false] at h
      rcases h with rfl | rfl
      · exact unseen_cleanupStale cols hf t w hw
      · exact unseen_finish cols _ f.path t w hw
    · exact hlater st h t w hw

theorem view_parsePhase (owed : Bool) (hf : f ∈ tree.files) (db : Db R V) :
    (complete (Db.apply ix) db (parsePhase ix force owed tree)).view cols f.path
      = afterFile ix cols force owed f (db.view cols f.path) := by
  obtain ⟨before, after, hsplit⟩ := List.append_of_mem hf
  obtain ⟨rest, hwrites, hbefore, hrest⟩ :=
    exists_writes_parse ix force owed hsplit
      (fun st (hst : st ∈ ([] : List (Stage R V))) => absurd hst (by simp)) db
  rw [List.append_nil] at hwrites
  rw [← run_writes, hwrites, run_append, run_append, view_run_unseen ix cols hrest,
    view_run (fun db : Db R V => db.view cols f.path) (onView cols f.path),
    view_run_unseen ix cols hbefore]
  · rfl
  · intro w hw t
    exact view_apply ix f.path t ((about_fileWrites ix cols force _ f _).follows w hw)

/-- The writes of a call around those of one file. -/
theorem exists_writes_full (hfree : cols.RankFree) (hsplit : tree.files = before ++ f :: after)
    (db : Db R V) :
    ∃ rest, (Call.full force noSummaries tree inline served).writes ix db
        = before.flatMap (plannedWrites ix cols force db.reextractOwed db)
          ++ (plannedWrites ix cols force db.reextractOwed db f ++ rest)
      ∧ (∀ w ∈ before.flatMap (plannedWrites ix cols force db.reextractOwed db),
          Unseen cols f.path w)
      ∧ ∀ w ∈ rest, Unseen cols f.path w :=
  exists_writes_parse ix force db.reextractOwed hsplit
    (fun _ hst _ _ hw => unseen_laterPhases ix cols hfree hst f.path hw) db

/-- A killed call has made of each file's writes as many as are left after those of the files
    before it. -/
theorem view_killed (hfree : cols.RankFree) (hsplit : tree.files = before ++ f :: after)
    (db : Db R V) (k : ℕ) :
    ((Call.full force noSummaries tree inline served).killed ix k db).view cols f.path
      = run (onView cols f.path) (db.view cols f.path)
        ((plannedWrites ix cols force db.reextractOwed db f).take
          (k - (before.flatMap (plannedWrites ix cols force db.reextractOwed db)).length)) := by
  obtain ⟨rest, hwrites, hbefore, hrest⟩ :=
    exists_writes_full ix force noSummaries inline served hfree hsplit db
  rw [Call.killed, hwrites, List.take_append, List.take_append, run_append, run_append,
    view_run_unseen ix cols (fun w hw => hrest w (List.mem_of_mem_take hw)),
    view_run (fun db : Db R V => db.view cols f.path) (onView cols f.path),
    view_run_unseen ix cols (fun w hw => hbefore w (List.mem_of_mem_take hw))]
  intro w hw t
  exact view_apply ix f.path t
    ((about_fileWrites ix cols force _ f _).follows w (List.mem_of_mem_take hw))

theorem view_full (hfree : cols.RankFree) (hf : f ∈ tree.files) (db : Db R V) :
    ((Call.full force noSummaries tree inline served).run ix db).view cols f.path
      = afterFile ix cols force db.reextractOwed f (db.view cols f.path) := by
  rw [Call.run, Call.writes, run_writes, Call.stages, complete_append,
    ← run_writes _ _ (laterPhases _ _ _ _), view_run_unseen ix cols, view_parsePhase ix force db.reextractOwed hf]
  intro w hw
  obtain ⟨st, hst, t, hw⟩ := mem_writes _ hw
  exact unseen_laterPhases ix cols hfree hst f.path hw

/-- Whether a re-extraction is still owed after a call killed after `k` writes: the flag is
    cleared by the last write of the parse phase. -/
def owedAfter (tree : Tree) (k : ℕ) (db : Db R V) : Bool :=
  db.reextractOwed
    && k < (writes (Db.apply ix) db (parsePhase ix force db.reextractOwed tree)).length

theorem reextractOwed_killed (hf : f ∈ tree.files) (db : Db R V) (k : ℕ) :
    ((Call.full force noSummaries tree inline served).killed ix k db).reextractOwed
      = owedAfter ix force tree k db := by
  -- the writes before the flag is cleared, and those after
  set walk := writes (Db.apply ix) db
    (tree.files.map (processFile ix force db.reextractOwed) ++ [cleanupStale tree]) with hwalk
  have hphase : writes (Db.apply ix) db (parsePhase ix force db.reextractOwed tree)
      = walk ++ if db.reextractOwed then [.clearReextractOwed] else [] := by
    have happend : tree.files.map (processFile ix force db.reextractOwed)
          ++ [cleanupStale tree, finish db.reextractOwed]
        = (tree.files.map (processFile ix force db.reextractOwed) ++ [cleanupStale tree])
          ++ [finish db.reextractOwed] := by simp
    rw [parsePhase_eq ix force _ hf, happend, writes_append, hwalk]
    simp [writes, finish]
  obtain ⟨later, hlater, hwrites⟩ : ∃ later : List (Write R V),
      (∀ w ∈ later, w ≠ .clearReextractOwed)
        ∧ (Call.full force noSummaries tree inline served).writes ix db
          = writes (Db.apply ix) db (parsePhase ix force db.reextractOwed tree) ++ later := by
    refine ⟨_, ?_, writes_append (Db.apply ix) db _ _⟩
    intro w hw
    obtain ⟨st, hst, t, hw⟩ := mem_writes _ hw
    exact keepsOwed_laterPhases ix hst hw
  have hwalk_keeps : ∀ w ∈ walk, w ≠ .clearReextractOwed := by
    intro w hw
    obtain ⟨st, hst, t, hw⟩ := mem_writes _ hw
    rcases List.mem_append.mp hst with h | h
    · obtain ⟨g, -, rfl⟩ := List.mem_map.mp h
      rw [processFile_eq ix parsedColumns] at hw
      exact (about_fileWrites ix parsedColumns force _ g _).keepsOwed w hw
    · rw [List.mem_singleton.mp h] at hw
      exact keepsOwed_cleanupStale tree t w hw
  rw [Call.killed, hwrites, owedAfter]
  rw [hphase]
  cases howed : db.reextractOwed with
  | false =>
    rw [reextractOwed_run, howed]
    · rfl
    intro w hw
    rcases List.mem_append.mp (List.mem_of_mem_take hw) with h | h
    · exact hwalk_keeps w (by simpa using h)
    · exact hlater w h
  | true =>
    simp only [if_true, List.length_append, List.length_singleton, Bool.true_and]
    by_cases hk : k < walk.length + 1
    · rw [List.append_assoc, List.take_append_of_le_length (by omega), reextractOwed_run, howed]
      · simp [hk]
      · exact fun w hw => hwalk_keeps w (List.mem_of_mem_take hw)
    · have htake : (walk ++ [Write.clearReextractOwed] ++ later).take k
          = (walk ++ [Write.clearReextractOwed]) ++ later.take (k - (walk.length + 1)) := by
        rw [List.take_append, List.take_of_length_le (by simp; omega)]
        simp
      rw [htake, run_append, reextractOwed_run ix _ fun w hw => hlater w (List.mem_of_mem_take hw),
        run_append]
      simp only [hk, decide_false]
      rfl

end FullCall

end Index
end Inkentry
