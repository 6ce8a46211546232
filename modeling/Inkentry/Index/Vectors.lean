/-
  Inkentry.Index.Vectors

  Vectors and the texts they were made from.  A chunk outside the text-only
  scope that has a vector is either queued, by the pending flag, or its vector
  is that of the text it has now.  A write of a vector makes this so
  (`rightVectors_embedPhase`), and a summary written with the flag keeps it;
  a summary written without the flag does not, where there is a vector already.
-/

import Inkentry.Index.Phases

namespace Inkentry
namespace Index

open Runs Staged

variable {R V : Type} (ix : Indexer R V)

/-! ## The invariant -/

/-- The chunk is text-only, or queued for another embedding, or its vector, if it has one, is
    that of its text. -/
def ChunkRow.Current (c : ChunkRow R V) : Prop :=
  c.textOnly = true ∨ c.embedPending = true ∨ ∀ v, c.vector = some v → v = ix.embed c.embeddingText

def VectorsCurrent (db : Db R V) : Prop := ∀ c ∈ db.chunks, c.Current ix

/-- A summary written without the flag goes to chunks whose vector does not depend on it: ones
    that are text-only, queued already, or without a vector. -/
def Write.Flagged (db : Db R V) : Write R V → Prop
  | .updateChunkSummary id _ => ∀ c ∈ db.chunks, c.id = id →
      c.textOnly = true ∨ c.embedPending = true ∨ c.vector.isNone = true
  | _ => True

instance Write.Flagged.decidable (db : Db R V) (w : Write R V) : Decidable (w.Flagged db) := by
  cases w <;> unfold Write.Flagged <;> infer_instance

/-- Vectors are written with the texts their chunks have. -/
def Write.RightVectors (db : Db R V) : Write R V → Prop
  | .insertEmbeddings rows => ∀ row ∈ rows, ∀ c ∈ db.chunks, c.id = row.1 →
      row.2 = ix.embed c.embeddingText
  | _ => True

/-! ## One write -/

variable {ix}

theorem ChunkRow.Current.congr {c c' : ChunkRow R V} (h : c.Current ix)
    (htext : c'.embeddingText = c.embeddingText) (honly : c'.textOnly = c.textOnly)
    (hpending : c'.embedPending = c.embedPending) (hvector : c'.vector = c.vector) :
    c'.Current ix := by
  rw [ChunkRow.Current, htext, honly, hpending, hvector]
  exact h

theorem current_setRank {c : ChunkRow R V} (ranks : List (ℕ × R)) (h : c.Current ix) :
    (ranks.foldl ChunkRow.setRank c).Current ix := by
  apply run_keeps (P := fun c : ChunkRow R V => c.Current ix) ChunkRow.setRank _ h
  intro c rank _ hc
  by_cases hid : c.id = rank.1
  · exact hc.congr (by simp [ChunkRow.setRank, hid, ChunkRow.embeddingText])
      (by simp [ChunkRow.setRank, hid]) (by simp [ChunkRow.setRank, hid])
      (by simp [ChunkRow.setRank, hid])
  · simpa [ChunkRow.setRank, hid] using hc

theorem embeddingText_setVector (c : ChunkRow R V) (row : ℕ × V) :
    (c.setVector row).embeddingText = c.embeddingText := by
  by_cases h : c.id = row.1 <;> simp [ChunkRow.setVector, h, ChunkRow.embeddingText]

theorem embeddingText_foldl_setVector (c : ChunkRow R V) (rows : List (ℕ × V)) :
    (rows.foldl ChunkRow.setVector c).embeddingText = c.embeddingText :=
  run_keeps (P := fun c' : ChunkRow R V => c'.embeddingText = c.embeddingText) ChunkRow.setVector
    (fun c' row _ h => (embeddingText_setVector c' row).trans h) rfl

theorem current_setVector {c : ChunkRow R V} {rows : List (ℕ × V)} (h : c.Current ix)
    (hrows : ∀ row ∈ rows, c.id = row.1 → row.2 = ix.embed c.embeddingText) :
    (rows.foldl ChunkRow.setVector c).Current ix := by
  have hkeep : (rows.foldl ChunkRow.setVector c).Current ix
      ∧ (rows.foldl ChunkRow.setVector c).id = c.id
      ∧ (rows.foldl ChunkRow.setVector c).embeddingText = c.embeddingText := by
    apply run_keeps (P := fun c' : ChunkRow R V => c'.Current ix ∧ c'.id = c.id
      ∧ c'.embeddingText = c.embeddingText) ChunkRow.setVector _ ⟨h, rfl, rfl⟩
    rintro c' row hrow ⟨hc', hid', htext'⟩
    refine ⟨?_, (ChunkRow.setVector_id c' row).trans hid',
      (embeddingText_setVector c' row).trans htext'⟩
    by_cases hid : c'.id = row.1
    · right
      right
      intro v hv
      have hv' : row.2 = v := by simpa [ChunkRow.setVector, hid] using hv
      rw [embeddingText_setVector, htext', ← hv']
      exact hrows row hrow (hid' ▸ hid)
    · simpa [ChunkRow.setVector, hid] using hc'
  exact hkeep.1

variable [Zero R]
variable {db : Db R V}
variable {w : Write R V}

theorem vectorsCurrent_apply (h : VectorsCurrent ix db) (hflagged : w.Flagged db)
    (hright : w.RightVectors ix db) : VectorsCurrent ix (db.apply ix w) := by
  -- an update of rows is followed row by row
  have hmodify : ∀ (g : ChunkRow R V → ChunkRow R V) (hg : ∀ c, (g c).id = c.id),
      (∀ c ∈ db.chunks, (g c).Current ix) → VectorsCurrent ix (db.modifyChunks g hg) := by
    intro g hg hall c hc
    obtain ⟨c', hc', rfl⟩ := List.mem_map.mp hc
    exact hall c' hc'
  cases w with
  | upsertFile row =>
    intro c hc
    have hchunks : (db.upsertFile row).chunks = db.chunks := by
      unfold Db.upsertFile
      split <;> rfl
    exact h c (hchunks ▸ hc)
  | deleteEmbeddingsForFile path =>
    refine hmodify _ (fun c => c.forgetVector_id path) ?_
    intro c hc
    by_cases hpath : c.path = path
    · right
      right
      intro v hv
      simp [ChunkRow.forgetVector, hpath] at hv
    · simpa [ChunkRow.forgetVector, hpath] using h c hc
  | deleteChunksForFile path => exact fun c hc => h c (List.mem_of_mem_filter hc)
  | insertChunk path sc =>
    intro c hc
    change c ∈ (db.insertChunk ix path sc).chunks at hc
    unfold Db.insertChunk at hc
    split at hc
    · exact h c hc
    · rcases List.mem_append.mp hc with hc | hc
      · exact h c hc
      · rw [List.mem_singleton.mp hc]
        right
        right
        intro v hv
        exact absurd hv (by simp [Db.newRow])
  | deleteEdgesOf path => exact h
  | insertEdge e => exact h
  | deleteFileRow path => exact h
  | clearReextractOwed => exact h
  | updateGraphRanks ranks =>
    exact hmodify _ (fun c => c.foldl_setRank_id ranks) fun c hc => current_setRank ranks (h c hc)
  | updateChunkSummary id summary =>
    refine hmodify _ (fun c => c.setSummary_id id summary) ?_
    intro c hc
    by_cases hid : c.id = id
    · have hset : c.setSummary id summary = { c with summary := some summary } := if_pos hid
      rw [hset]
      rcases hflagged c hc hid with honly | hpending | hnone
      · exact .inl honly
      · exact .inr (.inl hpending)
      · right
        right
        intro v hv
        rw [Option.isNone_iff_eq_none] at hnone
        exact absurd (hnone.symm.trans hv) (by simp)
    · simpa [ChunkRow.setSummary, hid] using h c hc
  | setSummaryAndMarkPending id summary =>
    refine hmodify _ (fun c => c.setSummaryPending_id id summary) ?_
    intro c hc
    by_cases hid : c.id = id
    · exact .inr (.inl (by simp [ChunkRow.setSummaryPending, hid]))
    · simpa [ChunkRow.setSummaryPending, hid] using h c hc
  | insertEmbeddings rows =>
    refine hmodify _ (fun c => c.foldl_setVector_id rows) ?_
    intro c hc
    exact current_setVector (h c hc) fun row hrow hid => hright row hrow c hc hid

/-! ## The vectors a call writes -/

variable {st : Stage R V}

omit [Zero R] in
theorem eq_of_id_eq {c c' : ChunkRow R V} (hc : c ∈ db.chunks) (hc' : c' ∈ db.chunks)
    (h : c.id = c'.id) : c = c' :=
  List.inj_on_of_nodup_map db.ids_nodup hc hc' h

/-- The batches of one embed phase are right although the queue is read once: embedding changes
    no text. -/
theorem rightVectors_embedPhase (batches : List (List ℕ)) (db : Db R V) :
    EachStep (Db.apply ix) (fun db w => w.RightVectors ix db) db (embedPhase ix batches db) := by
  -- later states have the texts of the first
  have hgen : ∀ (batches : List (List ℕ)) (db' : Db R V),
      (∀ c ∈ db'.chunks, ∃ c₀ ∈ db.chunks, c₀.id = c.id ∧ c₀.embeddingText = c.embeddingText) →
      EachStep (Db.apply ix) (fun db w => w.RightVectors ix db) db'
        (batches.map fun ids => .insertEmbeddings
          ((db.missingEmbeddings.filter (·.1 ∈ ids)).map fun row => (row.1, ix.embed row.2))) := by
    intro batches
    induction batches with
    | nil => intro db' _; trivial
    | cons ids batches ih =>
      intro db' htexts
      refine ⟨?_, ih _ ?_⟩
      · intro row hrow c hc hid
        obtain ⟨queued, hqueued, rfl⟩ := List.mem_map.mp hrow
        obtain ⟨c₁, hc₁, rfl⟩ := List.mem_map.mp (List.mem_of_mem_filter hqueued)
        obtain ⟨c₀, hc₀, hid₀, htext⟩ := htexts c hc
        have hsame : c₁ = c₀ :=
          eq_of_id_eq (List.mem_of_mem_filter hc₁) hc₀ (hid.symm.trans hid₀.symm)
        rw [← htext, ← hsame]
      · intro c hc
        obtain ⟨c', hc', rfl⟩ := List.mem_map.mp hc
        obtain ⟨c₀, hc₀, hid₀, htext⟩ := htexts c' hc'
        exact ⟨c₀, hc₀, hid₀.trans (c'.foldl_setVector_id _).symm,
          htext.trans (embeddingText_foldl_setVector c' _).symm⟩
  exact hgen batches db fun c hc => ⟨c, hc, rfl, rfl⟩

/-- A stage whose writes are right where they are made. -/
def RightStage (ix : Indexer R V) (st : Stage R V) : Prop :=
  ∀ db, EachStep (Db.apply ix) (fun db w => w.RightVectors ix db) db (st db)

theorem rightStage_of_forall
    (h : ∀ db, ∀ w ∈ st db, ∀ rows, w ≠ .insertEmbeddings rows) : RightStage ix st := by
  intro db
  apply eachStep_of_forall
  intro w hw db'
  cases w with
  | insertEmbeddings rows => exact absurd rfl (h db _ hw rows)
  | _ => trivial

theorem rightStage_onlyIf {cond : Db R V → Bool} {stages : List (Stage R V)}
    (h : ∀ st ∈ stages, RightStage ix st) : RightStage ix (onlyIf ix cond stages) := by
  intro db
  unfold onlyIf
  split
  · exact eachStep_writes _ h db
  · trivial

omit [Zero R] in
theorem tier3Selection_ne (hw : w ∈ tier3Selection ix db)
    (rows : List (ℕ × V)) : w ≠ .insertEmbeddings rows := by
  obtain ⟨c, -, hc⟩ := List.mem_filterMap.mp hw
  obtain ⟨v, -, rfl⟩ := Option.map_eq_some_iff.mp hc
  unfold selectSummary
  extract_lets units summary
  by_cases hunits : units.length < 2
  · simp [hunits]
  · by_cases hsecret : summary.isEmpty || ix.containsSecret summary
    · rw [if_neg hunits, if_pos hsecret]
      simp
    · rw [if_neg hunits, if_neg hsecret]
      simp

theorem rightStage_postEmbed (noSummaries : Bool) (served : Served) :
    RightStage ix (postEmbed ix noSummaries served) := by
  intro db
  cases noSummaries with
  | true => trivial
  | false =>
    apply eachStep_writes
    intro st hst
    simp only [List.mem_cons, List.not_mem_nil, or_false] at hst
    rcases hst with rfl | rfl
    · intro db'
      apply eachStep_of_forall
      intro w hw db''
      cases w with
      | insertEmbeddings rows => exact absurd rfl (tier3Selection_ne (List.mem_of_mem_take hw) rows)
      | _ => trivial
    · apply rightStage_onlyIf
      intro st hst
      rw [List.mem_singleton.mp hst]
      exact rightVectors_embedPhase served.rebatches

/-! ## Stages of a call -/

omit [Zero R] in
theorem storeEdges_ne {path : String} {edges : Option (List Edge)} (hw : w ∈ storeEdges path edges)
    (rows : List (ℕ × V)) : w ≠ .insertEmbeddings rows := by
  cases edges with
  | none => exact absurd hw (by simp [storeEdges])
  | some es =>
    rcases List.mem_cons.mp hw with rfl | hw
    · simp
    · obtain ⟨e, -, rfl⟩ := List.mem_map.mp hw
      simp

omit [Zero R] in
theorem processFile_ne {force owed : Bool} {f : DiskFile} (hw : w ∈ processFile ix force owed f db)
    (rows : List (ℕ × V)) : w ≠ .insertEmbeddings rows := by
  unfold processFile at hw
  split at hw
  · exact absurd hw (by simp)
  · unfold processReading at hw
    split at hw
    · split at hw
      · exact storeEdges_ne hw rows
      · exact absurd hw (by simp)
    · split at hw
      · exact absurd hw (by simp)
      · rcases List.mem_append.mp hw with hw | hw
        · rcases List.mem_append.mp hw with hw | hw
          · simp only [List.mem_cons, List.not_mem_nil, or_false] at hw
            rcases hw with rfl | rfl | rfl <;> simp
          · exact storeEdges_ne hw rows
        · obtain ⟨c, -, rfl⟩ := List.mem_map.mp hw
          simp

theorem rightStage_parsePhase {force owed : Bool} {tree : Tree}
    (hst : st ∈ parsePhase ix force owed tree) : RightStage ix st := by
  apply rightStage_of_forall
  intro db w hw rows
  unfold parsePhase at hst
  split at hst
  · exact absurd hst (by simp)
  · rcases List.mem_append.mp hst with hst | hst
    · obtain ⟨f, -, rfl⟩ := List.mem_map.mp hst
      exact processFile_ne hw rows
    · simp only [List.mem_cons, List.not_mem_nil, or_false] at hst
      rcases hst with rfl | rfl
      · obtain ⟨p, -, hw⟩ := List.mem_flatMap.mp hw
        simp only [deleteFile, List.mem_cons, List.not_mem_nil, or_false] at hw
        rcases hw with rfl | rfl | rfl | rfl <;> simp
      · unfold finish at hw
        split at hw
        · rw [List.mem_singleton.mp hw]
          simp
        · exact absurd hw (by simp)

theorem rightStage_laterPhases {noSummaries inline : Bool} {served : Served}
    (hst : st ∈ laterPhases ix noSummaries inline served) : RightStage ix st := by
  rw [laterPhases, List.append_assoc] at hst
  -- ranks and summaries write no vector; the embedding phases write the right one
  rcases List.mem_append.mp hst with hst | hst
  · rw [List.mem_singleton.mp hst]
    apply rightStage_of_forall
    intro db w hw rows
    unfold graphRanks at hw
    split at hw
    · exact absurd hw (by simp)
    · simp only at hw
      split at hw
      · exact absurd hw (by simp)
      · rw [List.mem_singleton.mp hw]
        simp
  · rcases List.mem_append.mp hst with hst | hst
    · split at hst
      · exact absurd hst (by simp)
      · rw [List.mem_singleton.mp hst]
        apply rightStage_of_forall
        intro db w hw rows
        obtain ⟨c, -, hc⟩ := List.mem_filterMap.mp hw
        obtain ⟨name, -, rfl⟩ := Option.map_eq_some_iff.mp hc
        simp
    · rw [List.mem_singleton.mp hst]
      apply rightStage_onlyIf
      intro st' hst'
      rcases List.mem_append.mp hst' with h | h
      · rw [List.mem_singleton.mp h]
        exact rightVectors_embedPhase served.batches
      · split at h
        · rw [List.mem_singleton.mp h]
          exact rightStage_postEmbed noSummaries served
        · exact absurd h (by simp)

theorem rightVectors_writes (ix : Indexer R V) (call : Call) (db : Db R V) :
    EachStep (Db.apply ix) (fun db w => w.RightVectors ix db) db (call.writes ix db) := by
  apply eachStep_writes
  intro st hst
  cases call with
  | full force noSummaries tree inline served =>
    rcases List.mem_append.mp hst with hst | hst
    · exact rightStage_parsePhase hst
    · exact rightStage_laterPhases hst
  | embedPhases noSummaries served =>
    simp only [Call.stages, List.mem_cons, List.not_mem_nil, or_false] at hst
    rcases hst with rfl | rfl
    · exact rightVectors_embedPhase served.batches
    · exact rightStage_postEmbed noSummaries served
  | backgroundPhases noSummaries served =>
    rw [List.mem_singleton.mp hst]
    exact rightStage_postEmbed noSummaries served

/-! ## Runs of calls -/

/-- A call, killed after some number of writes or not. -/
structure Invocation where
  call : Call
  kill : Option ℕ

variable (ix)

/-- The writes an invocation makes. -/
def Invocation.writes (db : Db R V) (inv : Invocation) : List (Write R V) :=
  match inv.kill with
  | none => inv.call.writes ix db
  | some k => (inv.call.writes ix db).take k

/-- Invocations follow one another under the run lock. -/
def invoke (db : Db R V) (inv : Invocation) : Db R V := run (Db.apply ix) db (inv.writes ix db)

/-- Each summary that an invocation writes without the flag goes to a chunk whose vector does not
    depend on it. -/
def FlaggedInvocation (db : Db R V) (inv : Invocation) : Prop :=
  EachStep (Db.apply ix) (fun db w => w.Flagged db) db (inv.writes ix db)

variable {ix}

theorem vectorsCurrent_run {ws : List (Write R V)} (h : VectorsCurrent ix db)
    (hflagged : EachStep (Db.apply ix) (fun db w => w.Flagged db) db ws)
    (hright : EachStep (Db.apply ix) (fun db w => w.RightVectors ix db) db ws) :
    VectorsCurrent ix (run (Db.apply ix) db ws) := by
  have hstep : ∀ (db : Db R V) (w : Write R V), VectorsCurrent ix db →
      (w.Flagged db ∧ w.RightVectors ix db) → VectorsCurrent ix (db.apply ix w) :=
    fun _ _ hdb hw => vectorsCurrent_apply hdb hw.1 hw.2
  exact run_inv hstep h (hflagged.and _ hright)

theorem vectorsCurrent_invoke {inv : Invocation} (h : VectorsCurrent ix db)
    (hflagged : FlaggedInvocation ix db inv) : VectorsCurrent ix (invoke ix db inv) := by
  apply vectorsCurrent_run h hflagged
  have hright := rightVectors_writes ix inv.call db
  unfold Invocation.writes
  cases inv.kill with
  | none => exact hright
  | some k => exact hright.take _ k

instance FlaggedInvocation.decidable (db : Db R V) (inv : Invocation) :
    Decidable (FlaggedInvocation ix db inv) :=
  inferInstanceAs (Decidable (EachStep _ _ _ _))

/-- In every run of index calls, each killed anywhere or not, that writes no summary without the
    flag to a chunk whose vector depends on it, every chunk outside the text-only scope has no
    vector, or is queued, or has the vector of its text; and the text rebuilt from a chunk's
    columns is the text of the chunk. -/
theorem eachState_vectorsCurrent (ix : Indexer R V) {db : Db R V} (h : VectorsCurrent ix db)
    {invs : List Invocation} (hflagged : EachStep (invoke ix) (FlaggedInvocation ix) db invs) :
    EachState (invoke ix) (VectorsCurrent ix) db invs
      ∧ ∀ c : Chunk, reconstructEmbeddingText c.name (some (chunkMetadata c)) c.summary c.content
        = c.embeddingText :=
  ⟨eachState_of_inv (fun _ _ hdb hinv => vectorsCurrent_invoke hdb hinv) h hflagged,
    reconstructEmbeddingText_chunkMetadata⟩

/-- An embedder that embeds the first chunk and answers for one candidate. -/
def servedOne : Served := ⟨[[1]], 1, []⟩

/-- A named chunk has its summary before its vector, also over a second run killed midway. -/
theorem eachState_vectorsCurrent_of_named :
    EachState (invoke (documentIndexer (some "a"))) (VectorsCurrent (documentIndexer (some "a")))
      Db.empty
      [⟨.full false false oneDocument true servedOne, none⟩,
        ⟨.full true false oneDocument true servedOne, some 3⟩] :=
  (eachState_vectorsCurrent (documentIndexer (some "a")) (by simp [VectorsCurrent, Db.empty])
    (by decide +kernel)).1

/-- An unnamed chunk of one unit is embedded without a summary and then marked as unrefinable:
    its text has an empty summary now, its vector is that of the text without, and it is not
    queued. -/
theorem not_vectorsCurrent_of_unrefinable :
    ¬ EachState (invoke (documentIndexer none)) (VectorsCurrent (documentIndexer none)) Db.empty
      [⟨.full false false oneDocument true servedOne, none⟩] := by
  intro h
  have hlast := h.last
  have hstale : ∃ c ∈ (invoke (documentIndexer none) Db.empty
      ⟨.full false false oneDocument true servedOne, none⟩).chunks,
      c.textOnly = false ∧ c.embedPending = false
        ∧ c.vector.any (· != c.embeddingText) = true := by
    decide +kernel
  obtain ⟨c, hc, honly, hpending, hvector⟩ := hstale
  obtain ⟨v, hv, hne⟩ := (Option.any_eq_true _ _).mp hvector
  rcases hlast c hc with h | h | h
  · exact absurd (honly.symm.trans h) (by simp)
  · exact absurd (hpending.symm.trans h) (by simp)
  · have hcurrent : v = c.embeddingText := h v hv
    simp [hcurrent] at hne

end Index
end Inkentry
