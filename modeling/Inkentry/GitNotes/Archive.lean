/-
  Inkentry.GitNotes.Archive

  Archiving an entry by the id it is shown under.  `get` looks the id up among
  the folded records; `archive` looks it up among the raw lines, and appends its
  update under the identity recomputed from the line it found.

  The two agree when the first line with the id has content that hashes to the
  shown entry's identity (`ArchiveHits`).
-/

import Inkentry.GitNotes.Update

namespace Inkentry
namespace GitNotes

open FirstMin

variable {sha : String → String} {repo : Repo} {clock : Clock}

/-! ## What an archive should do -/

/-- The folded state of an entity; `none` when no line carries it. -/
def Repo.folded (sha : String → String) (repo : Repo) (entity : String) : Option NoteRecord :=
  foldGroup (groupOf sha (repo.recordsWithCommit.map Prod.snd) entity)

/-- An id that shows an entry archives that entry and touches no other; an id that
    shows nothing leaves the log alone. -/
structure ArchivesShown (sha : String → String) (clock : Clock) (repo : Repo) (id : NoteId) :
    Prop where
  shown : ∀ f, repo.lookup sha id = some f →
    ∃ repo', repo.archive sha clock id = some (true, repo')
      ∧ (∃ f', repo'.folded sha (f.resolveEntityId sha) = some f' ∧ f'.status = "archived")
      ∧ ∀ entity ≠ f.resolveEntityId sha, repo'.folded sha entity = repo.folded sha entity
  missing : repo.lookup sha id = none →
    ∀ found repo', repo.archive sha clock id = some (found, repo') → repo' = repo

/-- The first raw line with an id. -/
def Repo.firstLine (repo : Repo) (id : NoteId) : Option NoteRecord :=
  (carrierId id).bind fun n =>
    (repo.recordsWithCommit.find? fun p => p.2.id = n).map Prod.snd

/-- The identity of a line's content, stored or not. -/
def contentEntityId (sha : String → String) (r : NoteRecord) : String :=
  Inkentry.entityId sha r.kind r.title r.body

/-- The line an archive appends for the line it found. -/
def archiveLine (sha : String → String) (clock : Clock) (r : NoteRecord) : NoteRecord :=
  stateUpdateRecord sha clock (recordToNote sha r) "archived"
    (r.invalidAt.or (some clock.nowSecs)) none

/-- One more line on HEAD is nothing new for an entity. -/
def Repo.Absorbs (sha : String → String) (repo : Repo) (line : NoteRecord) (entity : String) :
    Prop :=
  ∀ head ∈ repo.history.head?,
    (repo.appendAt head [line]).folded sha entity = repo.folded sha entity

/-- If a raw line has the id, the id shows an entry, and the line's content hashes to
    that entry; or the entry is archived already, and the update is nothing new where
    it goes. -/
def ArchiveHits (sha : String → String) (clock : Clock) (repo : Repo) (id : NoteId) : Prop :=
  ∀ r ∈ repo.firstLine id, ∃ f ∈ repo.lookup sha id,
    contentEntityId sha r = f.resolveEntityId sha
    ∨ f.status = "archived" ∧ repo.Absorbs sha (archiveLine sha clock r) (contentEntityId sha r)

/-! ## The append -/

variable {id : NoteId}

theorem archive_eq (sha : String → String) (clock : Clock) (repo : Repo) (id : NoteId) :
    repo.archive sha clock id
      = match repo.firstLine id with
        | none => some (false, repo)
        | some r => (repo.appendToHead [archiveLine sha clock r]).map fun repo' => (true, repo') := by
  unfold Repo.archive Repo.firstLine
  cases carrierId id with
  | none => rfl
  | some n =>
    rw [Option.bind_some, Option.bind_some]
    cases repo.recordsWithCommit.find? fun p => p.2.id = n with
    | none => rfl
    | some p => rfl

theorem exists_head_of_firstLine {r : NoteRecord} (h : repo.firstLine id = some r) :
    ∃ head, repo.history.head? = some head := by
  cases hhead : repo.history.head? with
  | some head => exact ⟨head, rfl⟩
  | none =>
    have hnil : repo.recordsWithCommit = [] := by
      simp [Repo.recordsWithCommit, List.head?_eq_none_iff.mp hhead]
    unfold Repo.firstLine at h
    rw [hnil] at h
    cases hid : carrierId id with
    | none => simp [hid] at h
    | some n => simp [hid] at h

theorem folded_appendAt_of_ne {head : String} (hhead : repo.history.head? = some head)
    (line : NoteRecord) {entity : String} (hne : entity ≠ line.resolveEntityId sha) :
    (repo.appendAt head [line]).folded sha entity = repo.folded sha entity := by
  obtain ⟨ours, older, hbefore, -, -, hafter⟩ := recordsWithCommit_appendAt_head hhead
  unfold Repo.folded
  rw [hbefore, hafter]
  simp [groupOf, Ne.symm hne]

theorem folded_appendAt_archived {head : String} (hhead : repo.history.head? = some head)
    (line : NoteRecord) (hline : line.status = "archived") :
    ∃ f', (repo.appendAt head [line]).folded sha (line.resolveEntityId sha) = some f'
      ∧ f'.status = "archived" := by
  have hmem : line ∈ groupOf sha ((repo.appendAt head [line]).recordsWithCommit.map Prod.snd)
      (line.resolveEntityId sha) := mem_groupOf_appendAt hhead line
  obtain ⟨f', hf'⟩ := Option.isSome_iff_exists.mp (foldGroup_isSome (List.ne_nil_of_mem hmem))
  obtain ⟨base, hbase⟩ := exists_base_of_foldGroup hf'
  refine ⟨f', hf', ?_⟩
  rw [(foldGroup_base hbase hf').2.2, foldedStatus, if_pos ⟨line, hmem, hline⟩]

theorem appendAt_ne (repo : Repo) (head : String) (line : NoteRecord) :
    repo.appendAt head [line] ≠ repo := by
  intro heq
  have hnotes := congrArg (fun r : Repo => (r.notes head).length) heq
  simp [Repo.appendAt] at hnotes

/-! ## The lookups -/

theorem folded_of_lookup {f : NoteRecord} (h : repo.lookup sha id = some f) :
    repo.folded sha (f.resolveEntityId sha) = some f := by
  obtain ⟨n, -, hfind⟩ := Option.bind_eq_some_iff.mp h
  exact mem_foldRecords.mp (List.mem_of_find?_eq_some hfind)

theorem firstLine_isSome_of_lookup {f : NoteRecord}
    (h : repo.lookup sha id = some f) : ∃ r, repo.firstLine id = some r := by
  obtain ⟨n, hn, hfind⟩ := Option.bind_eq_some_iff.mp h
  have hid : f.id = n := by simpa using List.find?_some hfind
  have hfold : foldGroup (groupOf sha (repo.recordsWithCommit.map Prod.snd) _) = some f :=
    folded_of_lookup h
  obtain ⟨base, hbase⟩ := exists_base_of_foldGroup hfold
  have hkey := (foldGroup_base hbase hfold).2.1
  obtain ⟨p, hp, hpbase⟩ := List.mem_map.mp (mem_groupOf.mp (List.argmin_mem hbase)).1
  have hpid : p.2.id = n := by
    rw [hpbase, ← (baseKey_eq_iff.mp hkey).2.1, hid]
  have hsome : (repo.recordsWithCommit.find? fun p => p.2.id = n).isSome :=
    List.find?_isSome.mpr ⟨p, hp, by simpa using hpid⟩
  obtain ⟨q, hq⟩ := Option.isSome_iff_exists.mp hsome
  exact ⟨q.2, by rw [Repo.firstLine, hn, Option.bind_some, hq]; rfl⟩

/-! ## The agreement -/

/-- Archiving does what the lookup showed exactly when the two lookups agree. -/
theorem archivesShown_iff (sha : String → String) (clock : Clock) (repo : Repo) (id : NoteId) :
    ArchivesShown sha clock repo id ↔ ArchiveHits sha clock repo id := by
  have harch := archive_eq sha clock repo id
  cases hline : repo.firstLine id with
  | none =>
    rw [hline] at harch
    have hlookup : repo.lookup sha id = none := by
      rw [Option.eq_none_iff_forall_ne_some]
      intro f hf
      obtain ⟨r, hr⟩ := firstLine_isSome_of_lookup hf
      rw [hline] at hr
      exact absurd hr (by simp)
    refine iff_of_true ⟨?_, ?_⟩ ?_
    · intro f hf
      rw [hlookup] at hf
      exact absurd hf (by simp)
    · intro _ found repo' h
      rw [harch] at h
      exact (Prod.mk.inj (Option.some.inj h)).2.symm
    · intro r hr
      rw [hline] at hr
      exact absurd hr (by simp)
  | some r =>
    obtain ⟨head, hhead⟩ := exists_head_of_firstLine hline
    have happend : repo.archive sha clock id
        = some (true, repo.appendAt head [archiveLine sha clock r]) := by
      rw [harch, hline]
      show (repo.appendToHead [archiveLine sha clock r]).map _ = _
      rw [Repo.appendToHead, hhead]
      rfl
    obtain ⟨g, hg, hgarch⟩ : ∃ g, (repo.appendAt head [archiveLine sha clock r]).folded sha
        (contentEntityId sha r) = some g ∧ g.status = "archived" :=
      folded_appendAt_archived hhead (archiveLine sha clock r) rfl
    have hother {entity : String} (hne : entity ≠ contentEntityId sha r) :
        (repo.appendAt head [archiveLine sha clock r]).folded sha entity = repo.folded sha entity :=
      folded_appendAt_of_ne hhead (archiveLine sha clock r) hne
    cases hlookup : repo.lookup sha id with
    | none =>
      -- the id shows nothing, and the log grows
      refine iff_of_false (fun h => ?_) fun h => ?_
      · exact appendAt_ne repo head _ (h.missing hlookup _ _ happend)
      · obtain ⟨f, hf, -⟩ := h r hline
        rw [hlookup] at hf
        exact absurd hf (by simp)
    | some f =>
      have hfold := folded_of_lookup hlookup
      constructor
      · intro h r' hr'
        obtain rfl : r = r' := Option.some.inj (hline.symm.trans hr')
        obtain ⟨repo', hrepo', ⟨f', hf', harchived⟩, hothers⟩ := h.shown f hlookup
        obtain rfl : repo.appendAt head [archiveLine sha clock r] = repo' :=
          (Prod.mk.inj (Option.some.inj (happend.symm.trans hrepo'))).2
        refine ⟨f, hlookup, ?_⟩
        by_cases hkey : contentEntityId sha r = f.resolveEntityId sha
        · exact .inl hkey
        · -- the shown entry was not touched, so it was archived before
          refine .inr ⟨?_, ?_⟩
          · rw [hother (fun h => hkey h.symm), hfold] at hf'
            rw [Option.some.inj hf']
            exact harchived
          · intro head' hhead'
            obtain rfl : head = head' := Option.some.inj (hhead.symm.trans hhead')
            exact hothers _ hkey
      · intro h
        obtain ⟨f', hf', hhit⟩ := h r hline
        obtain rfl : f = f' := Option.some.inj (hlookup.symm.trans hf')
        refine ⟨fun f' hf' => ?_, fun hnone => ?_⟩
        · obtain rfl : f = f' := Option.some.inj (hlookup.symm.trans hf')
          refine ⟨_, happend, ?_⟩
          by_cases hkey : contentEntityId sha r = f.resolveEntityId sha
          · rw [← hkey]
            exact ⟨⟨g, hg, hgarch⟩, fun entity hne => hother hne⟩
          · obtain ⟨harchived, habsorbs⟩ := hhit.resolve_left hkey
            refine ⟨⟨f, ?_, harchived⟩, fun entity _ => ?_⟩
            · rw [hother (fun h => hkey h.symm), hfold]
            · by_cases hself : entity = contentEntityId sha r
              · rw [hself]
                exact habsorbs head hhead
              · exact hother hself
        · rw [hlookup] at hnone
          exact absurd hnone (by simp)

/-! ### An update's own id

    An entry, and an edge recorded on it a second later. -/

/-- The entry's line, and the line that carries the edge, under the id of its own
    millisecond. -/
def axumRepo : Repo where
  history := ["2e7a"]
  nodup := List.nodup_singleton _
  notes := Function.update (fun _ => []) "2e7a"
    [axumRecord, edgesRecord axumSha ⟨1700000001, 1700000001000⟩ (recordToNote axumSha axumRecord)
      [⟨"relates_to", axumSha ""⟩]]

/-- The edge's own id shows nothing, and archives the entry. -/
theorem not_archivesShown_of_update_id :
    ¬ ∃ clock, ArchivesShown axumSha clock axumRepo (carrierToken 1700000001000) := by
  rintro ⟨clock, h⟩
  have hline : axumRepo.firstLine (carrierToken 1700000001000)
      = some (edgesRecord axumSha ⟨1700000001, 1700000001000⟩ (recordToNote axumSha axumRecord)
        [⟨"relates_to", axumSha ""⟩]) := by
    decide +kernel
  have happend := archive_eq axumSha clock axumRepo (carrierToken 1700000001000)
  rw [hline] at happend
  exact appendAt_ne axumRepo "2e7a" _ (h.missing (by decide +kernel) true _ happend)

end GitNotes
end Inkentry
