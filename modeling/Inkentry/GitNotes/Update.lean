/-
  Inkentry.GitNotes.Update

  What an update to an existing entry does to the entry's original.  An update
  is one more line under the entry's identity, with its own id and timestamp,
  and competes with the original for the base of the fold.

  `keepsEntry_append_iff` says when it loses: `Outranked` compares the base
  copy's key with the new line's clock readings.  The steps below are the
  carrier's own, taken by any number of machines whose clocks are independent;
  `updates_keep_entries_iff` lifts the condition to their runs.
-/

import Inkentry.Lib.Runs
import Inkentry.GitNotes.FoldOrder
import Inkentry.GitNotes.Repo

namespace Inkentry
namespace GitNotes

open FirstMin

/-! ## Inserting a line into a log -/

theorem groupOf_map_snd (sha : String → String) (lines : List (String × NoteRecord))
    (key : String) :
    groupOf sha (lines.map Prod.snd) key = (linesOf sha lines key).map Prod.snd := by
  simp [groupOf, linesOf, List.filter_map, Function.comp_def]

theorem argmin_groupOf_map_snd {sha : String → String} {lines : List (String × NoteRecord)}
    {key : String} {p : String × NoteRecord}
    (hp : (linesOf sha lines key).argmin (fun p => baseKey p.2) = some p) :
    (groupOf sha (lines.map Prod.snd) key).argmin baseKey = some p.2 := by
  rw [groupOf_map_snd, ← map_argmin_comp, hp, Option.map_some]

/-- A search of the fold that stops at an entry still stops there when one more
    line of that entry is put into the log, if the entry's record is a hit
    before and after. -/
theorem find?_foldRecords_insert {sha : String → String} {l l' : List NoteRecord}
    {u f f' : NoteRecord} {hit : NoteRecord → Bool}
    (hfind : (foldRecords sha (l ++ l')).find? hit = some f)
    (hf : f.resolveEntityId sha = u.resolveEntityId sha)
    (hf' : foldGroup (groupOf sha (l ++ u :: l') (u.resolveEntityId sha)) = some f')
    (hhit : hit f' = true) :
    (foldRecords sha (l ++ u :: l')).find? hit = some f' := by
  have hmem := mem_foldRecords.mp (List.mem_of_find?_eq_some hfind)
  have hfhit : hit f = true := List.find?_some hfind
  rw [hf] at hmem
  -- the test on keys that `find?` makes, before and after, is the same
  have hsame : ∀ key, (foldGroup (groupOf sha (l ++ u :: l') key)).any hit
      = (foldGroup (groupOf sha (l ++ l') key)).any hit := by
    intro key
    by_cases hkey : u.resolveEntityId sha = key
    · subst hkey
      rw [hf', hmem]
      simp [hhit, hfhit]
    · simp [groupOf, hkey]
  rw [foldRecords_eq, List.find?_filterMap, find?_order] at hfind ⊢
  simp only [hsame]
  obtain ⟨key, hkey, hfkey⟩ := Option.bind_eq_some_iff.mp hfind
  obtain rfl : key = u.resolveEntityId sha := by
    rw [← hf]
    exact (foldGroup_resolveEntityId (fun r hr => (mem_groupOf.mp hr).2) hfkey).symm
  have hkey' : ((l ++ u :: l').map (NoteRecord.resolveEntityId sha)).find?
      (fun key => (foldGroup (groupOf sha (l ++ l') key)).any hit)
        = some (u.resolveEntityId sha) := by
    rw [List.map_append, List.find?_append] at hkey ⊢
    cases hl : (l.map (NoteRecord.resolveEntityId sha)).find?
        (fun key => (foldGroup (groupOf sha (l ++ l') key)).any hit) with
    | some k =>
      rw [hl, Option.some_or] at hkey
      rw [Option.some_or, hkey]
    | none => simp [hmem, hfhit]
  rw [hkey', Option.bind_some, hf']

/-! ## One update -/

/-- An update leaves an existing entry's id, timestamp, origin, source and
    anchor as they were; the id still finds it, and an archiving update has
    archived it. -/
def KeepsEntry (sha : String → String) (before after : Repo) (entity status : String) : Prop :=
  ∀ f ∈ before.foldedRecords sha, f.resolveEntityId sha = entity →
    ∃ f' ∈ after.foldedRecords sha, f'.resolveEntityId sha = entity
      ∧ f'.id = f.id ∧ f'.createdAt = f.createdAt ∧ f'.origin = f.origin
      ∧ f'.sourceRef = f.sourceRef
      ∧ (status = "archived" → f'.status = "archived")
      ∧ (∀ id, before.lookup sha id = some f → after.lookup sha id = some f')
      ∧ anchorCommits sha after.recordsWithCommit entity
          = anchorCommits sha before.recordsWithCommit entity

/-- A line for HEAD's note does not displace the base copy of its entity: the
    base copy's key is smaller; or the base copy is on HEAD too, where it is
    read first, and is as small, or the fields that would be displaced agree. -/
def Outranked (sha : String → String) (repo : Repo) (head : String) (u : NoteRecord) : Prop :=
  ∀ p, (linesOf sha repo.recordsWithCommit (u.resolveEntityId sha)).argmin
      (fun p => baseKey p.2) = some p →
    baseKey p.2 < baseKey u
    ∨ p.1 = head ∧ (baseKey p.2 = baseKey u
        ∨ u.id = p.2.id ∧ u.createdAt = p.2.createdAt ∧ u.origin = p.2.origin
          ∧ u.sourceRef = p.2.sourceRef)

section Append

variable {sha : String → String} {repo : Repo} {head : String}
variable {p : String × NoteRecord}

/-- The base line of the entity after the append, given the one before. -/
theorem base_after_append (hhead : repo.history.head? = some head) {u : NoteRecord}
    (hp : (linesOf sha repo.recordsWithCommit (u.resolveEntityId sha)).argmin (fun p => baseKey p.2) = some p)
    :
    ((baseKey p.2 < baseKey u ∨ baseKey p.2 ≤ baseKey u ∧ p.1 = head)
      ∧ (linesOf sha (repo.appendAt head [u]).recordsWithCommit (u.resolveEntityId sha)).argmin
        (fun p => baseKey p.2) = some p)
    ∨ (¬ (baseKey p.2 < baseKey u ∨ baseKey p.2 ≤ baseKey u ∧ p.1 = head)
      ∧ (linesOf sha (repo.appendAt head [u]).recordsWithCommit (u.resolveEntityId sha)).argmin
        (fun p => baseKey p.2) = some (head, u)) := by
  obtain ⟨ours, older, hbefore, hours, holder, hafter⟩ := recordsWithCommit_appendAt_head hhead
  have hlines : linesOf sha (repo.appendAt head [u]).recordsWithCommit (u.resolveEntityId sha)
      = linesOf sha ours (u.resolveEntityId sha)
        ++ (head, u) :: linesOf sha older (u.resolveEntityId sha) := by
    simp [hafter, linesOf]
  rw [hbefore, linesOf, List.filter_append] at hp
  rw [hlines]
  -- the base line is on HEAD exactly when it is the base of HEAD's own lines
  have hfront : p.1 = head
      ↔ (linesOf sha ours (u.resolveEntityId sha)).argmin (fun p => baseKey p.2) = some p := by
    constructor
    · intro hph
      rcases argmin_append_eq_some hp with ⟨hl, -⟩ | ⟨hl, -⟩
      · exact hl
      · exact absurd hph (holder p (List.mem_filter.mp (List.argmin_mem hl)).1)
    · intro hl
      exact hours p (List.mem_filter.mp (List.argmin_mem hl)).1
  by_cases hstay : baseKey p.2 < baseKey u ∨ baseKey p.2 ≤ baseKey u ∧ p.1 = head
  · refine .inl ⟨hstay, argmin_insert_of_le (x := (head, u)) hp ?_⟩
    rw [hfront] at hstay
    exact hstay
  · refine .inr ⟨hstay, argmin_insert_of_not_le (x := (head, u)) hp ?_⟩
    rw [hfront] at hstay
    exact hstay

/-- The folded entry and its base line, the fields they share. -/
theorem foldGroup_of_base {lines : List (String × NoteRecord)} {key : String}
    (hp : (linesOf sha lines key).argmin (fun p => baseKey p.2) = some p) :
    ∃ f, foldGroup (groupOf sha (lines.map Prod.snd) key) = some f
      ∧ f ∈ foldRecords sha (lines.map Prod.snd) ∧ f.resolveEntityId sha = key
      ∧ f.id = p.2.id ∧ f.createdAt = p.2.createdAt ∧ f.origin = p.2.origin
      ∧ f.sourceRef = p.2.sourceRef
      ∧ f.status = foldedStatus (groupOf sha (lines.map Prod.snd) key) p.2
      ∧ anchorCommits sha lines key = some p.1 := by
  have hbase := argmin_groupOf_map_snd hp
  obtain ⟨f, hf⟩ := Option.isSome_iff_exists.mp
    (foldGroup_isSome (List.ne_nil_of_mem (List.argmin_mem hbase)))
  obtain ⟨hunkeyed, hkey, hstatus⟩ := foldGroup_base hbase hf
  obtain ⟨hcreated, hid, href, -, -⟩ := baseKey_eq_iff.mp hkey
  simp only [unkeyed, Prod.mk.injEq] at hunkeyed
  have hent : f.resolveEntityId sha = key :=
    foldGroup_resolveEntityId (fun r hr => (mem_groupOf.mp hr).2) hf
  refine ⟨f, hf, mem_foldRecords.mpr (hent ▸ hf), hent, hid, hcreated, hunkeyed.2.2.2.2.1, href,
    hstatus, ?_⟩
  rw [anchorCommits_eq]
  exact congrArg (Option.map Prod.fst) hp

/-- The group of the entity an appended line is under contains the line. -/
theorem mem_groupOf_appendAt (hhead : repo.history.head? = some head) (u : NoteRecord) :
    u ∈ groupOf sha ((repo.appendAt head [u]).recordsWithCommit.map Prod.snd)
      (u.resolveEntityId sha) := by
  obtain ⟨ours, older, -, -, -, hafter⟩ := recordsWithCommit_appendAt_head hhead
  refine mem_groupOf.mpr ⟨?_, rfl⟩
  simp [hafter]

/-- An id that found the entry finds it after the append, if the entry kept its id. -/
theorem lookup_appendAt (hhead : repo.history.head? = some head) {u f f' : NoteRecord}
    (hf : f.resolveEntityId sha = u.resolveEntityId sha)
    (hf' : foldGroup (groupOf sha ((repo.appendAt head [u]).recordsWithCommit.map Prod.snd)
      (u.resolveEntityId sha)) = some f')
    (hid : f'.id = f.id) {id : NoteId} (hfound : repo.lookup sha id = some f) :
    (repo.appendAt head [u]).lookup sha id = some f' := by
  obtain ⟨ours, older, hbefore, -, -, hafter⟩ := recordsWithCommit_appendAt_head hhead
  obtain ⟨n, hn, hfind⟩ := Option.bind_eq_some_iff.mp hfound
  have hafter' : (repo.appendAt head [u]).recordsWithCommit.map Prod.snd
      = ours.map Prod.snd ++ u :: older.map Prod.snd := by simp [hafter]
  have hhit : decide (f'.id = n) = true := by
    have hfn := List.find?_some hfind
    rw [hid]
    exact hfn
  rw [Repo.foldedRecords, hbefore, List.map_append] at hfind
  rw [Repo.lookup, hn, Option.bind_some, Repo.foldedRecords, hafter']
  exact find?_foldRecords_insert hfind hf (hafter' ▸ hf') hhit

/-- An update keeps its entry exactly when the entry's base copy outranks it. -/
theorem keepsEntry_append_iff (hhead : repo.history.head? = some head) (u : NoteRecord) :
    KeepsEntry sha repo (repo.appendAt head [u]) (u.resolveEntityId sha) u.status
      ↔ Outranked sha repo head u := by
  cases hbase : (linesOf sha repo.recordsWithCommit (u.resolveEntityId sha)).argmin
      (fun p => baseKey p.2) with
  | none =>
    -- no entry to keep
    refine iff_of_true ?_ ?_
    · intro f hf hent
      have hgroup := mem_foldRecords.mp hf
      rw [hent, groupOf_map_snd, List.argmin_eq_none.mp hbase] at hgroup
      simp [foldGroup, baseIndex, firstMinIdx] at hgroup
    · intro p hp
      rw [hbase] at hp
      exact absurd hp (Option.some_ne_none p).symm
  | some p =>
    obtain ⟨f, hf, hfmem, hfent, hfid, hfcreated, hforigin, hfref, -, hanchor⟩ :=
      foldGroup_of_base hbase
    have houtranked : Outranked sha repo head u ↔
        (baseKey p.2 < baseKey u ∨ p.1 = head ∧ (baseKey p.2 = baseKey u
          ∨ u.id = p.2.id ∧ u.createdAt = p.2.createdAt ∧ u.origin = p.2.origin
            ∧ u.sourceRef = p.2.sourceRef)) := by
      constructor
      · exact fun h => h p hbase
      · intro h q hq
        obtain rfl := Option.some.inj (hbase.symm.trans hq)
        exact h
    -- with `q` the base line after the append, keeping the entry is agreement of `p` and `q`
    have hkeeps : ∀ q : String × NoteRecord,
        (linesOf sha (repo.appendAt head [u]).recordsWithCommit (u.resolveEntityId sha)).argmin
          (fun p => baseKey p.2) = some q →
        (KeepsEntry sha repo (repo.appendAt head [u]) (u.resolveEntityId sha) u.status
          ↔ (q.2.id = p.2.id ∧ q.2.createdAt = p.2.createdAt ∧ q.2.origin = p.2.origin
            ∧ q.2.sourceRef = p.2.sourceRef) ∧ q.1 = p.1) := by
      intro q hq
      obtain ⟨f', hf', hfmem', hfent', hfid', hfcreated', hforigin', hfref', hfstatus', hanchor'⟩ :=
        foldGroup_of_base hq
      constructor
      · intro h
        obtain ⟨g, hgmem, hgent, hid, hcreated, horigin, href, -, -, hanc⟩ := h f hfmem hfent
        have hg := mem_foldRecords.mp hgmem
        rw [hgent, hf'] at hg
        obtain rfl := Option.some.inj hg
        rw [hanchor, hanchor'] at hanc
        exact ⟨⟨by rw [← hfid', hid, hfid], by rw [← hfcreated', hcreated, hfcreated],
          by rw [← hforigin', horigin, hforigin], by rw [← hfref', href, hfref]⟩,
          Option.some.inj hanc⟩
      · rintro ⟨⟨hid, hcreated, horigin, href⟩, hcommit⟩ g hgmem hgent
        have hg := mem_foldRecords.mp hgmem
        rw [hgent, hf] at hg
        obtain rfl := Option.some.inj hg
        have hfid'' : f'.id = f.id := by rw [hfid', hid, hfid]
        refine ⟨f', hfmem', hfent', hfid'', ?_, ?_, ?_, ?_, ?_, ?_⟩
        · rw [hfcreated', hcreated, hfcreated]
        · rw [hforigin', horigin, hforigin]
        · rw [hfref', href, hfref]
        · intro hstatus
          rw [hfstatus']
          exact if_pos ⟨u, mem_groupOf_appendAt hhead u, hstatus⟩
        · exact fun id hfound => lookup_appendAt hhead hfent hf' hfid'' hfound
        · rw [hanchor', hanchor, hcommit]
    rw [houtranked]
    rcases base_after_append hhead hbase with ⟨hstay, hafter⟩ | ⟨hgo, hafter⟩
    · rw [hkeeps p hafter]
      refine iff_of_true ⟨⟨rfl, rfl, rfl, rfl⟩, rfl⟩ ?_
      rcases hstay with hlt | ⟨hle, hph⟩
      · exact .inl hlt
      · exact hle.lt_or_eq.imp_right fun heq => ⟨hph, .inl heq⟩
    · rw [hkeeps (head, u) hafter]
      rw [not_or, not_and] at hgo
      constructor
      · rintro ⟨hfields, hcommit⟩
        exact .inr ⟨hcommit.symm, .inr hfields⟩
      · rintro (hlt | ⟨hph, heq | hfields⟩)
        · exact absurd hlt hgo.1
        · exact absurd hph (hgo.2 heq.le)
        · exact ⟨hfields, hph.symm⟩

end Append

/-! ## Runs of several machines -/

section Runs

variable {M : Type} [DecidableEq M]

/-- What can happen to the clones of one repository.  Every clock reading and
    everything git decides is part of the label. -/
inductive Step (M : Type) where
  /-- A commit, a checkout, a pull: another list of reachable commits. -/
  | moveHead (m : M) (history : List String) (nodup : history.Nodup)
  /-- Records of new entries appended to HEAD's note. -/
  | write (m : M) (records : List NoteRecord)
  /-- A state or edge update of the entry `base`, appended to HEAD's note. -/
  | update (m : M) (clock : Clock) (base : Note) (status : String) (invalidAt : Option Int)
      (supersededByEntityId : Option String) (edges : List CarriedEdge)
  /-- An anchor for the entry `base`, appended to the note on the commit claimed. -/
  | anchor (m : M) (clock : Clock) (target : String) (base : Note) (patchId : Option String)
  /-- Fetched notes merged in: the notes the merge leaves. -/
  | merge (m : M) (notes : String → List NoteRecord)

/-- One step; a write without a HEAD to write to fails and changes nothing. -/
def step (sha : String → String) (s : M → Repo) : Step M → M → Repo
  | .moveHead m history nodup => Function.update s m { s m with history, nodup }
  | .write m records => Function.update s m (((s m).appendToHead records).getD (s m))
  | .update m clock base status invalidAt successor edges =>
    Function.update s m (((s m).appendToHead
      [entityUpdateRecord sha clock base status invalidAt successor edges none none]).getD (s m))
  | .anchor m clock target base patchId =>
    Function.update s m ((s m).appendAt target [anchorRecord sha clock base patchId])
  | .merge m notes => Function.update s m { s m with notes }

theorem add_eq_write {sha : String → String} {s : M → Repo} {m : M} {clock : Clock}
    {input : NoteInput} {id : NoteId} {repo' : Repo}
    (h : (s m).add sha clock input = some (id, repo')) :
    step sha s (.write m [addRecord sha clock input]) = Function.update s m repo' := by
  obtain ⟨r, hr, heq⟩ := Option.map_eq_some_iff.mp h
  obtain ⟨-, rfl⟩ := Prod.mk.inj heq
  simp only [step, hr, Option.getD_some]

/-- Archiving by id is an `update` of the entry of the line found. -/
theorem archive_eq_update {sha : String → String} {s : M → Repo} {m : M} {clock : Clock}
    {id : NoteId} {repo' : Repo} (h : (s m).archive sha clock id = some (true, repo')) :
    ∃ p ∈ (s m).recordsWithCommit, carrierId id = some p.2.id ∧
      step sha s (.update m clock (recordToNote sha p.2) "archived"
        (p.2.invalidAt.or (some clock.nowSecs)) none []) = Function.update s m repo' := by
  unfold Repo.archive at h
  cases hfind : (carrierId id).bind fun n =>
      (s m).recordsWithCommit.find? fun p => p.2.id = n with
  | none =>
    rw [hfind] at h
    simp at h
  | some p =>
    rw [hfind] at h
    obtain ⟨n, hn, hp⟩ := Option.bind_eq_some_iff.mp hfind
    obtain ⟨r, hr, heq⟩ := Option.map_eq_some_iff.mp h
    obtain ⟨-, rfl⟩ := Prod.mk.inj heq
    refine ⟨p, List.mem_of_find?_eq_some hp, ?_, ?_⟩
    · have hid : p.2.id = n := by simpa using List.find?_some hp
      rw [hn, hid]
    · simp only [step]
      have hrec : (s m).appendToHead [entityUpdateRecord sha clock (recordToNote sha p.2) "archived"
          (p.2.invalidAt.or (some clock.nowSecs)) none [] none none] = some r := hr
      rw [hrec, Option.getD_some]

/-- The step, if it is an update, keeps the entry it updates. -/
def UpdateKeepsEntry (sha : String → String) (s : M → Repo) (label : Step M) : Prop :=
  match label with
  | .update m _ base status .. =>
    KeepsEntry sha (s m) (step sha s label m) (noteEntityId sha base) status
  | _ => True

/-- The step, if it is an update, appends a line its entry's base copy outranks. -/
def UpdateOutranked (sha : String → String) (s : M → Repo) (label : Step M) : Prop :=
  match label with
  | .update m clock base status invalidAt successor edges =>
    ∀ head ∈ (s m).history.head?, Outranked sha (s m) head
      (entityUpdateRecord sha clock base status invalidAt successor edges none none)
  | _ => True

theorem updateKeepsEntry_iff (sha : String → String) (s : M → Repo) (label : Step M) :
    UpdateKeepsEntry sha s label ↔ UpdateOutranked sha s label := by
  cases label with
  | moveHead m history nodup => exact Iff.rfl
  | write m records => exact Iff.rfl
  | anchor m clock target base patchId => exact Iff.rfl
  | merge m notes => exact Iff.rfl
  | update m clock base status invalidAt successor edges =>
    simp only [UpdateKeepsEntry, UpdateOutranked, step, Function.update_self]
    cases hhead : (s m).history.head? with
    | none =>
      -- nothing is reachable without a HEAD, so there is no entry
      have hnil : (s m).recordsWithCommit = [] := by
        simp [Repo.recordsWithCommit, List.head?_eq_none_iff.mp hhead]
      refine iff_of_true ?_ (by simp)
      intro f hf
      simp [Repo.foldedRecords, hnil, foldRecords, groupRecords] at hf
    | some head =>
      simp only [Repo.appendToHead, hhead, Option.map_some, Option.getD_some, Option.mem_def,
        Option.some.injEq, forall_eq']
      exact keepsEntry_append_iff hhead
        (entityUpdateRecord sha clock base status invalidAt successor edges none none)

/-- In every run of every number of machines, whatever their clocks show, the
    updates keep the entries they update exactly when each one's line is
    outranked by the base copy it finds. -/
theorem updates_keep_entries_iff (sha : String → String) (s : M → Repo) (labels : List (Step M)) :
    Runs.EachStep (step sha) (UpdateKeepsEntry sha) s labels
      ↔ Runs.EachStep (step sha) (UpdateOutranked sha) s labels := by
  constructor
  · exact Runs.EachStep.imp _ fun s i => (updateKeepsEntry_iff sha s i).mp
  · exact Runs.EachStep.imp _ fun s i => (updateKeepsEntry_iff sha s i).mpr

/-! ### A machine whose clock is an hour behind -/

/-- The entry the first machine records. -/
def axumInput : NoteInput where
  kind := "decision"
  title := "HTTP layer"
  body := "use axum"
  tags := []
  linkedFiles := []
  sourceRef := none
  validAt := none
  origin := none

/-- What the first machine appends, at noon. -/
def axumRecord : NoteRecord := addRecord axumSha ⟨1700000000, 1700000000000⟩ axumInput

/-- The second machine fetches the entry and archives it; its clock shows eleven. -/
def skewedRun : List (Step Bool) :=
  [.moveHead false ["1f0c"] (by decide),
   .write false [axumRecord],
   .moveHead true ["1f0c"] (by decide),
   .merge true (Function.update (fun _ => []) "1f0c" [axumRecord]),
   .update true ⟨1699996400, 1699996400000⟩ (recordToNote axumSha axumRecord) "archived"
     (some 1699996400) none []]

/-- The update becomes the base, and the entry's id is no longer the one it was
    recorded under. -/
theorem not_updates_keep_entries_of_skew :
    ¬ Runs.EachStep (step axumSha) (UpdateKeepsEntry axumSha) (fun _ => Repo.empty) skewedRun := by
  intro h
  obtain ⟨-, -, -, -, hkeep, -⟩ := h
  obtain ⟨f', hf', -, hid, -⟩ := hkeep axumRecord (by decide) (by decide)
  have hids : ∀ f ∈ (step axumSha (Runs.run (step axumSha) (fun _ => Repo.empty)
      (skewedRun.take 4)) (skewedRun.getLast (by decide)) true).foldedRecords axumSha,
      f.id = 1699996400000 := by decide
  have hid' := hids f' hf'
  rw [hid'] at hid
  exact absurd hid (by decide)

end Runs

end GitNotes
end Inkentry
