/-
  Inkentry.Carrier.MergeMarker

  What the recorded OID of the last merge stands for.  It should name a commit
  of the tracking ref whose records the working ref has.  The refresh records
  the OID whatever became of the merge, so one that was skipped over the lock is
  not tried again until the next fetch.

  `mergeMarkerOk_of_merges_land` says over any run that the marker tells the
  truth in every state when every merge lands: it runs and the tracking ref
  still has what the read saw, or the working ref has it already.
-/

import Inkentry.Carrier.ImportMarker

namespace Inkentry
namespace Carrier

open GitNotes Memory Runs

section

variable {R : Type*} {env : ReadEnv}

/-- The working ref has the records of a commit of the tracking ref. -/
def World.HasMerged (w : World R) (oid : Nat) : Prop :=
  ∀ theirs, w.trackingCommits[oid]? = some theirs → ∀ commit, ∀ r ∈ theirs commit,
    r ∈ w.notes commit

/-- The working ref has the records of the commit recorded by the last merge. -/
def MergeMarkerOk (w : World R) : Prop :=
  ∀ oid, w.db.lastMergedTrackingOid = some oid → w.HasMerged oid

/-- A merge for a read that saw a commit of the tracking ref runs while the ref has that
    commit's records, unless the working ref has them already. -/
def MergeLands (w : World R) : Event R → Prop
  | .merge r attempt => ∀ oid imported, w.readers r = .merging (some oid) imported →
    w.HasMerged oid ∨ attempt = .runs ∧ ∃ theirs,
      (w.trackingOid.bind fun now => w.trackingCommits[now]?) = some theirs
      ∧ ∀ seen, w.trackingCommits[oid]? = some seen → ∀ commit, ∀ r ∈ seen commit,
        r ∈ theirs commit
  | _ => True

/-! ## The invariant -/

variable {w : World R}

/-- The tracking OID a read has seen. -/
def ReadPhase.tracking : ReadPhase → Option Nat
  | .sawTracking tracking => tracking
  | .sawRefs tracking _ => tracking
  | .merging tracking _ => tracking
  | .merged tracking _ => tracking
  | .deciding pending _ _ => pending.join
  | .importing pending _ => pending.join
  | .stamping tracking => tracking
  | .idle => none

/-- The tracking OID a read is going to record, its merge being over. -/
def ReadPhase.due : ReadPhase → Option Nat
  | .merged tracking _ => tracking
  | .deciding pending _ _ => pending.join
  | .importing pending _ => pending.join
  | .stamping tracking => tracking
  | _ => none

@[simp] theorem due_afterImport (pending : Option (Option Nat)) :
    (afterImport pending).due = pending.join := by
  cases pending <;> rfl

@[simp] theorem tracking_afterImport (pending : Option (Option Nat)) :
    (afterImport pending).tracking = pending.join := by
  cases pending <;> rfl

theorem tracking_of_due {phase : ReadPhase} {oid : Nat} (h : phase.due = some oid) :
    phase.tracking = some oid := by
  cases phase <;> first | exact h | exact absurd h (by simp [ReadPhase.due])

theorem notes_advance (w : World R) (notes : Notes) : (w.advance notes).notes = notes := by
  simp [World.notes, World.advance]

/-- The marker tells the truth, so will what is due to be recorded, and no OID is ahead of
    the tracking ref's commits. -/
structure MergeInv (w : World R) : Prop where
  marker_ok : MergeMarkerOk w
  due_ok : ∀ r oid, (w.readers r).due = some oid → w.HasMerged oid
  marker_lt : ∀ oid, w.db.lastMergedTrackingOid = some oid → oid < w.trackingCommits.length
  seen_lt : ∀ r oid, (w.readers r).tracking = some oid → oid < w.trackingCommits.length
  tracking_lt : ∀ oid, w.trackingOid = some oid → oid < w.trackingCommits.length

theorem mergeInv_initial : MergeInv (World.initial : World R) where
  marker_ok oid h := absurd h (by simp [World.initial, World.db, MemoryDb.fresh])
  due_ok r oid h := absurd h (by simp [World.initial, ReadPhase.due])
  marker_lt oid h := absurd h (by simp [World.initial, World.db, MemoryDb.fresh])
  seen_lt r oid h := absurd h (by simp [World.initial, ReadPhase.tracking])
  tracking_lt oid h := absurd h (by simp [World.initial])

theorem World.HasMerged.mono {w w' : World R} {oid : Nat} (h : w.HasMerged oid)
    (hlt : oid < w.trackingCommits.length) (hcommits : w.trackingCommits <+: w'.trackingCommits)
    (hnotes : ∀ commit, ∀ r ∈ w.notes commit, r ∈ w'.notes commit) : w'.HasMerged oid := by
  intro theirs htheirs commit r hr
  obtain ⟨later, hlater⟩ := hcommits
  rw [← hlater, List.getElem?_append_left hlt] at htheirs
  exact hnotes commit r (h theirs htheirs commit r hr)

/-- Commits added to either ref keep the invariant. -/
theorem MergeInv.mono {w w' : World R} (h : MergeInv w)
    (hcommits : w.trackingCommits <+: w'.trackingCommits)
    (hnotes : ∀ commit, ∀ r ∈ w.notes commit, r ∈ w'.notes commit)
    (hmark : w'.db.lastMergedTrackingOid = w.db.lastMergedTrackingOid)
    (hreaders : w'.readers = w.readers)
    (htracking : ∀ oid, w'.trackingOid = some oid → oid < w'.trackingCommits.length) :
    MergeInv w' where
  marker_ok oid hoid :=
    (h.marker_ok oid (hmark ▸ hoid)).mono (h.marker_lt oid (hmark ▸ hoid)) hcommits hnotes
  due_ok r oid hoid := by
    rw [hreaders] at hoid
    exact (h.due_ok r oid hoid).mono (h.seen_lt r oid (tracking_of_due hoid)) hcommits hnotes
  marker_lt oid hoid := (h.marker_lt oid (hmark ▸ hoid)).trans_le hcommits.length_le
  seen_lt r oid hoid := by
    rw [hreaders] at hoid
    exact (h.seen_lt r oid hoid).trans_le hcommits.length_le
  tracking_lt := htracking

theorem MergeInv.advance (h : MergeInv w) {notes : Notes}
    (hnotes : ∀ commit, ∀ r ∈ w.notes commit, r ∈ notes commit) : MergeInv (w.advance notes) := by
  refine h.mono (List.prefix_refl _) ?_ rfl rfl h.tracking_lt
  intro commit r hr
  rw [notes_advance]
  exact hnotes commit r hr

theorem MergeInv.setDb (h : MergeInv w) {db? : Option (MemoryDb Nat)}
    (hmark : (db?.getD .fresh).lastMergedTrackingOid = w.db.lastMergedTrackingOid) :
    MergeInv { w with db? := db? } :=
  h.mono (List.prefix_refl _) (fun _ _ hr => hr) hmark rfl h.tracking_lt

variable [DecidableEq R]

theorem MergeInv.goto (h : MergeInv w) (r : R) {phase : ReadPhase}
    (hdue : ∀ oid, phase.due = some oid → w.HasMerged oid)
    (hseen : ∀ oid, phase.tracking = some oid → oid < w.trackingCommits.length) :
    MergeInv (w.goto r phase) where
  marker_ok := h.marker_ok
  due_ok r' oid hoid := by
    by_cases hr : r' = r
    · subst hr
      exact hdue oid (by simpa [World.goto] using hoid)
    · exact h.due_ok r' oid (by simpa [World.goto, hr] using hoid)
  marker_lt := h.marker_lt
  seen_lt r' oid hoid := by
    by_cases hr : r' = r
    · subst hr
      exact hseen oid (by simpa [World.goto] using hoid)
    · exact h.seen_lt r' oid (by simpa [World.goto, hr] using hoid)
  tracking_lt := h.tracking_lt

theorem MergeInv.goto_of_le (h : MergeInv w) (r : R) {phase : ReadPhase}
    (hdue : ∀ oid, phase.due = some oid → (w.readers r).due = some oid)
    (hseen : ∀ oid, phase.tracking = some oid → (w.readers r).tracking = some oid) :
    MergeInv (w.goto r phase) :=
  h.goto r (fun oid hoid => h.due_ok r oid (hdue oid hoid))
    fun oid hoid => h.seen_lt r oid (hseen oid hoid)

/-! ## The steps of a read -/

theorem MergeInv.nextImport (h : MergeInv w) {r : R} {pending : Option (Option Nat)}
    {stage : ImportStage} (hphase : w.readers r = .importing pending stage) :
    MergeInv (w.nextImport env r pending stage) := by
  -- reading on keeps what the reader has due and has seen
  have hmove {w' : World R} (h' : MergeInv w') (hreaders : w'.readers = w.readers)
      {phase : ReadPhase} (hdue : phase.due = pending.join)
      (hseen : phase.tracking = pending.join) : MergeInv (w'.goto r phase) := by
    refine h'.goto_of_le r ?_ ?_
    · intro oid hoid
      rw [hreaders, hphase]
      exact hdue.symm.trans hoid
    · intro oid hoid
      rw [hreaders, hphase]
      exact hseen.symm.trans hoid
  cases stage with
  | start =>
    rw [World.nextImport]
    cases listForImport env.sha w.repo with
    | none => exact hmove h rfl (due_afterImport _) (tracking_afterImport _)
    | some notes => exact hmove h rfl rfl rfl
  | listed notes =>
    rw [World.nextImport]
    split
    · exact hmove h rfl rfl rfl
    · exact hmove h rfl rfl rfl
  | stamped notes oid =>
    refine @hmove w.openStore (h.setDb rfl) rfl _ ?_ ?_
    · rfl
    · rfl
  | known notes oid existing =>
    rw [World.nextImport]
    cases carriedEdges env.sha w.repo with
    | none => exact hmove h rfl (due_afterImport _) (tracking_afterImport _)
    | some carried => exact hmove h rfl rfl rfl
  | edges notes oid existing carried =>
    rw [World.nextImport]
    cases carriedSupersedeEdges env.sha w.repo with
    | none => exact hmove h rfl (due_afterImport _) (tracking_afterImport _)
    | some supersedes => exact hmove h rfl rfl rfl
  | ready notes oid existing carried supersedes => exact h

theorem MergeInv.stamp (h : MergeInv w) {r : R} {tracking : Option Nat}
    (hphase : w.readers r = .stamping tracking) :
    MergeInv ({ w with db? := some { w.db with lastMergedTrackingOid := tracking } }.goto r .idle)
    where
  marker_ok oid hoid := h.due_ok r oid (by rw [hphase]; exact hoid)
  due_ok := (@MergeInv.goto_of_le _ _ _ h r .idle (by simp [ReadPhase.due])
    (by simp [ReadPhase.tracking])).due_ok
  marker_lt oid hoid := h.seen_lt r oid (by rw [hphase]; exact hoid)
  seen_lt := (@MergeInv.goto_of_le _ _ _ h r .idle (by simp [ReadPhase.due])
    (by simp [ReadPhase.tracking])).seen_lt
  tracking_lt := h.tracking_lt

theorem MergeInv.next (h : MergeInv w) (r : R) : MergeInv (w.next env r) := by
  rw [World.next]
  split
  case h_1 => exact h.goto r (by simp [ReadPhase.due]) fun oid hoid => h.tracking_lt oid hoid
  case h_2 tracking hphase =>
    split
    case isTrue => exact h.goto_of_le r (by simp [ReadPhase.due]) (by simp [ReadPhase.tracking])
    case isFalse =>
      exact h.goto_of_le r (by simp [ReadPhase.due]) fun oid hoid => by rw [hphase]; exact hoid
  case h_3 tracking imported hphase =>
    exact h.goto_of_le r (fun oid hoid => by rw [hphase]; exact hoid)
      fun oid hoid => by rw [hphase]; exact hoid
  case h_4 pending working imported hphase =>
    split
    case isTrue =>
      exact h.goto_of_le r (fun oid hoid => by rw [hphase]; exact hoid)
        fun oid hoid => by rw [hphase]; exact hoid
    case isFalse =>
      refine h.goto_of_le r ?_ ?_
      · intro oid hoid
        rw [hphase]
        exact (due_afterImport pending).symm.trans hoid
      · intro oid hoid
        rw [hphase]
        exact (tracking_afterImport pending).symm.trans hoid
  case h_5 pending stage hphase => exact h.nextImport hphase
  case h_6 tracking hphase => exact h.stamp hphase
  case h_7 => exact h
  case h_8 => exact h

theorem MergeInv.readMarker (h : MergeInv w) (r : R) (opens : Bool) :
    MergeInv (w.readMarker r opens) := by
  rw [World.readMarker]
  split
  case h_1 tracking working hphase =>
    generalize (if opens then w.db else MemoryDb.fresh) = db
    simp only
    split
    case isTrue =>
      exact h.goto_of_le r (by simp [ReadPhase.due]) fun oid hoid => by rw [hphase]; exact hoid
    case isFalse => exact h.goto_of_le r (by simp [ReadPhase.due]) (by simp [ReadPhase.tracking])
  case h_2 => exact h

theorem MergeInv.commit (h : MergeInv w) (r : R) (mint : Nat → NoteId) :
    MergeInv (w.commit env r mint) := by
  have hafter {w' : World R} (h' : MergeInv w') (hreaders : w'.readers = w.readers)
      {pending : Option (Option Nat)} {stage : ImportStage}
      (hphase : w.readers r = .importing pending stage) :
      MergeInv (w'.goto r (afterImport pending)) := by
    refine h'.goto_of_le r ?_ ?_
    · intro oid hoid
      rw [hreaders, hphase]
      exact (due_afterImport pending).symm.trans hoid
    · intro oid hoid
      rw [hreaders, hphase]
      exact (tracking_afterImport pending).symm.trans hoid
  rcases commit_cases env w r mint with hsame | ⟨pending, notes, oid, existing, carried, supersedes,
    hphase, ⟨hstep, -⟩ | ⟨outcome, db?, himport, hstep⟩⟩
  · rw [hsame]
    exact h
  · rw [hstep]
    exact hafter h rfl hphase
  · rw [hstep]
    exact hafter (h.setDb (lastMerged_importIntoMemory himport)) rfl hphase

theorem MergeInv.merge (h : MergeInv w) {r : R} {attempt : MergeAttempt}
    (hgood : MergeLands w (.merge r attempt)) : MergeInv (step env w (.merge r attempt)) := by
  simp only [step]
  split
  case h_2 => exact h
  case h_1 tracking imported hphase =>
    have hgrows (theirs : Notes) : ∀ commit, ∀ r ∈ w.notes commit,
        r ∈ env.merge w.notes theirs commit :=
      fun commit r hr => (env.mem_merge _ _ _ _).mpr (.inl hr)
    -- a merge only adds records, so what a reader has due it still has
    have hkept : MergeInv (w.mergeTrackingNotes env attempt).2
        ∧ (w.mergeTrackingNotes env attempt).2.trackingCommits = w.trackingCommits
        ∧ ∀ commit, ∀ r ∈ w.notes commit,
          r ∈ (w.mergeTrackingNotes env attempt).2.notes commit := by
      rcases merge_cases env w attempt with hsame | ⟨theirs, -, -, hstep⟩
      · rw [hsame]
        exact ⟨h, rfl, fun _ _ hr => hr⟩
      · rw [hstep]
        refine ⟨h.advance (hgrows theirs), rfl, ?_⟩
        rw [notes_advance]
        exact hgrows theirs
    obtain ⟨hinv, hcommits, hnotes⟩ := hkept
    have hlt : ∀ oid, tracking = some oid → oid < w.trackingCommits.length :=
      fun oid hoid => h.seen_lt r oid (by rw [hphase]; exact hoid)
    refine hinv.goto r ?_ fun oid hoid => by rw [hcommits]; exact hlt oid hoid
    intro oid hoid
    obtain rfl : tracking = some oid := hoid
    rcases hgood oid imported hphase with hhas | ⟨rfl, theirs, htheirs, hcover⟩
    · exact hhas.mono (hlt oid rfl) (hcommits ▸ List.prefix_refl _) hnotes
    · intro seen hseen commit rec hrec
      rw [hcommits] at hseen
      rw [World.mergeTrackingNotes, htheirs]
      simp only [notes_advance]
      exact (env.mem_merge _ _ _ _).mpr (.inr (hcover seen hseen commit rec hrec))

/-! ## Runs -/

theorem mergeInv_step {e : Event R} (h : MergeInv w) (hgood : MergeLands w e) :
    MergeInv (step env w e) := by
  cases e with
  | append target records =>
    refine h.advance fun commit r hr => ?_
    by_cases hcommit : commit = target
    · subst hcommit
      rw [Function.update_self]
      exact List.mem_append_left _ hr
    · rw [Function.update_of_ne hcommit]
      exact hr
  -- a fetch puts the ref one past every oid seen so far
  | fetch notes =>
    refine h.mono (List.prefix_append _ _) (fun _ _ hr => hr) rfl rfl fun oid hoid => ?_
    obtain rfl := Option.some.inj hoid
    simp [step]
  | refetch oid =>
    refine h.mono (List.prefix_refl _) (fun _ _ hr => hr) rfl rfl fun i hi => ?_
    exact of_decide_eq_true (Option.filter_eq_some_iff.mp hi).2
  | checkout history =>
    exact h.mono (List.prefix_refl _) (fun _ _ hr => hr) rfl rfl h.tracking_lt
  | write op => exact h.setDb rfl
  | next r => exact h.next r
  | readMarker r opens => exact h.readMarker r opens
  -- the only step that moves the marker, with what was merged in the notes by then
  | merge r attempt => exact h.merge hgood
  | commit r mint => exact h.commit r mint
  | importAlone r =>
    simp only [step]
    split
    · exact h.goto_of_le r (by simp [ReadPhase.due]) (by simp [ReadPhase.tracking])
    · exact h
  | importFails r =>
    simp only [step]
    split
    case h_1 pending stage hphase =>
      refine h.goto_of_le r ?_ ?_
      · intro oid hoid
        rw [hphase]
        exact (due_afterImport pending).symm.trans hoid
      · intro oid hoid
        rw [hphase]
        exact (tracking_afterImport pending).symm.trans hoid
    case h_2 => exact h
  | giveUp r => exact h.goto_of_le r (by simp [ReadPhase.due]) (by simp [ReadPhase.tracking])

/-- Over any run from an empty clone, the marker of the last merge tells the truth in
    every state when every merge lands. -/
theorem mergeMarkerOk_of_merges_land (env : ReadEnv) (events : List (Event R))
    (hgood : EachStep (step env) MergeLands World.initial events) :
    EachState (step env) MergeMarkerOk World.initial events := by
  have hinv : EachState (step env) MergeInv World.initial events :=
    eachState_of_inv (fun _ _ h hlands => mergeInv_step h hlands) mergeInv_initial hgood
  exact EachState.imp _ hinv fun w h => MergeInv.marker_ok h

end

/-! ## A read that meets a held lock -/

/-- A read of a clone that has fetched one entry. -/
def fetchedRead (attempt : MergeAttempt) : List (Event Unit) :=
  [.fetch (fun commit => if commit = "c1" then [plainRecord 1] else []),
    .next (), .next (), .readMarker () true, .merge () attempt,
    .next (), .next (), .next (), .next (), .commit () countedId, .next ()]

/-- The merge runs, and what was fetched is there when its OID is recorded. -/
theorem mergeMarkerOk_of_fetchedRead :
    (run (step plainReadEnv) World.initial (fetchedRead .runs)).db.lastMergedTrackingOid = some 0
      ∧ EachState (step plainReadEnv) MergeMarkerOk World.initial (fetchedRead .runs) := by
  refine ⟨by decide +kernel, mergeMarkerOk_of_merges_land plainReadEnv _ ?_⟩
  refine ⟨trivial, trivial, trivial, trivial, ?_, trivial, trivial, trivial, trivial, trivial,
    trivial, trivial⟩
  intro oid imported hphase
  refine .inr ⟨rfl, ?_⟩
  obtain rfl : 0 = oid := Option.some.inj (ReadPhase.merging.inj hphase).1
  exact ⟨_, rfl, fun seen hseen commit r hr => by
    obtain rfl := Option.some.inj hseen
    exact hr⟩

/-- The lock is held, and the OID is recorded all the same. -/
theorem not_mergeMarkerOk_of_locked :
    ¬ EachState (step plainReadEnv) MergeMarkerOk World.initial (fetchedRead .locked) := by
  intro h
  have hmark : (run (step plainReadEnv) World.initial (fetchedRead .locked)).db.lastMergedTrackingOid
      = some 0 := by decide +kernel
  have hmerged := EachState.last _ h 0 hmark
    (fun commit => if commit = "c1" then [plainRecord 1] else []) rfl "c1" (plainRecord 1)
    (by simp)
  revert hmerged
  decide +kernel

end Carrier
end Inkentry
