/-
  Inkentry.Carrier.ImportMarker

  What the recorded OID of the last import stands for.  It should name a commit
  of the working ref all of whose entities have a row.  The ref is listed before
  its OID is read, so an append between the two is recorded and not imported,
  and the listing is capped.

  `importMarkerOk_iff` says over any run that the marker tells the truth in
  every state exactly when each import that goes through covers the commit it
  records.
-/

import Inkentry.Carrier.Completeness
import Inkentry.Carrier.ReadPath

namespace Inkentry
namespace Carrier

open GitNotes Memory Runs

section

variable {R : Type*} {env : ReadEnv}

/-- Every entity at the commit recorded by the last import has a row. -/
def ImportMarkerOk (env : ReadEnv) (w : World R) : Prop :=
  ∀ i, w.db.lastImportedWorkingOid = some i → ∀ notes, w.working[i]? = some notes →
    ∀ commit, ∀ r ∈ notes commit, r.resolveEntityId env.sha ∈ entities w.db.store

/-- An import whose transaction goes through has in reach every entity at the commit
    it records. -/
def CommitCovers (env : ReadEnv) (w : World R) : Event R → Prop
  | .commit r mint => ∀ pending notes i existing carried supersedes outcome db,
    w.readers r = .importing pending (.ready notes (some i) existing carried supersedes) →
    importIntoMemory env.toImportEnv mint notes (some i) existing carried supersedes w.db?
      = some (outcome, some db) →
    ∀ version, w.working[i]? = some version → ∀ commit, ∀ r ∈ version commit,
      InReach env.sha w.db.store existing notes (r.resolveEntityId env.sha)
  | _ => True

/-! ## The invariant -/

/-- The OID a read has in hand to record as imported. -/
def ReadPhase.oid : ReadPhase → Option Nat
  | .importing _ (.stamped _ oid) => oid
  | .importing _ (.known _ oid _) => oid
  | .importing _ (.edges _ oid _ _) => oid
  | .importing _ (.ready _ oid _ _ _) => oid
  | _ => none

/-- The marker tells the truth, and no recorded OID is ahead of the ref. -/
structure ImportInv (env : ReadEnv) (w : World R) : Prop where
  marker_ok : ImportMarkerOk env w
  marker_lt : ∀ i, w.db.lastImportedWorkingOid = some i → i < w.working.length
  oid_lt : ∀ r i, (w.readers r).oid = some i → i < w.working.length

theorem importInv_initial : ImportInv env (World.initial : World R) where
  marker_ok i h := absurd h (by simp [World.initial, World.db, MemoryDb.fresh])
  marker_lt i h := absurd h (by simp [World.initial, World.db, MemoryDb.fresh])
  oid_lt r i h := absurd h (by simp [World.initial, ReadPhase.oid])

/-- Commits added to the ref and rows added to the store keep the invariant. -/
theorem ImportInv.mono {w w' : World R} (h : ImportInv env w) (hwork : w.working <+: w'.working)
    (hmark : w'.db.lastImportedWorkingOid = w.db.lastImportedWorkingOid)
    (hent : ∀ e ∈ entities w.db.store, e ∈ entities w'.db.store)
    (hoid : ∀ r i, (w'.readers r).oid = some i → i < w'.working.length) : ImportInv env w' where
  marker_ok i hi notes hnotes commit r hr := by
    rw [hmark] at hi
    obtain ⟨later, hlater⟩ := hwork
    rw [← hlater, List.getElem?_append_left (h.marker_lt i hi)] at hnotes
    exact hent _ (h.marker_ok i hi notes hnotes commit r hr)
  marker_lt i hi := by
    have hlt := h.marker_lt i (hmark ▸ hi)
    have hle := hwork.length_le
    omega
  oid_lt := hoid

theorem entities_subset_of_keeps {s s' : Store} (h : s.Keeps s') :
    ∀ e ∈ entities s, e ∈ entities s' := by
  intro e he
  obtain ⟨n, hn, rfl⟩ := List.mem_map.mp he
  obtain ⟨n', hn', -, hent, -⟩ := h n hn
  exact hent ▸ List.mem_map_of_mem hn'

/-! ## What a step does -/

variable {w : World R}

@[simp] theorem oid_afterImport (pending : Option (Option Nat)) :
    (afterImport pending).oid = none := by
  cases pending <;> rfl

theorem oid_ite {c : Prop} [Decidable c] {a b : ReadPhase} (ha : a.oid = none)
    (hb : b.oid = none) : (if c then a else b).oid = none := by
  split
  · exact ha
  · exact hb

theorem workingOid_lt {i : Nat} (h : w.workingOid = some i) : i < w.working.length := by
  rw [World.workingOid] at h
  split at h
  case isTrue => exact absurd h (by simp)
  case isFalse hne =>
    have hpos := List.length_pos_of_ne_nil hne
    have hi := Option.some.inj h
    omega

/-- A merge either leaves the working ref as it is, or adds what the tracking ref has. -/
theorem merge_cases (env : ReadEnv) (w : World R) (attempt : MergeAttempt) :
    (w.mergeTrackingNotes env attempt).2 = w
      ∨ ∃ theirs, attempt = .runs
        ∧ (w.trackingOid.bind fun now => w.trackingCommits[now]?) = some theirs
        ∧ (w.mergeTrackingNotes env attempt).2 = w.advance (env.merge w.notes theirs) := by
  cases attempt with
  | runs =>
    rw [World.mergeTrackingNotes]
    split
    case h_1 theirs htheirs => exact .inr ⟨theirs, rfl, htheirs, rfl⟩
    case h_2 => exact .inl rfl
  | fails => exact .inl rfl
  | locked => exact .inl rfl

variable [DecidableEq R]

theorem oid_goto (w : World R) (r : R) (phase : ReadPhase) (r' : R) :
    ((w.goto r phase).readers r').oid = if r' = r then phase.oid else (w.readers r').oid := by
  by_cases hr : r' = r
  · subst hr
    simp [World.goto]
  · simp [World.goto, hr]

/-- A read's own steps leave the refs alone; they move it on, or record the OID the ref
    has now. -/
theorem next_cases (env : ReadEnv) (w : World R) (r : R) :
    (w.next env r).working = w.working
      ∧ (w.next env r).db.lastImportedWorkingOid = w.db.lastImportedWorkingOid
      ∧ (w.next env r).db.store = w.db.store
      ∧ ∀ r', ((w.next env r).readers r').oid = (w.readers r').oid
        ∨ ((w.next env r).readers r').oid = none
        ∨ ((w.next env r).readers r').oid = w.workingOid := by
  have hgoto (phase : ReadPhase)
      (h : phase.oid = (w.readers r).oid ∨ phase.oid = none ∨ phase.oid = w.workingOid) (r' : R) :
      ((w.goto r phase).readers r').oid = (w.readers r').oid
        ∨ ((w.goto r phase).readers r').oid = none
        ∨ ((w.goto r phase).readers r').oid = w.workingOid := by
    rw [oid_goto]
    split
    case isTrue hr => exact hr ▸ h
    case isFalse => exact .inl rfl
  -- the marker is read once, when the listing is stamped; no other phase takes an oid
  rw [World.next]
  split
  case h_1 => exact ⟨rfl, rfl, rfl, hgoto _ (.inr (.inl rfl))⟩
  case h_2 => exact ⟨rfl, rfl, rfl, hgoto _ (.inr (.inl (oid_ite rfl rfl)))⟩
  case h_3 => exact ⟨rfl, rfl, rfl, hgoto _ (.inr (.inl rfl))⟩
  case h_4 => exact ⟨rfl, rfl, rfl, hgoto _ (.inr (.inl (oid_ite rfl (oid_afterImport _))))⟩
  case h_5 pending stage hphase =>
    cases stage with
    | start =>
      refine ⟨rfl, rfl, rfl, hgoto _ (.inr (.inl ?_))⟩
      cases listForImport env.sha w.repo with
      | none => exact oid_afterImport _
      | some notes => rfl
    | listed notes =>
      rw [World.nextImport]
      split
      · exact ⟨rfl, rfl, rfl, hgoto _ (.inr (.inr rfl))⟩
      · exact ⟨rfl, rfl, rfl, hgoto _ (.inr (.inr rfl))⟩
    | stamped notes oid =>
      exact ⟨rfl, rfl, rfl, hgoto _ (.inl (by rw [hphase]; rfl))⟩
    | known notes oid existing =>
      refine ⟨rfl, rfl, rfl, hgoto _ ?_⟩
      cases carriedEdges env.sha w.repo with
      | none => exact .inr (.inl (by simp))
      | some carried => exact .inl (by rw [hphase]; rfl)
    | edges notes oid existing carried =>
      refine ⟨rfl, rfl, rfl, hgoto _ ?_⟩
      cases carriedSupersedeEdges env.sha w.repo with
      | none => exact .inr (.inl (by simp))
      | some supersedes => exact .inl (by rw [hphase]; rfl)
    | ready notes oid existing carried supersedes => exact ⟨rfl, rfl, rfl, fun _ => .inl rfl⟩
  case h_6 => exact ⟨rfl, rfl, rfl, hgoto _ (.inr (.inl rfl))⟩
  case h_7 => exact ⟨rfl, rfl, rfl, fun _ => .inl rfl⟩
  case h_8 => exact ⟨rfl, rfl, rfl, fun _ => .inl rfl⟩

/-- The import's transaction is taken from the last stage only, and fails or leaves what
    the import returned. -/
theorem commit_cases (env : ReadEnv) (w : World R) (r : R) (mint : Nat → NoteId) :
    w.commit env r mint = w
      ∨ ∃ pending notes oid existing carried supersedes,
        w.readers r = .importing pending (.ready notes oid existing carried supersedes)
        ∧ (w.commit env r mint = w.goto r (afterImport pending)
            ∧ importIntoMemory env.toImportEnv mint notes oid existing carried supersedes w.db? = none
          ∨ ∃ outcome db?, importIntoMemory env.toImportEnv mint notes oid existing carried
                supersedes w.db? = some (outcome, db?)
              ∧ w.commit env r mint = { w with db? := db? }.goto r (afterImport pending)) := by
  rw [World.commit]
  split
  case h_1 pending notes oid existing carried supersedes hphase =>
    refine .inr ⟨pending, notes, oid, existing, carried, supersedes, hphase, ?_⟩
    split
    case h_1 outcome db? himport => exact .inr ⟨outcome, db?, himport, rfl⟩
    case h_2 himport => exact .inl ⟨rfl, himport⟩
  case h_2 => exact .inl rfl

theorem ImportInv.goto (h : ImportInv env w) (r : R) {phase : ReadPhase}
    (hphase : ∀ i, phase.oid = some i → i < w.working.length) : ImportInv env (w.goto r phase) := by
  refine h.mono (List.prefix_refl _) rfl (fun e he => he) fun r' i hi => ?_
  rw [oid_goto] at hi
  split at hi
  · exact hphase i hi
  · exact h.oid_lt r' i hi

theorem ImportInv.commit (h : ImportInv env w) {r : R} {mint : Nat → NoteId}
    (hgood : CommitCovers env w (.commit r mint)) : ImportInv env (w.commit env r mint) := by
  rcases commit_cases env w r mint with hsame | ⟨pending, notes, oid, existing, carried, supersedes,
    hphase, ⟨hstep, -⟩ | ⟨outcome, db?, himport, hstep⟩⟩
  · rw [hsame]
    exact h
  · rw [hstep]
    exact h.goto r (by simp)
  · rw [hstep]
    refine ImportInv.goto ?_ r (by simp)
    cases db? with
    | none =>
      have hnone : w.db? = none := importIntoMemory_none himport
      exact h.mono (List.prefix_refl _) (by simp [World.db, hnone])
        (by simp [World.db, hnone]) h.oid_lt
    | some db =>
      obtain ⟨hmark, hmem⟩ := mem_entities_importIntoMemory himport
      constructor
      · intro i hi version hversion commit rec hrec
        obtain rfl : oid = some i := hmark.symm.trans hi
        exact (hmem _).mpr (hgood pending notes i existing carried supersedes outcome db hphase
          himport version hversion commit rec hrec)
      · intro i hi
        obtain rfl : oid = some i := hmark.symm.trans hi
        exact h.oid_lt r i (by rw [hphase]; rfl)
      · exact h.oid_lt

theorem importInv_step {e : Event R} (h : ImportInv env w)
    (hgood : CommitCovers env w e) : ImportInv env (step env w e) := by
  have hadvance (w' : World R) (notes : Notes) (h' : ImportInv env w') :
      ImportInv env (w'.advance notes) := by
    refine h'.mono (List.prefix_append _ _) rfl (fun e he => he) fun r i hi => ?_
    have hlt := h'.oid_lt r i hi
    rw [World.advance, List.length_append]
    omega
  cases e with
  | append target records => exact hadvance w _ h
  | fetch notes => exact h.mono (List.prefix_refl _) rfl (fun e he => he) h.oid_lt
  | refetch oid => exact h.mono (List.prefix_refl _) rfl (fun e he => he) h.oid_lt
  | checkout history => exact h.mono (List.prefix_refl _) rfl (fun e he => he) h.oid_lt
  | write op =>
    exact h.mono (List.prefix_refl _) rfl (entities_subset_of_keeps (keeps_applyWrite _ _ op))
      h.oid_lt
  -- an oid in a reader stays, is dropped, or is the one of the notes ref as it is now
  | next r =>
    obtain ⟨hwork, hmark, hstore, hoid⟩ := next_cases env w r
    show ImportInv env (w.next env r)
    refine h.mono (hwork ▸ List.prefix_refl _) hmark (by rw [hstore]; exact fun e he => he) ?_
    intro r' i hi
    rw [hwork]
    rcases hoid r' with hsame | hnone | hnow
    · exact h.oid_lt r' i (hsame ▸ hi)
    · exact absurd (hnone.symm.trans hi) (by simp)
    · exact workingOid_lt (hnow.symm.trans hi)
  | readMarker r opens =>
    show ImportInv env (w.readMarker r opens)
    rw [World.readMarker]
    split
    case h_1 tracking working hphase =>
      exact h.goto r fun i hi => absurd hi (by rw [oid_ite rfl rfl]; simp)
    case h_2 => exact h
  | merge r attempt =>
    simp only [step]
    split
    · refine ImportInv.goto ?_ r (by simp [ReadPhase.oid])
      rcases merge_cases env w attempt with hsame | ⟨theirs, -, -, hstep⟩
      · rw [hsame]
        exact h
      · rw [hstep]
        exact hadvance w _ h
    · exact h
  -- the only step that moves the marker
  | commit r mint => exact h.commit hgood
  | importAlone r =>
    simp only [step]
    split
    · exact h.goto r (by simp [ReadPhase.oid])
    · exact h
  | importFails r =>
    simp only [step]
    split
    · exact h.goto r (by simp)
    · exact h
  | giveUp r => exact h.goto r (by simp [ReadPhase.oid])

/-- An import that goes through and does not cover the commit it records leaves a marker
    that is wrong. -/
theorem not_importMarkerOk_of_not_covers {e : Event R}
    (hbad : ¬ CommitCovers env w e) : ¬ ImportMarkerOk env (step env w e) := by
  cases e with
  | commit r mint =>
    simp only [CommitCovers, not_forall, exists_prop] at hbad
    obtain ⟨pending, notes, i, existing, carried, supersedes, outcome, db, hphase, himport, version,
      hversion, commit, rec, hrec, hout⟩ := hbad
    have hstep : step env w (.commit r mint)
        = { w with db? := some db }.goto r (afterImport pending) := by
      show w.commit env r mint = _
      rw [World.commit, hphase]
      simp only [himport]
    obtain ⟨hmark, hmem⟩ := mem_entities_importIntoMemory himport
    rw [hstep]
    intro hok
    exact hout ((hmem _).mp (hok i hmark version hversion commit rec hrec))
  | _ => exact absurd trivial hbad

/-- Over any run from an empty clone, the marker of the last import tells the truth in
    every state exactly when each import that goes through covers the commit it records. -/
theorem importMarkerOk_iff (env : ReadEnv) (events : List (Event R)) :
    EachState (step env) (ImportMarkerOk env) World.initial events
      ↔ EachStep (step env) (CommitCovers env) World.initial events :=
  eachState_iff_eachStep (ImportInv env) (fun _ _ h hgood => importInv_step h hgood)
    (fun _ h => h.marker_ok) (fun _ _ _ hbad => not_importMarkerOk_of_not_covers hbad)
    importInv_initial

end

/-! ## An append while the ref is read -/

/-- A machine whose merge puts the fetched lines after its own. -/
def plainReadEnv : ReadEnv where
  toImportEnv := plainImportEnv
  merge ours theirs commit := ours commit ++ theirs commit
  mem_merge _ _ _ _ := List.mem_append

/-- A read lists a ref with one entry, another process appends a second, and the read
    goes on to record the ref's new OID. -/
def racedRead : List (Event Unit) :=
  [.checkout ⟨["c1"], List.nodup_singleton _⟩, .append "c1" [plainRecord 1],
    .next (), .next (), .readMarker () true, .next (), .next (),
    .append "c1" [plainRecord 2],
    .next (), .next (), .next (), .next (), .commit () countedId]

/-- The entry appended meanwhile is recorded as imported and has no row. -/
theorem not_importMarkerOk_of_append :
    ¬ EachState (step plainReadEnv) (ImportMarkerOk plainReadEnv) World.initial racedRead := by
  intro h
  have hmark : (run (step plainReadEnv) World.initial racedRead).db.lastImportedWorkingOid
      = some 1 := by decide +kernel
  have hwork : (run (step plainReadEnv) World.initial racedRead).working[1]?.map
      (fun notes => notes "c1") = some [plainRecord 1, plainRecord 2] := by decide +kernel
  obtain ⟨notes, hnotes, hrecords⟩ := Option.map_eq_some_iff.mp hwork
  have hrow := EachState.last _ h 1 hmark notes hnotes "c1" (plainRecord 2) (by rw [hrecords]; simp)
  revert hrow
  decide +kernel

end Carrier
end Inkentry
